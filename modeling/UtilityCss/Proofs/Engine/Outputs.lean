import UtilityCss.Proofs.Engine.Requests
import UtilityCss.Proofs.Run

/-!
# What an intake has given out

A class name gets into the log of processed class names where its output is given, and nowhere else. So
whatever is asked of an intake, the outputs and what is put to the end of the log are the same class
names in the same order (`Logged`); caches, timers, batches and changes of the rules do not count. From
one clearing of the log to the next, all outputs together are the log, and no class name is given out
twice (`outputs_eq_processed`).
-/

namespace UtilityCss
namespace Intake

variable {σ : Type} {p q r : Intake σ}

/-- From `p` to `q`, the class names of the outputs were put to the end of the log. -/
structure Logged (p : Intake σ) (outs : List ProcessedClass) (q : Intake σ) : Prop where
  toList_eq : q.processed.toList = p.processed.toList ++ outs.map (·.cls)
  faithful : p.processed.Faithful → q.processed.Faithful

theorem Logged.of_eq (h : q.processed = p.processed) : p.Logged [] q :=
  ⟨by simp [h], fun hp => h ▸ hp⟩

theorem Logged.append {outs outs' : List ProcessedClass} (h : p.Logged outs q)
    (h' : q.Logged outs' r) : p.Logged (outs ++ outs') r where
  toList_eq := by rw [h'.toList_eq, h.toList_eq, List.map_append, List.append_assoc]
  faithful := fun hp => h'.faithful (h.faithful hp)

/-! ## One class name -/

theorem processed_reviewReading (p : Intake σ) (cls : String) :
    (p.reviewReading cls).processed = p.processed := by
  unfold reviewReading
  split <;> rfl

theorem logged_processClass (p : Intake σ) (cls : String) :
    p.Logged (p.processClass cls).1.toList (p.processClass cls).2 := by
  unfold processClass
  by_cases hprocessed : p.processed.contains cls = true
  · rw [if_pos hprocessed]
    exact .of_eq rfl
  · rw [if_neg hprocessed]
    obtain ⟨result, compiler⟩ := p.compiler.generate cls
    cases result with
    | error err => exact .of_eq rfl
    | ok nodes =>
      dsimp only
      split
      · exact .of_eq (processed_reviewReading _ cls)
      · split
        · exact .of_eq rfl
        · -- the only place where the log grows
          refine ⟨?_, fun h => h.add cls⟩
          show (p.processed.add cls).toList = p.processed.toList ++ [cls]
          rw [ClassLog.toList_add, if_neg hprocessed]

/-! ## Many class names -/

theorem logged_processEach (p : Intake σ) (classes : List String) :
    p.Logged (p.processEach classes).1 (p.processEach classes).2 := by
  induction classes generalizing p with
  | nil => exact .of_eq rfl
  | cons cls rest ih => exact (logged_processClass p cls).append (ih _)

theorem logged_processClasses (p : Intake σ) (classes : List String) :
    p.Logged (p.processClasses classes).1 (p.processClasses classes).2 := by
  rw [processClasses_eq]
  exact logged_processEach p _

variable [Scheduler σ]

theorem logged_flush (p : Intake σ) : p.Logged p.flush.1 p.flush.2 := by
  have hunqueue : p.Logged [] (p.unqueue (Scheduler.cancel p.timer)) := .of_eq rfl
  exact hunqueue.append (logged_processClasses _ p.pending.toList)

/-! ## Requests -/

theorem logged_perform (p : Intake σ) {request : Request} (hclear : request ≠ .clearProcessed) :
    p.Logged (p.perform request).1 (p.perform request).2 := by
  cases request with
  | processClass cls => exact logged_processClass p cls
  | processClasses classes => exact logged_processClasses p classes
  | addPending now classes =>
    have hqueue : ∀ timer, p.Logged [] (p.queue classes timer) := fun timer => .of_eq rfl
    obtain ⟨timer, heq | heq⟩ := addPending_cases p now classes
    · rw [perform, heq]
      exact hqueue timer
    · rw [perform, heq]
      exact (hqueue timer).append (logged_flush _)
  | poll now =>
    obtain heq | heq := poll_cases p now
    · rw [perform, heq]
      exact .of_eq rfl
    · rw [perform, heq]
      exact logged_flush p
  | flush => exact logged_flush p
  | clearProcessed => exact absurd rfl hclear
  | clearCaches => exact .of_eq rfl
  | tell command => exact .of_eq rfl

theorem logged_serve (p : Intake σ) {requests : List Request}
    (hclear : .clearProcessed ∉ requests) :
    p.Logged (serve perform p requests).1.flatten (serve perform p requests).2 := by
  induction requests generalizing p with
  | nil => exact .of_eq rfl
  | cons request rest ih =>
    have hfirst := logged_perform p fun h => hclear (h ▸ List.mem_cons_self)
    exact hfirst.append (ih _ fun h => hclear (List.mem_cons_of_mem _ h))

/-- The states in which the log begins anew. -/
inductive Fresh : Intake σ → Prop where
  | new (compiler : Compiler) (timer : σ) : Fresh (.new compiler timer)
  | clearProcessed (p : Intake σ) : Fresh p.clearProcessed

theorem Fresh.processed_eq (h : p.Fresh) : p.processed = .empty := by
  cases h <;> rfl

/-- **Every class name is given out once, in the order of the log.** Take a new intake, or one that has
just been cleared, with whatever timer, and make any requests of it but to clear it. The class names of
all outputs are the processed class names, in order, and none comes twice. -/
theorem outputs_eq_processed (h : p.Fresh) {requests : List Request}
    (hclear : .clearProcessed ∉ requests) :
    ((serve perform p requests).1.flatten.map (·.cls)).Nodup ∧
    (serve perform p requests).1.flatten.map (·.cls) =
      (serve perform p requests).2.processed.toList ∧
    ∀ cls, (serve perform p requests).2.processed.contains cls = true ↔
      cls ∈ (serve perform p requests).1.flatten.map (·.cls) := by
  have hlogged := logged_serve p hclear
  have hlist := hlogged.toList_eq
  have hfaithful := hlogged.faithful (h.processed_eq ▸ ClassLog.faithful_empty)
  rw [h.processed_eq, ClassLog.toList_empty, List.nil_append] at hlist
  rw [← hlist]
  exact ⟨hfaithful.nodup, rfl, fun cls => (hfaithful.mem_iff cls).symm⟩

/-- An unknown class name between two uses of a known one, which comes once more later. -/
def flexAgain : List Request :=
  [.processClasses ["flex", "grid", "flex"], .clearCaches, .processClass "flex"]

theorem outputs_eq_processed_flexAgain :
    flexOnly.Fresh ∧ .clearProcessed ∉ flexAgain ∧
      (serve perform flexOnly flexAgain).1.flatten.map (·.cls) = ["flex"] ∧
      (serve perform flexOnly flexAgain).2.processed.toList = ["flex"] ∧
      (serve perform flexOnly flexAgain).2.processed.contains "flex" = true ∧
      (serve perform flexOnly flexAgain).2.processed.contains "grid" = false := by
  have hfresh : flexOnly.Fresh := .new _ _
  have hclear : .clearProcessed ∉ flexAgain := by simp [flexAgain]
  have hcoherent : flexOnly.compiler.Coherent :=
    Compiler.coherent_serve (Compiler.coherent_new {}) _
  obtain ⟨out, hflex, hcls⟩ := exists_give_flexOnly
  have hnew (cls : String) : flexOnly.processed.contains cls = false := ClassLog.contains_empty cls
  -- The first request gives out one class name, and the last one finds it processed.
  have hrow : attempts flexOnly.compiler.give flexOnly.processed ["flex", "grid", "flex"] =
      ([out], flexOnly.processed.add "flex") := by
    simp [attempts, attempt, hnew, hflex, give_flexOnly_grid, ClassLog.contains_add]
  obtain ⟨houts, hlog⟩ := Prod.mk.inj
    ((attempted_processClasses hcoherent ["flex", "grid", "flex"]).attempts_eq.symm.trans hrow)
  have hagain : ((flexOnly.processClasses ["flex", "grid", "flex"]).2.clearCaches.processClass
      "flex").1 = none := by
    rw [processClass_of_processed]
    show (flexOnly.processClasses ["flex", "grid", "flex"]).2.processed.contains "flex" = true
    rw [hlog]
    simp [ClassLog.contains_add]
  have houtputs : (serve perform flexOnly flexAgain).1.flatten.map (·.cls) = ["flex"] := by
    simp [flexAgain, serve, perform, houts, hagain, hcls]
  obtain ⟨-, hlist, hcontains⟩ := outputs_eq_processed hfresh hclear
  rw [houtputs] at hlist hcontains
  exact ⟨hfresh, hclear, houtputs, hlist.symm, (hcontains "flex").mpr (by decide),
    Bool.eq_false_iff.mpr fun h => absurd ((hcontains "grid").mp h) (by decide)⟩

end Intake
end UtilityCss
