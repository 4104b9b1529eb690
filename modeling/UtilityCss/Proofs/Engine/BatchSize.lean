import UtilityCss.Proofs.Engine.Requests
import UtilityCss.Proofs.Run

/-!
# The size of the batches makes no difference

Class names that come together are sorted out at first, those that are processed and those that repeat,
and compiled in batches. Compiling each of them by itself instead gives the same outputs in the same order
(`processClasses_eq_oneByOne`): what was sorted out gives nothing where its turn comes, as it is processed
by then, or was refused already and is refused again.

The size of the batches is read in one place only, where the batches are cut. Two intakes that differ in it
alone agree on every request and go on to differ in it alone (`perform_batchedBy`), so on every run.
-/

namespace UtilityCss

/-! ## Another batch size -/

/-- The compiler with another batch size. -/
def Compiler.batchedBy (size : Nat) (c : Compiler) : Compiler :=
  { c with config := { c.config with batchSize := size } }

namespace Compiler

variable (c : Compiler) (size : Nat)

theorem parse_batchedBy (raw : String) :
    (c.batchedBy size).parse raw = ((c.parse raw).1, (c.parse raw).2.batchedBy size) := by
  simp only [parse, batchedBy]

theorem generate_batchedBy (cls : String) :
    (c.batchedBy size).generate cls = ((c.generate cls).1, (c.generate cls).2.batchedBy size) := by
  simp only [generate, batchedBy]

theorem perform_batchedBy (command : Command) :
    ((c.batchedBy size).perform command).2 = (c.perform command).2.batchedBy size := by
  cases command with
  | parse raw => simp only [perform, parse_batchedBy]
  | generate cls => simp only [perform, generate_batchedBy]
  | _ => rfl

end Compiler

namespace Intake

variable {σ : Type}

/-- The intake with another batch size. -/
def batchedBy (size : Nat) (p : Intake σ) : Intake σ :=
  { p with compiler := p.compiler.batchedBy size }

variable (size : Nat) (p : Intake σ)

theorem reviewReading_batchedBy (cls : String) :
    (p.batchedBy size).reviewReading cls = (p.reviewReading cls).batchedBy size := by
  have hcaches : (p.batchedBy size).compiler.caches = p.compiler.caches := rfl
  have hparse : (p.batchedBy size).compiler.parse cls =
      ((p.compiler.parse cls).1, (p.compiler.parse cls).2.batchedBy size) :=
    p.compiler.parse_batchedBy size cls
  unfold reviewReading
  rw [hcaches, hparse]
  split <;> rfl

theorem processClass_batchedBy (cls : String) :
    (p.batchedBy size).processClass cls =
      ((p.processClass cls).1, (p.processClass cls).2.batchedBy size) := by
  have hprocessed : (p.batchedBy size).processed = p.processed := rfl
  have hgenerate : (p.batchedBy size).compiler.generate cls =
      ((p.compiler.generate cls).1, (p.compiler.generate cls).2.batchedBy size) :=
    p.compiler.generate_batchedBy size cls
  unfold processClass
  rw [hgenerate, hprocessed]
  obtain ⟨result, compiler⟩ := p.compiler.generate cls
  split
  · rfl
  · cases result with
    | error err => rfl
    | ok nodes =>
      have hsheet : (compiler.batchedBy size).serialize nodes cls = compiler.serialize nodes cls := rfl
      simp only [hsheet]
      split
      · exact Prod.ext rfl (reviewReading_batchedBy size { p with compiler := compiler } cls)
      · split <;> rfl

theorem processEach_batchedBy (classes : List String) :
    (p.batchedBy size).processEach classes =
      ((p.processEach classes).1, (p.processEach classes).2.batchedBy size) := by
  induction classes generalizing p with
  | nil => rfl
  | cons cls rest ih => simp only [processEach, processClass_batchedBy, ih]

theorem processClasses_batchedBy (classes : List String) :
    (p.batchedBy size).processClasses classes =
      ((p.processClasses classes).1, (p.processClasses classes).2.batchedBy size) := by
  have hunseen : (p.batchedBy size).addUnseen .empty classes = p.addUnseen .empty classes := rfl
  rw [processClasses_eq, processClasses_eq, hunseen, processEach_batchedBy]

/-! ## One by one -/

theorem processEach_eq_serve (classes : List String) :
    p.processEach classes =
      ((serve processClass p classes).1.filterMap id, (serve processClass p classes).2) := by
  induction classes generalizing p with
  | nil => rfl
  | cons cls rest ih =>
    simp only [processEach, serve_cons, ih]
    cases (p.processClass cls).1 <;> rfl

theorem attempted_serve {p : Intake σ} (h : p.compiler.Coherent) (classes : List String) :
    p.Attempted classes ((serve processClass p classes).1.filterMap id)
      (serve processClass p classes).2 := by
  simpa only [processEach_eq_serve] using attempted_processEach h classes

/-! ## Any requests -/

variable [Scheduler σ]

theorem flush_batchedBy : (p.batchedBy size).flush = (p.flush.1, p.flush.2.batchedBy size) :=
  processClasses_batchedBy size (p.unqueue (Scheduler.cancel p.timer)) p.pending.toList

theorem addPending_batchedBy (now : Int) (classes : List String) :
    (p.batchedBy size).addPending now classes =
      ((p.addPending now classes).1, (p.addPending now classes).2.batchedBy size) := by
  have hqueue (timer : σ) : (p.batchedBy size).queue classes timer =
      (p.queue classes timer).batchedBy size := rfl
  have hpending : (p.batchedBy size).addUnseen (p.batchedBy size).pending classes =
      p.addUnseen p.pending classes := rfl
  have htimer : (p.batchedBy size).timer = p.timer := rfl
  have hdelay : (p.batchedBy size).compiler.config.debounceMs = p.compiler.config.debounceMs := rfl
  rw [addPending_eq, addPending_eq]
  simp only [hqueue, hpending, htimer, hdelay, flush_batchedBy]
  split
  · rfl
  · split <;> rfl

theorem perform_batchedBy (request : Request) :
    (p.batchedBy size).perform request =
      ((p.perform request).1, (p.perform request).2.batchedBy size) := by
  cases request with
  | processClass cls => simp only [perform, processClass_batchedBy]
  | processClasses classes => exact processClasses_batchedBy size p classes
  | addPending now classes => exact addPending_batchedBy size p now classes
  | poll now =>
    have htimer : (p.batchedBy size).timer = p.timer := rfl
    unfold perform poll
    simp only [htimer]
    split
    · exact flush_batchedBy size p
    · rfl
  | flush => exact flush_batchedBy size p
  | clearProcessed => rfl
  | clearCaches => rfl
  | tell command =>
    have hcompiler := p.compiler.perform_batchedBy size command
    exact Prod.ext rfl (congrArg (fun compiler => { p with compiler := compiler }) hcompiler)

theorem serve_batchedBy (requests : List Request) :
    serve perform (p.batchedBy size) requests =
      ((serve perform p requests).1, (serve perform p requests).2.batchedBy size) := by
  have hstep (q : Intake σ) (request : Request) (_ : True) :
      (q.perform request).1 = ((q.batchedBy size).perform request).1 ∧
        (q.perform request).2.batchedBy size = ((q.batchedBy size).perform request).2 ∧ True := by
    rw [perform_batchedBy]
    exact ⟨rfl, rfl, trivial⟩
  obtain ⟨hanswers, hend⟩ := serve_refines (fun _ => True) (batchedBy size) hstep trivial requests
  exact Prod.ext hanswers.symm hend.symm

/-- **The size of the batches makes no difference.** Whatever the batch size, class names that come
together give what they give when each is compiled by itself, in order, and the same class names are
processed then, in the same order. And with another batch size any requests whatsoever get the same
answers and lead to the same state, caches, counts and errors included, but for the batch size. -/
theorem processClasses_eq_oneByOne {p : Intake σ} (h : p.Reachable) (classes : List String) :
    (∀ size,
      ((p.batchedBy size).processClasses classes).1 = (serve processClass p classes).1.filterMap id ∧
      ((p.batchedBy size).processClasses classes).2.processed =
        (serve processClass p classes).2.processed) ∧
    ∀ size requests, serve perform (p.batchedBy size) requests =
      ((serve perform p requests).1, (serve perform p requests).2.batchedBy size) := by
  refine ⟨fun size => ?_, fun size requests => serve_batchedBy size p requests⟩
  have hcoherent := h.sound.coherent
  have hboth := (attempted_processClasses hcoherent classes).attempts_eq.symm.trans
    (attempted_serve hcoherent classes).attempts_eq
  rw [processClasses_batchedBy]
  exact Prod.mk.inj hboth

/-- A known class name and one that fails, each twice, with an unknown one between them. -/
def repeating : List String := ["flex", "boom", "grid", "flex", "boom"]

theorem processClasses_eq_oneByOne_repeating :
    twoRules.Reachable ∧
      ((serve processClass twoRules repeating).1.filterMap id).map (·.cls) = ["flex"] ∧
      ((twoRules.batchedBy 0).processClasses repeating).1.map (·.cls) = ["flex"] ∧
      ((twoRules.batchedBy 2).processClasses repeating).2.processed.toList = ["flex"] ∧
      (serve perform (twoRules.batchedBy 2) [.processClasses repeating]).2.failed =
        (twoRules.processClasses repeating).2.failed := by
  have hreachable : twoRules.Reachable := (Reachable.new _ _ _).perform _
  have hcoherent := hreachable.sound.coherent
  have hnew (cls : String) : twoRules.processed.contains cls = false := ClassLog.contains_empty cls
  have hnodes : twoRules.compiler.registry.compile twoRules.compiler.theme "flex" =
      .ok [.block (.rule "&") (some "flex") [.decl ⟨"display", "flex"⟩]] := rfl
  obtain ⟨out, hflex, hcls⟩ : ∃ out, twoRules.compiler.give "flex" = some out ∧ out.cls = "flex" :=
    ⟨_, Compiler.give_eq_some_iff.mpr ⟨_, hnodes, by simp, rfl, rfl⟩, rfl⟩
  have hboom : twoRules.compiler.registry.compile twoRules.compiler.theme "boom" =
      .error (.notADeclaration "boom") := rfl
  have hgrid : twoRules.compiler.registry.compile twoRules.compiler.theme "grid" = .ok [] := rfl
  have hnone : twoRules.compiler.give "boom" = none ∧ twoRules.compiler.give "grid" = none :=
    ⟨Compiler.give_of_error hboom, (Compiler.give_of_ok hgrid).trans (if_pos (.inl rfl))⟩
  have hrow : attempts twoRules.compiler.give twoRules.processed repeating =
      ([out], twoRules.processed.add "flex") := by
    simp [repeating, attempts, attempt, hnew, hflex, hnone, ClassLog.contains_add]
  obtain ⟨houts, hlog⟩ := Prod.mk.inj ((attempted_serve hcoherent repeating).attempts_eq.symm.trans hrow)
  obtain ⟨hone, hrun⟩ := processClasses_eq_oneByOne hreachable repeating
  have hserve : ((serve processClass twoRules repeating).1.filterMap id).map (·.cls) = ["flex"] := by
    rw [houts, List.map_singleton, hcls]
  refine ⟨hreachable, hserve, ?_, ?_, ?_⟩
  · rw [(hone 0).1]
    exact hserve
  · rw [(hone 2).2, hlog, ClassLog.toList_add, hnew]
    rfl
  · rw [hrun]
    rfl

end Intake
end UtilityCss
