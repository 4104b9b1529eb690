import UtilityCss.Engine.Intake

/-!
# Attempts at class names

Class names are attempted one after the other. One that is processed is passed over, one that gives
something is processed from then on, and one that gives nothing leaves no trace. Here what a class name
gives is a function `give` of the class name alone, and the only state is the log of the processed ones.

A class name that has been attempted once is settled: another attempt gives nothing and changes nothing
(`settled_of_mem`). So repeated class names can be left out beforehand, and a log of unseen class names
gives what the class names that were put into it give (`attempts_addUnseen`).
-/

namespace UtilityCss

/-! ## Logs -/

namespace ClassLog

/-- The list and the set of a log have the same class names, each once. -/
structure Faithful (log : ClassLog) : Prop where
  mem_iff : ∀ cls, cls ∈ log.toList ↔ log.contains cls = true
  nodup : log.toList.Nodup

theorem toList_empty : empty.toList = [] := rfl

theorem faithful_empty : empty.Faithful where
  mem_iff cls := by simp [toList_empty, contains_empty]
  nodup := by simp [toList_empty]

theorem Faithful.add {log : ClassLog} (h : log.Faithful) (cls : String) : (log.add cls).Faithful := by
  by_cases hcls : log.contains cls
  · rwa [ClassLog.add, if_pos hcls]
  · refine ⟨fun other => ?_, ?_⟩
    · rw [toList_add, if_neg hcls, contains_add, List.mem_append, List.mem_singleton, h.mem_iff,
        Bool.or_eq_true, beq_iff_eq, or_comm, @eq_comm _ other cls]
    · rw [toList_add, if_neg hcls, List.nodup_append]
      refine ⟨h.nodup, by simp, fun a ha b hb => ?_⟩
      obtain rfl := List.mem_singleton.mp hb
      rintro rfl
      exact hcls ((h.mem_iff a).mp ha)

theorem size_eq_zero_iff {log : ClassLog} : log.size = 0 ↔ log.toList = [] := by
  simp [size, toList]

end ClassLog

/-! ## Attempts -/

/-- What an attempt at a class name gives, and the log after it. -/
def attempt (give : String → Option ProcessedClass) (done : ClassLog) (cls : String) :
    Option ProcessedClass × ClassLog :=
  if done.contains cls then (none, done)
  else
    match give cls with
    | some out => (some out, done.add cls)
    | none => (none, done)

/-- Attempts at class names one after the other. -/
def attempts (give : String → Option ProcessedClass) (done : ClassLog) :
    List String → List ProcessedClass × ClassLog
  | [] => ([], done)
  | cls :: rest =>
    let (out, done) := attempt give done cls
    let (outs, done) := attempts give done rest
    (out.toList ++ outs, done)

variable {give : String → Option ProcessedClass} {done : ClassLog} {cls : String}

theorem attempts_cons (give : String → Option ProcessedClass) (done : ClassLog) (cls : String)
    (rest : List String) :
    attempts give done (cls :: rest) =
      ((attempt give done cls).1.toList ++ (attempts give (attempt give done cls).2 rest).1,
        (attempts give (attempt give done cls).2 rest).2) := rfl

theorem attempts_append (give : String → Option ProcessedClass) (done : ClassLog)
    (xs ys : List String) :
    attempts give done (xs ++ ys) =
      ((attempts give done xs).1 ++ (attempts give (attempts give done xs).2 ys).1,
        (attempts give (attempts give done xs).2 ys).2) := by
  induction xs generalizing done with
  | nil => rfl
  | cons x xs ih => rw [List.cons_append, attempts_cons, ih, attempts_cons, List.append_assoc]

theorem faithful_attempt (h : done.Faithful) (cls : String) : (attempt give done cls).2.Faithful := by
  unfold attempt
  split
  · exact h
  · split
    · exact h.add cls
    · exact h

theorem faithful_attempts (h : done.Faithful) (classes : List String) :
    (attempts give done classes).2.Faithful := by
  induction classes generalizing done with
  | nil => exact h
  | cons cls rest ih => exact ih (faithful_attempt h cls)

theorem contains_of_contains_attempts {classes : List String}
    (h : (attempts give done classes).2.contains cls = true) :
    done.contains cls = true ∨ cls ∈ classes := by
  induction classes generalizing done with
  | nil => exact .inl h
  | cons first rest ih =>
    rw [attempts_cons] at h
    rcases ih h with hfirst | hrest
    · unfold attempt at hfirst
      split at hfirst
      · exact .inl hfirst
      · split at hfirst
        · rw [ClassLog.contains_add, Bool.or_eq_true, beq_iff_eq] at hfirst
          rcases hfirst with rfl | hdone
          · exact .inr List.mem_cons_self
          · exact .inl hdone
        · exact .inl hfirst
    · exact .inr (List.mem_cons_of_mem _ hrest)

/-! ## Settled class names -/

/-- An attempt at the class name gives nothing and changes nothing. -/
def Settled (give : String → Option ProcessedClass) (done : ClassLog) (cls : String) : Prop :=
  attempt give done cls = (none, done)

theorem settled_iff : Settled give done cls ↔ done.contains cls = true ∨ give cls = none := by
  unfold Settled attempt
  split
  · next h => simp [h]
  · next h => cases hgive : give cls <;> simp [h]

theorem settled_attempt (give : String → Option ProcessedClass) (done : ClassLog) (cls : String) :
    Settled give (attempt give done cls).2 cls := by
  rw [settled_iff]
  unfold attempt
  split
  · next h => exact .inl h
  · cases hgive : give cls with
    | none => exact .inr rfl
    | some out => exact .inl (by simp [ClassLog.contains_add])

theorem Settled.attempt (h : Settled give done cls) (other : String) :
    Settled give (attempt give done other).2 cls := by
  rw [settled_iff] at h ⊢
  unfold UtilityCss.attempt
  split
  · exact h
  · cases hgive : give other with
    | none => exact h
    | some out =>
      refine h.imp_left fun hcls => ?_
      simp [ClassLog.contains_add, hcls]

theorem Settled.attempts (h : Settled give done cls) (classes : List String) :
    Settled give (attempts give done classes).2 cls := by
  induction classes generalizing done with
  | nil => exact h
  | cons other rest ih => exact ih (h.attempt other)

/-- A class name is settled once it has been attempted. -/
theorem settled_of_mem {classes : List String} (h : cls ∈ classes) :
    Settled give (attempts give done classes).2 cls := by
  induction classes generalizing done with
  | nil => cases h
  | cons other rest ih =>
    cases h with
    | head => exact (settled_attempt give done cls).attempts rest
    | tail _ hrest => exact ih hrest

theorem attempts_of_settled {xs : List String} (h : Settled give (attempts give done xs).2 cls)
    (ys : List String) : attempts give done (xs ++ cls :: ys) = attempts give done (xs ++ ys) := by
  rw [attempts_append, attempts_append, attempts_cons, h]
  rfl

/-! ## Unseen class names -/

variable {σ : Type} {p : Intake σ}

theorem faithful_addUnseen {log : ClassLog} (h : log.Faithful) (classes : List String) :
    (p.addUnseen log classes).Faithful := by
  unfold Intake.addUnseen
  induction classes generalizing log with
  | nil => exact h
  | cons cls rest ih =>
    rw [List.foldl_cons]
    split
    · exact ih h
    · exact ih (h.add cls)

theorem addUnseen_cons (log : ClassLog) (cls : String) (rest : List String) :
    p.addUnseen log (cls :: rest) =
      p.addUnseen (if p.processed.contains cls then log else log.add cls) rest := rfl

theorem toList_addUnseen_eq_nil_iff {log : ClassLog} (h : log.Faithful) {classes : List String} :
    (p.addUnseen log classes).toList = [] ↔
      log.toList = [] ∧ ∀ cls ∈ classes, p.processed.contains cls = true := by
  induction classes generalizing log with
  | nil => simp [Intake.addUnseen]
  | cons cls rest ih =>
    rw [addUnseen_cons, List.forall_mem_cons]
    split
    · next hprocessed => simp [ih h, hprocessed]
    · next hprocessed =>
      have hne : (log.add cls).toList ≠ [] := by
        refine List.ne_nil_of_mem ((h.add cls).mem_iff cls |>.mpr ?_)
        simp [ClassLog.contains_add]
      simp [ih (h.add cls), hne, hprocessed]

theorem toList_addUnseen_of_nodup {log : ClassLog} {classes : List String} (hnodup : classes.Nodup)
    (hnew : ∀ cls ∈ classes, log.contains cls = false) :
    (p.addUnseen log classes).toList =
      log.toList ++ classes.filter fun cls => !p.processed.contains cls := by
  induction classes generalizing log with
  | nil => simp [Intake.addUnseen]
  | cons cls rest ih =>
    obtain ⟨hcls, hrest⟩ := List.nodup_cons.mp hnodup
    obtain ⟨hfirst, hlater⟩ := List.forall_mem_cons.mp hnew
    rw [addUnseen_cons]
    split
    · next hprocessed => simp [ih hrest hlater, hprocessed]
    · next hprocessed =>
      have hlater' : ∀ other ∈ rest, (log.add cls).contains other = false := by
        intro other hother
        have hne : cls ≠ other := fun heq => hcls (heq ▸ hother)
        simp [ClassLog.contains_add, hne, hlater other hother]
      simp [ih hrest hlater', ClassLog.toList_add, hfirst, hprocessed]

/-- A log to which unseen class names were added gives what it gave, and then what they give. -/
theorem attempts_addUnseen {log : ClassLog} (h : log.Faithful) (classes : List String) :
    attempts give p.processed (p.addUnseen log classes).toList =
      attempts give p.processed (log.toList ++ classes) := by
  unfold Intake.addUnseen
  induction classes generalizing log with
  | nil => simp
  | cons cls rest ih =>
    rw [List.foldl_cons]
    by_cases hprocessed : p.processed.contains cls
    -- A class name that is left out is settled: by the log at the start, or by its first occurrence.
    · have hsettled : Settled give p.processed cls := settled_iff.mpr (.inl hprocessed)
      rw [if_pos hprocessed, ih h, attempts_of_settled (hsettled.attempts log.toList)]
    · rw [if_neg hprocessed, ih (h.add cls), ClassLog.toList_add]
      split
      · next hseen =>
        rw [attempts_of_settled (settled_of_mem ((h.mem_iff cls).mpr hseen))]
      · rw [List.append_assoc, List.singleton_append]

end UtilityCss
