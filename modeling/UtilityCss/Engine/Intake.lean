import Std.Data.HashSet
import UtilityCss.Engine.Compiler

/-!
# Taking in class names

The intake stands between a stream of discovered class names and a compiler. A class name that gives
a style sheet is processed once; one that does not is free to come again, since a later rule may
know it. Class names are compiled as they come, or queued until the timer is due.

A log has class names in the order in which they first came, each once, with a set of them beside the
list. A timer says when queued class names are compiled: at once, or when no further request has come for
a while. It has no clock of its own; instants are milliseconds from any origin and are told to it.
-/

namespace UtilityCss

/-! ## Logs of class names -/

structure ClassLog where
  /-- The class names in order. -/
  order : Array String
  /-- The class names as a set. -/
  members : Std.HashSet String

namespace ClassLog

def empty : ClassLog := ⟨#[], ∅⟩

def contains (log : ClassLog) (cls : String) : Bool := log.members.contains cls

/-- Put a class name at the end, unless it is there. -/
def add (log : ClassLog) (cls : String) : ClassLog :=
  if log.contains cls then log else ⟨log.order.push cls, log.members.insert cls⟩

def toList (log : ClassLog) : List String := log.order.toList

def size (log : ClassLog) : Nat := log.order.size

theorem contains_empty (cls : String) : empty.contains cls = false := by
  simp [empty, contains]

theorem contains_add (log : ClassLog) (a b : String) :
    (log.add a).contains b = (a == b || log.contains b) := by
  unfold add
  split
  · next h =>
    by_cases hab : a = b
    · subst hab; simp [h]
    · simp [hab]
  · simp [contains]

theorem toList_add (log : ClassLog) (cls : String) :
    (log.add cls).toList = if log.contains cls then log.toList else log.toList ++ [cls] := by
  unfold add
  split <;> simp [toList]

end ClassLog

/-! ## Timers -/

/-- The answer to a request. -/
inductive Schedule where
  | now
  | deferred
  deriving DecidableEq, Repr

/-- What an intake asks of a timer. A host may bring a timer of its own. -/
class Scheduler (σ : Type) where
  /-- Request a flush after a delay, in place of any request before. -/
  schedule : Int → Nat → σ → Schedule × σ
  /-- Drop the request. -/
  cancel : σ → σ
  /-- Whether the request is due. -/
  isDue : Int → σ → Bool

inductive Timer where
  /-- Every request is due at once. -/
  | immediate
  /-- A request is due at the deadline, which a further request moves. -/
  | debounced (deadline : Option Int)
  deriving DecidableEq, Repr

namespace Timer

/-- Request a flush after a delay, in place of any request before. -/
def schedule (now : Int) (delay : Nat) : Timer → Schedule × Timer
  | immediate => (.now, immediate)
  | debounced _ => (.deferred, debounced (some (now + delay)))

/-- Drop the request. -/
def cancel : Timer → Timer
  | immediate => immediate
  | debounced _ => debounced none

/-- The instant at which the request is due. -/
def deadline? : Timer → Option Int
  | immediate => none
  | debounced deadline => deadline

def isArmed (t : Timer) : Bool := t.deadline?.isSome

/-- Whether the request is due. -/
def isDue (now : Int) (t : Timer) : Bool := t.deadline?.any (· ≤ now)

instance : Scheduler Timer := ⟨schedule, cancel, isDue⟩

end Timer

/-! ## Intakes -/

/-- The output of a class name. -/
structure ProcessedClass where
  cls : String
  nodes : List Node
  sheet : Sheet
  deriving DecidableEq, Repr

/-- The state of an intake with a timer of the type `σ`. -/
structure Intake (σ : Type := Timer) where
  compiler : Compiler
  /-- The class names that gave a style sheet. -/
  processed : ClassLog
  /-- The class names that wait for a flush. -/
  pending : ClassLog
  timer : σ
  /-- The number of errors raised by rules. -/
  failed : Nat
  /-- The last of these errors. -/
  lastError : Option CompileError

namespace Intake

variable {σ : Type}

/-- An intake that has seen nothing. -/
def new (compiler : Compiler) (timer : σ) : Intake σ :=
  ⟨compiler, .empty, .empty, timer, 0, none⟩

/-- See to it that the reading of a class name that gave nothing has been looked at. -/
def reviewReading (p : Intake σ) (cls : String) : Intake σ :=
  if p.compiler.caches.parse.contains cls then p
  else { p with compiler := (p.compiler.parse cls).2 }

/-- Compile a class name, unless it is processed. -/
def processClass (p : Intake σ) (cls : String) : Option ProcessedClass × Intake σ :=
  if p.processed.contains cls then (none, p)
  else
    match p.compiler.generate cls with
    | (.error e, compiler) =>
      (none, { p with compiler := compiler, failed := p.failed + 1, lastError := some e })
    | (.ok nodes, compiler) =>
      let p := { p with compiler := compiler }
      if nodes = [] then (none, p.reviewReading cls)
      else
        let sheet := compiler.serialize nodes cls
        if sheet.isEmpty then (none, p)
        else (some ⟨cls, nodes, sheet⟩, { p with processed := p.processed.add cls })

/-- Compile class names one after the other. -/
def processEach (p : Intake σ) : List String → List ProcessedClass × Intake σ
  | [] => ([], p)
  | cls :: rest =>
    let (out, p) := p.processClass cls
    let (outs, p) := p.processEach rest
    (out.toList ++ outs, p)

/-- The list cut into batches of a size; a size of zero counts as one. -/
def batches {α : Type} (size : Nat) : List α → List (List α)
  | [] => []
  | x :: xs => (x :: xs.take (size - 1)) :: batches size (xs.drop (size - 1))
termination_by xs => xs.length
decreasing_by
  simp only [List.length_drop, List.length_cons]
  omega

theorem flatten_batches {α : Type} (size : Nat) (xs : List α) : (batches size xs).flatten = xs := by
  fun_induction batches size xs with
  | case1 => rfl
  | case2 x xs ih => simp [ih]

/-- The log with those class names added that are not processed. -/
def addUnseen (p : Intake σ) (log : ClassLog) (classes : List String) : ClassLog :=
  classes.foldl (fun log cls => if p.processed.contains cls then log else log.add cls) log

/-- Compile batches one after the other. -/
def processBatches (p : Intake σ) : List (List String) → List ProcessedClass × Intake σ
  | [] => ([], p)
  | batch :: rest =>
    let (out, p) := p.processEach batch
    let (outs, p) := p.processBatches rest
    (out ++ outs, p)

theorem processEach_append (p : Intake σ) (xs ys : List String) :
    p.processEach (xs ++ ys) =
      ((p.processEach xs).1 ++ ((p.processEach xs).2.processEach ys).1,
        ((p.processEach xs).2.processEach ys).2) := by
  induction xs generalizing p with
  | nil => rfl
  | cons x xs ih => simp only [List.cons_append, processEach, ih, List.append_assoc]

/-- Batches come to what the class names in them come to, one after the other. -/
theorem processBatches_eq (p : Intake σ) (batches : List (List String)) :
    p.processBatches batches = p.processEach batches.flatten := by
  induction batches generalizing p with
  | nil => rfl
  | cons batch rest ih => simp only [List.flatten_cons, processEach_append, processBatches, ih]

/-- Compile the class names that are not processed, each once and in order, in batches. -/
def processClasses (p : Intake σ) (classes : List String) : List ProcessedClass × Intake σ :=
  p.processBatches (batches p.compiler.config.batchSize (p.addUnseen .empty classes).toList)

theorem processClasses_eq (p : Intake σ) (classes : List String) :
    p.processClasses classes = p.processEach (p.addUnseen .empty classes).toList := by
  rw [processClasses, processBatches_eq, flatten_batches]

def clearCaches (p : Intake σ) : Intake σ := { p with compiler := p.compiler.clearCaches }

variable [Scheduler σ]

/-- Compile all pending class names. -/
def flush (p : Intake σ) : List ProcessedClass × Intake σ :=
  { p with timer := Scheduler.cancel p.timer, pending := .empty }.processClasses p.pending.toList

/-- Queue class names and request a flush, which may be due at once. -/
def addPending (p : Intake σ) (now : Int) (classes : List String) : List ProcessedClass × Intake σ :=
  let p := { p with pending := p.addUnseen p.pending classes }
  if p.pending.size = 0 then ([], p)
  else
    match Scheduler.schedule now p.compiler.config.debounceMs p.timer with
    | (.now, timer) => { p with timer := timer }.flush
    | (.deferred, timer) => ([], { p with timer := timer })

/-- Compile all pending class names if the flush is due. -/
def poll (p : Intake σ) (now : Int) : List ProcessedClass × Intake σ :=
  if Scheduler.isDue now p.timer then p.flush else ([], p)

/-- Forget processed and pending class names, and drop the request. -/
def clearProcessed (p : Intake σ) : Intake σ :=
  { p with timer := Scheduler.cancel p.timer, processed := .empty, pending := .empty }

end Intake
end UtilityCss
