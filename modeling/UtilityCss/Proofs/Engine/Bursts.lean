import UtilityCss.Proofs.Engine.Requests

/-!
# When class names are compiled makes no difference

Class names arrive in bursts. An immediate timer has each burst compiled as it comes, a debounced one has
bursts wait for each other until a poll finds them due. Either way the outputs are those of all the class
names compiled at once, in the same order (`feed_eq_processClasses`).

What carries the proof is what an intake owes (`Intake.owed`): the outputs of the class names that are
pending, and then of those that are still to come. Queueing class names changes nothing in it, and
compiling the pending ones takes its first part out.
-/

namespace UtilityCss

/-- What happens to an intake while class names arrive. -/
inductive Arrival where
  | burst (now : Int) (classes : List String)
  | poll (now : Int)

def Arrival.classes : Arrival → List String
  | burst _ classes => classes
  | poll _ => []

namespace Intake

variable {σ : Type} {p : Intake σ}

def withTimer {τ : Type} (p : Intake σ) (timer : τ) : Intake τ :=
  ⟨p.compiler, p.processed, p.pending, timer, p.failed, p.lastError⟩

/-- The outputs of the pending class names and of some more behind them, and the class names that are
processed then. -/
def owed (p : Intake σ) (more : List String) : List ProcessedClass × ClassLog :=
  attempts p.compiler.give p.processed (p.pending.toList ++ more)

theorem Sound.withTimer {τ : Type} (h : p.Sound) (timer : τ) : (p.withTimer timer).Sound :=
  ⟨h.coherent, h.processed, h.pending⟩

theorem owed_nil (h : p.pending.toList = []) : p.owed [] = ([], p.processed) := by
  rw [owed, h]
  rfl

theorem owed_eq_processClasses (h : p.Sound) (hpending : p.pending.toList = [])
    (classes : List String) :
    p.owed classes = ((p.processClasses classes).1, (p.processClasses classes).2.processed) := by
  rw [owed, hpending, List.nil_append]
  exact (attempted_processClasses h.coherent classes).attempts_eq

theorem owed_queue (h : p.Sound) (classes : List String) (timer : σ) (more : List String) :
    (p.queue classes timer).owed more = p.owed (classes ++ more) := by
  -- What was not queued is processed or pending already, and gives nothing again.
  show attempts p.compiler.give p.processed ((p.addUnseen p.pending classes).toList ++ more) = _
  rw [owed, attempts_append, attempts_addUnseen h.pending, ← attempts_append, List.append_assoc]

variable [Scheduler σ]

theorem pending_flush (h : p.Sound) : p.flush.2.pending.toList = [] := by
  rw [(attempted_flush h.coherent).pending]
  rfl

theorem owed_flush (h : p.Sound) (more : List String) :
    p.owed more = (p.flush.1 ++ (p.flush.2.owed more).1, (p.flush.2.owed more).2) := by
  have hflush := attempted_flush h.coherent
  have hattempts : attempts p.compiler.give p.processed p.pending.toList =
      (p.flush.1, p.flush.2.processed) := hflush.attempts_eq
  have hgive : p.flush.2.compiler.give = p.compiler.give := hflush.recalls.give_eq
  rw [owed, attempts_append, hattempts, owed, hgive, pending_flush h, List.nil_append]

/-! ## Arrivals -/

def take (p : Intake σ) : Arrival → List ProcessedClass × Intake σ
  | .burst now classes => p.addPending now classes
  | .poll now => p.poll now

/-- Take in one arrival after the other. -/
def feed (p : Intake σ) (arrivals : List Arrival) : List ProcessedClass × Intake σ :=
  ((serve take p arrivals).1.flatten, (serve take p arrivals).2)

theorem Sound.take (h : p.Sound) (arrival : Arrival) : (p.take arrival).2.Sound := by
  cases arrival with
  | burst now classes => exact h.addPending now classes
  | poll now => exact h.poll now

theorem Sound.feed (h : p.Sound) (arrivals : List Arrival) : (p.feed arrivals).2.Sound :=
  serve_keeps Sound (fun _ arrival hp => hp.take arrival) h arrivals

theorem owed_take (h : p.Sound) (arrival : Arrival) (more : List String) :
    p.owed (arrival.classes ++ more) =
      ((p.take arrival).1 ++ ((p.take arrival).2.owed more).1, ((p.take arrival).2.owed more).2) := by
  cases arrival with
  | burst now classes =>
    obtain ⟨timer, heq | heq⟩ := addPending_cases p now classes
    · rw [Intake.take, heq, owed_queue h]
      rfl
    · rw [Intake.take, heq, ← owed_flush (h.queue classes timer), owed_queue h]
      rfl
  | poll now =>
    obtain heq | heq := poll_cases p now
    · rw [Intake.take, heq]
      rfl
    · rw [Intake.take, heq, ← owed_flush h]
      rfl

theorem owed_feed (h : p.Sound) (arrivals : List Arrival) (more : List String) :
    p.owed (arrivals.flatMap Arrival.classes ++ more) =
      ((p.feed arrivals).1 ++ ((p.feed arrivals).2.owed more).1,
        ((p.feed arrivals).2.owed more).2) := by
  induction arrivals generalizing p with
  | nil => rfl
  | cons arrival rest ih =>
    rw [List.flatMap_cons, List.append_assoc, owed_take h, ih (h.take arrival), ← List.append_assoc]
    rfl

theorem owed_eq_feed_flush (h : p.Sound) (arrivals : List Arrival) :
    p.owed (arrivals.flatMap Arrival.classes) =
      ((p.feed arrivals).1 ++ (p.feed arrivals).2.flush.1,
        (p.feed arrivals).2.flush.2.processed) := by
  have hend := h.feed arrivals
  have howed := owed_feed h arrivals []
  rwa [List.append_nil, owed_flush hend, owed_nil (pending_flush hend), List.append_nil] at howed

/-! ## An immediate timer -/

theorem pending_take_immediate {p : Intake} (h : p.Sound) (htimer : p.timer = .immediate)
    (hpending : p.pending.toList = []) (arrival : Arrival) :
    (p.take arrival).2.timer = .immediate ∧ (p.take arrival).2.pending.toList = [] := by
  cases arrival with
  | burst now classes =>
    unfold take addPending
    dsimp only
    rw [htimer]
    -- Either nothing new has come, or the answer of the timer is to flush now.
    split
    · next hsize => exact ⟨rfl, ClassLog.size_eq_zero_iff.mp hsize⟩
    · have hqueue : (p.queue classes .immediate).Sound := h.queue classes .immediate
      exact ⟨(attempted_flush hqueue.coherent).timer, pending_flush hqueue⟩
  | poll now =>
    have hidle : p.take (.poll now) = ([], p) := by
      unfold take poll
      rw [htimer]
      rfl
    rw [hidle]
    exact ⟨htimer, hpending⟩

theorem pending_feed_immediate {p : Intake} (h : p.Sound) (htimer : p.timer = .immediate)
    (hpending : p.pending.toList = []) (arrivals : List Arrival) :
    (p.feed arrivals).2.pending.toList = [] := by
  have hkept := serve_keeps
    (fun q : Intake => q.Sound ∧ q.timer = .immediate ∧ q.pending.toList = [])
    (fun _ arrival hq => ⟨hq.1.take arrival, pending_take_immediate hq.1 hq.2.1 hq.2.2 arrival⟩)
    ⟨h, htimer, hpending⟩ arrivals
  exact hkept.2.2

theorem owed_eq_feed_immediate {p : Intake} (h : p.Sound) (htimer : p.timer = .immediate)
    (hpending : p.pending.toList = []) (arrivals : List Arrival) :
    p.owed (arrivals.flatMap Arrival.classes) =
      ((p.feed arrivals).1, (p.feed arrivals).2.processed) := by
  have howed := owed_feed h arrivals []
  rwa [List.append_nil, owed_nil (pending_feed_immediate h htimer hpending arrivals),
    List.append_nil] at howed

/-- **When class names are compiled makes no difference.** With nothing pending at first, let the same
class names arrive at an intake with an immediate timer and at one with a debounced timer, in whatever
bursts and with whatever polls, and let the latter be flushed at the end. Both give the outputs of all
these class names compiled at once, in the same order, and the same class names are processed then. -/
theorem feed_eq_processClasses (h : p.Reachable) (hpending : p.pending.toList = [])
    (deadline : Option Int) {early late : List Arrival} {classes : List String}
    (hearly : early.flatMap Arrival.classes = classes)
    (hlate : late.flatMap Arrival.classes = classes) :
    ((p.withTimer Timer.immediate).feed early).1 = (p.processClasses classes).1 ∧
    ((p.withTimer Timer.immediate).feed early).2.processed =
      (p.processClasses classes).2.processed ∧
    ((p.withTimer (Timer.debounced deadline)).feed late).1 ++
        ((p.withTimer (Timer.debounced deadline)).feed late).2.flush.1 =
      (p.processClasses classes).1 ∧
    ((p.withTimer (Timer.debounced deadline)).feed late).2.flush.2.processed =
      (p.processClasses classes).2.processed := by
  have hwhole := owed_eq_processClasses h.sound hpending classes
  have hnow := owed_eq_feed_immediate (h.sound.withTimer Timer.immediate) rfl hpending early
  have hlater := owed_eq_feed_flush (h.sound.withTimer (Timer.debounced deadline)) late
  rw [hearly] at hnow
  rw [hlate] at hlater
  -- What is owed does not depend on the timer.
  obtain ⟨houts, hprocessed⟩ := Prod.ext_iff.mp (hnow.symm.trans hwhole)
  obtain ⟨houts', hprocessed'⟩ := Prod.ext_iff.mp (hlater.symm.trans hwhole)
  exact ⟨houts, hprocessed, houts', hprocessed'⟩

/-- An unknown class name and a processed one come again, and one poll is due. -/
theorem feed_eq_processClasses_flexOnly :
    flexOnly.Reachable ∧ flexOnly.pending.toList = [] ∧
      ((flexOnly.withTimer Timer.immediate).feed
        [.burst 0 ["flex", "grid"], .burst 30 ["grid", "flex"]]).1.map (·.cls) = ["flex"] ∧
      (((flexOnly.withTimer (Timer.debounced none)).feed
          [.burst 0 ["flex"], .burst 9 ["grid"], .poll 20, .poll 25, .burst 30 ["grid", "flex"]]).1 ++
        ((flexOnly.withTimer (Timer.debounced none)).feed
          [.burst 0 ["flex"], .burst 9 ["grid"], .poll 20, .poll 25,
            .burst 30 ["grid", "flex"]]).2.flush.1).map (·.cls) = ["flex"] := by
  have hreachable : flexOnly.Reachable := Reachable.new _ _ _
  obtain ⟨out, hflex, hcls⟩ := exists_give_flexOnly
  have hnew (cls : String) : flexOnly.processed.contains cls = false := ClassLog.contains_empty cls
  have hwhole : (flexOnly.processClasses ["flex", "grid", "grid", "flex"]).1.map (·.cls) =
      ["flex"] := by
    rw [← congrArg Prod.fst (attempted_processClasses hreachable.sound.coherent _).attempts_eq]
    simp [attempts, attempt, hnew, hflex, hcls, give_flexOnly_grid, ClassLog.contains_add]
  have hsame := feed_eq_processClasses hreachable rfl none
    (rfl : ([.burst 0 ["flex", "grid"], .burst 30 ["grid", "flex"]] : List Arrival).flatMap
      Arrival.classes = _)
    (rfl : ([.burst 0 ["flex"], .burst 9 ["grid"], .poll 20, .poll 25,
      .burst 30 ["grid", "flex"]] : List Arrival).flatMap Arrival.classes = _)
  refine ⟨hreachable, rfl, ?_, ?_⟩
  · rw [hsame.1]
    exact hwhole
  · rw [hsame.2.2.1]
    exact hwhole

end Intake
end UtilityCss
