import UtilityCss.Proofs.Engine.BatchSize

/-!
# Queued class names are compiled in time

A debounced timer waits for a quiet window: class names are queued, every request that leaves some pending
moves the deadline, and a poll at the deadline or behind it compiles them. Class names come and go by many
ways in the meantime, but a flush is armed exactly while some are pending, and its deadline is the window
behind the last request that asked for it (`serve_debounced`). So no class name waits forever, none is
compiled early, and a due poll attempts each pending one that is still unprocessed once.

The invariant is `Awaits`, which ties the timer to the queue and to the instant `asked` of that request. A
request does one of three things to both (`perform_cases`): it leaves them alone, empties them, or asks.
-/

namespace UtilityCss

theorem Compiler.config_perform (c : Compiler) (command : Command) :
    (c.perform command).2.config = c.config := by
  cases command <;> rfl

theorem Compiler.config_serve (c : Compiler) (commands : List Command) :
    (serve perform c commands).2.config = c.config :=
  serve_keeps (fun later : Compiler => later.config = c.config)
    (fun later command h => (later.config_perform command).trans h) rfl commands

namespace Intake

/-! ## Asking the timer -/

section asking

variable {σ : Type} [Scheduler σ] {p : Intake σ}

/-- The instant at which a request asks for a flush: class names are added, and some are pending then. -/
def asks (p : Intake σ) : Request → Option Int
  | .addPending now classes =>
    if p.pending.toList = [] ∧ ∀ cls ∈ classes, p.processed.contains cls = true then none
    else some now
  | _ => none

/-- The instant of the last request of a run that asks for a flush. -/
def lastAsked (p : Intake σ) : List Request → Option Int
  | [] => none
  | request :: rest => ((p.perform request).2.lastAsked rest).or (p.asks request)

theorem config_perform (h : p.Sound) (request : Request) :
    (p.perform request).2.compiler.config = p.compiler.config := by
  cases request with
  | processClass cls => exact (attempted_processClass h.coherent cls).recalls.config
  | processClasses classes => exact (attempted_processClasses h.coherent classes).recalls.config
  | addPending now classes =>
    obtain ⟨timer, heq | heq⟩ := addPending_cases p now classes
    · rw [perform, heq]
      rfl
    · rw [perform, heq]
      exact (attempted_flush (h.queue classes timer).coherent).recalls.config
  | poll now =>
    obtain heq | heq := poll_cases p now
    · rw [perform, heq]
    · rw [perform, heq]
      exact (attempted_flush h.coherent).recalls.config
  | flush => exact (attempted_flush h.coherent).recalls.config
  | clearProcessed => rfl
  | clearCaches => rfl
  | tell command => exact p.compiler.config_perform command

end asking

/-! ## One request -/

variable {p : Intake}

theorem flush_debounced (h : p.Sound) {deadline : Option Int} (htimer : p.timer = .debounced deadline) :
    p.flush.2.pending.toList = [] ∧ p.flush.2.timer = .debounced none := by
  have hflush := attempted_flush h.coherent
  refine ⟨?_, ?_⟩
  · rw [hflush.pending]
    rfl
  · rw [hflush.timer]
    show Scheduler.cancel p.timer = _
    rw [htimer]
    rfl

theorem addPending_debounced (h : p.Sound) {deadline : Option Int}
    (htimer : p.timer = .debounced deadline) (now : Int) (classes : List String) :
    p.asks (.addPending now classes) = none ∧ p.pending.toList = [] ∧
        (p.addUnseen p.pending classes).toList = [] ∧
        p.addPending now classes = ([], p.queue classes p.timer) ∨
      p.asks (.addPending now classes) = some now ∧
        (p.addUnseen p.pending classes).toList ≠ [] ∧
        p.addPending now classes = ([], p.queue classes
          (.debounced (some (now + p.compiler.config.debounceMs)))) := by
  have hnil : (p.addUnseen p.pending classes).toList = [] ↔
      p.pending.toList = [] ∧ ∀ cls ∈ classes, p.processed.contains cls = true :=
    toList_addUnseen_eq_nil_iff h.pending
  rw [addPending_eq]
  by_cases hidle : p.pending.toList = [] ∧ ∀ cls ∈ classes, p.processed.contains cls = true
  · have hempty := hnil.mpr hidle
    rw [if_pos (ClassLog.size_eq_zero_iff.mpr hempty)]
    exact .inl ⟨if_pos hidle, hidle.1, hempty, rfl⟩
  · have hne := mt hnil.mp hidle
    rw [if_neg (mt ClassLog.size_eq_zero_iff.mp hne), htimer]
    exact .inr ⟨if_neg hidle, hne, rfl⟩

/-- What a request does to the queue and the timer, and whether it asks for a flush. -/
theorem perform_cases (h : p.Sound) {deadline : Option Int} (htimer : p.timer = .debounced deadline)
    (request : Request) :
    (p.asks request = none ∧ (p.perform request).2.pending.toList = p.pending.toList ∧
      (p.perform request).2.timer = p.timer) ∨
    (p.asks request = none ∧ (p.perform request).2.pending.toList = [] ∧
      (p.perform request).2.timer = .debounced none) ∨
    ∃ now : Int, p.asks request = some now ∧ (p.perform request).2.pending.toList ≠ [] ∧
      (p.perform request).2.timer = .debounced (some (now + p.compiler.config.debounceMs)) := by
  cases request with
  | processClass cls =>
    have hone := attempted_processClass h.coherent cls
    exact .inl ⟨rfl, congrArg ClassLog.toList hone.pending, hone.timer⟩
  | processClasses classes =>
    have hall := attempted_processClasses h.coherent classes
    exact .inl ⟨rfl, congrArg ClassLog.toList hall.pending, hall.timer⟩
  | addPending now classes =>
    obtain ⟨hasks, hpending, hempty, heq⟩ | ⟨hasks, hne, heq⟩ :=
      addPending_debounced h htimer now classes
    · rw [perform, heq]
      exact .inl ⟨hasks, hempty.trans hpending.symm, rfl⟩
    · rw [perform, heq]
      exact .inr (.inr ⟨now, hasks, hne, rfl⟩)
  | poll now =>
    obtain heq | heq := poll_cases p now
    · rw [perform, heq]
      exact .inl ⟨rfl, rfl, rfl⟩
    · rw [perform, heq]
      exact .inr (.inl ⟨rfl, flush_debounced h htimer⟩)
  | flush => exact .inr (.inl ⟨rfl, flush_debounced h htimer⟩)
  | clearProcessed =>
    refine .inr (.inl ⟨rfl, rfl, ?_⟩)
    show Scheduler.cancel p.timer = _
    rw [htimer]
    rfl
  | clearCaches => exact .inl ⟨rfl, rfl, rfl⟩
  | tell command => exact .inl ⟨rfl, rfl, rfl⟩

/-! ## Runs -/

/-- The timer is armed exactly while class names are pending, for the window behind the instant at which
it was asked last. -/
structure Awaits (p : Intake) (asked : Option Int) : Prop where
  timer_eq : p.timer = .debounced (if p.pending.toList = [] then none
    else asked.map fun now => now + p.compiler.config.debounceMs)
  isSome : p.pending.toList ≠ [] → asked.isSome = true

theorem awaits_new (c : Compiler) : Awaits (.new c (.debounced none)) none := ⟨rfl, fun h => absurd rfl h⟩

theorem Awaits.isArmed_iff {asked : Option Int} (h : p.Awaits asked) :
    p.timer.isArmed = true ↔ p.pending.toList ≠ [] := by
  rw [h.timer_eq]
  by_cases hpending : p.pending.toList = []
  · simp [hpending, Timer.isArmed, Timer.deadline?]
  · simp [hpending, Timer.isArmed, Timer.deadline?, h.isSome hpending]

theorem Awaits.perform {asked : Option Int} (h : p.Sound) (hp : p.Awaits asked) (request : Request) :
    (p.perform request).2.Awaits ((p.asks request).or asked) := by
  have hconfig := config_perform h request
  obtain ⟨hasks, hpending, htimer⟩ | ⟨hasks, hpending, htimer⟩ | ⟨now, hasks, hpending, htimer⟩ :=
    perform_cases h hp.timer_eq request
  · rw [hasks, Option.none_or]
    refine ⟨?_, fun hne => hp.isSome (hpending ▸ hne)⟩
    rw [htimer, hpending, hconfig]
    exact hp.timer_eq
  · exact ⟨by rw [htimer, if_pos hpending], fun hne => absurd hpending hne⟩
  · rw [hasks, Option.some_or]
    refine ⟨?_, fun _ => rfl⟩
    rw [htimer, if_neg hpending, hconfig]
    rfl

theorem Awaits.serve {asked : Option Int} (h : p.Sound) (hp : p.Awaits asked)
    (requests : List Request) :
    (serve Intake.perform p requests).2.Awaits ((p.lastAsked requests).or asked) := by
  induction requests generalizing p asked with
  | nil => exact hp
  | cons request rest ih =>
    have hrest := ih (h.perform request) (hp.perform h request)
    rwa [← Option.or_assoc] at hrest

/-! ## Polls -/

/-- The pending class names that are not processed, in order. -/
def unprocessed (p : Intake) : List String :=
  p.pending.toList.filter fun cls => !p.processed.contains cls

theorem flush_eq_serve (h : p.Sound) :
    p.flush = ((serve processClass (p.unqueue p.timer.cancel) p.unprocessed).1.filterMap id,
      (serve processClass (p.unqueue p.timer.cancel) p.unprocessed).2) := by
  have hunseen : ((p.unqueue p.timer.cancel).addUnseen .empty p.pending.toList).toList =
      p.unprocessed :=
    toList_addUnseen_of_nodup h.pending.nodup fun cls _ => ClassLog.contains_empty cls
  show (p.unqueue p.timer.cancel).processClasses p.pending.toList = _
  rw [processClasses_eq, hunseen, processEach_eq_serve]

theorem not_processed_of_unprocessed (h : p.Sound) (timer : Timer) {before after : List String}
    {cls : String} (hsplit : p.unprocessed = before ++ cls :: after) :
    (serve processClass (p.unqueue timer) before).2.processed.contains cls = false := by
  have hnodup : (before ++ cls :: after).Nodup := hsplit ▸ h.pending.nodup.filter _
  have hmem : cls ∈ p.unprocessed := by simp [hsplit]
  have hcls : p.processed.contains cls = false := by simpa using (List.mem_filter.mp hmem).2
  have hattempts := (attempted_serve (p := p.unqueue timer) h.coherent before).attempts_eq
  have hlog := congrArg Prod.snd hattempts
  dsimp only at hlog
  rw [← hlog, Bool.eq_false_iff]
  intro hdone
  obtain hold | hbefore := contains_of_contains_attempts hdone
  · exact Bool.eq_false_iff.mp hcls hold
  · exact (List.nodup_append.mp hnodup).2.2 cls hbefore cls List.mem_cons_self rfl

theorem poll_of_lt {now : Int} (h : ∀ deadline, p.timer.deadline? = some deadline → now < deadline) :
    p.poll now = ([], p) := by
  refine if_neg ?_
  show ¬ p.timer.deadline?.any (fun deadline => decide (deadline ≤ now)) = true
  intro hdue
  obtain ⟨deadline, hdeadline, hle⟩ := (Option.any_eq_true _ _).mp hdue
  have hlt := h deadline hdeadline
  have hle := of_decide_eq_true hle
  omega

theorem poll_of_le {now deadline : Int} (h : p.timer.deadline? = some deadline) (hle : deadline ≤ now) :
    p.poll now = p.flush := by
  refine if_pos ?_
  show p.timer.deadline?.any (fun deadline => decide (deadline ≤ now)) = true
  simp [h, hle]

/-- **Class names that wait are compiled in time.** Take a new intake with a debounced timer, and make any
requests of it. The pending class names come once each, and a flush is armed exactly if there are any, for
the window behind the last request that asked for it. A poll before this instant gives nothing and changes
nothing. A poll at this instant or later attempts the pending class names that are not processed, each once
and in order, and none of them is processed before its turn; then nothing is pending or armed. -/
theorem serve_debounced (config : Config) (commands : List Command) (requests : List Request) :
    let start : Intake := .new (serve Compiler.perform (Compiler.new config) commands).2 (.debounced none)
    let p := (serve perform start requests).2
    p.pending.Faithful ∧
    (p.timer.isArmed = true ↔ p.pending.toList ≠ []) ∧
    p.timer.deadline? = (if p.pending.toList = [] then none
      else (start.lastAsked requests).map fun asked => asked + (config.debounceMs : Int)) ∧
    (∀ now, (∀ deadline, p.timer.deadline? = some deadline → now < deadline) →
      p.poll now = ([], p)) ∧
    ∀ now deadline, p.timer.deadline? = some deadline → deadline ≤ now →
      p.poll now = ((serve processClass (p.unqueue (.debounced none)) p.unprocessed).1.filterMap id,
        (serve processClass (p.unqueue (.debounced none)) p.unprocessed).2) ∧
      p.unprocessed.Nodup ∧
      (∀ before cls after, p.unprocessed = before ++ cls :: after →
        (serve processClass (p.unqueue (.debounced none)) before).2.processed.contains cls = false) ∧
      (p.poll now).2.pending.toList = [] ∧ (p.poll now).2.timer.isArmed = false := by
  intro start p
  have hstart : start.Sound := (Reachable.new config commands _).sound
  have hconfig : start.compiler.config = config := Compiler.config_serve _ commands
  obtain ⟨hsound, hkept⟩ : p.Sound ∧ p.compiler.config = start.compiler.config :=
    serve_keeps (fun q : Intake => q.Sound ∧ q.compiler.config = start.compiler.config)
      (fun q request hq => ⟨hq.1.perform request, (config_perform hq.1 request).trans hq.2⟩)
      ⟨hstart, rfl⟩ requests
  have hawaits : p.Awaits (start.lastAsked requests) := by
    have hrun := (awaits_new _).serve hstart requests
    rwa [Option.or_none] at hrun
  refine ⟨hsound.pending, hawaits.isArmed_iff, ?_, fun now => poll_of_lt, fun now deadline hdeadline hle => ?_⟩
  · rw [hawaits.timer_eq, hkept, hconfig]
    rfl
  · obtain ⟨hpending, htimer⟩ := flush_debounced hsound hawaits.timer_eq
    have hcancel : p.timer.cancel = .debounced none := by
      rw [hawaits.timer_eq]
      rfl
    rw [poll_of_le hdeadline hle, htimer]
    refine ⟨?_, hsound.pending.nodup.filter _, fun before cls after hsplit =>
      not_processed_of_unprocessed hsound _ hsplit, hpending, rfl⟩
    rw [flush_eq_serve hsound, hcancel]

/-- A new intake with a debounced timer that knows `flex` alone. -/
def flexLater : Intake :=
  .new (serve Compiler.perform (Compiler.new {}) [.addUtility (.fixed "flex" [⟨"display", "flex"⟩])]).2
    (.debounced none)

/-- Two class names are queued, one of them is compiled in the meantime, and it comes again. -/
def waiting : List Request :=
  [.addPending 0 ["flex", "grid"], .processClass "flex", .addPending 10 ["flex"]]

/-- The intake before the last of these requests. -/
def flexDone : Intake := ((flexLater.perform (.addPending 0 ["flex", "grid"])).2.processClass "flex").2

theorem flexDone_spec :
    flexDone.Sound ∧ flexDone.timer = .debounced (some 16) ∧
      flexDone.pending.toList = ["flex", "grid"] ∧
      ∀ cls, flexDone.processed.contains cls = ("flex" == cls) := by
  have hsound : flexLater.Sound := (Reachable.new {} _ _).sound
  have hnew (cls : String) : flexLater.processed.contains cls = false := ClassLog.contains_empty cls
  let queued := flexLater.queue ["flex", "grid"] (.debounced (some 16))
  have hpending : queued.pending.toList = ["flex", "grid"] := by
    have hnodup : ["flex", "grid"].Nodup := by decide
    have hqueued := toList_addUnseen_of_nodup (p := flexLater) hnodup
      fun cls _ => ClassLog.contains_empty cls
    exact hqueued.trans (by simp [hnew, ClassLog.toList_empty])
  have hfirst : (flexLater.perform (.addPending 0 ["flex", "grid"])).2 = queued := by
    obtain ⟨-, -, hnil, -⟩ | ⟨-, -, hqueue⟩ := addPending_debounced hsound rfl 0 ["flex", "grid"]
    · exact absurd (hnil.symm.trans hpending) (by simp)
    · rw [perform, hqueue]
      rfl
  have hqueued : queued.Sound := hfirst ▸ hsound.perform (.addPending 0 ["flex", "grid"])
  have hsecond := attempted_processClass hqueued.coherent "flex"
  obtain ⟨out, hflex⟩ : ∃ out, queued.compiler.give "flex" = some out :=
    exists_give_flexOnly.imp fun _ h => h.1
  have hlog : queued.processed.add "flex" = (queued.processClass "flex").2.processed := by
    have hflexNew : queued.processed.contains "flex" = false := hnew "flex"
    have hattempts := congrArg Prod.snd hsecond.attempts_eq
    simp only [attempts, attempt, hflexNew, hflex] at hattempts
    exact hattempts
  rw [flexDone, hfirst]
  refine ⟨hqueued.of_attempted hsecond, hsecond.timer, hsecond.pending ▸ hpending, fun cls => ?_⟩
  rw [← hlog, ClassLog.contains_add]
  exact (congrArg (_ || ·) (hnew cls)).trans (Bool.or_false _)

theorem serve_debounced_waiting :
    (serve perform flexLater waiting).2.pending.toList = ["flex", "grid"] ∧
      (serve perform flexLater waiting).2.timer.deadline? = some 26 ∧
      (serve perform flexLater waiting).2.poll 25 = ([], (serve perform flexLater waiting).2) ∧
      (serve perform flexLater waiting).2.unprocessed = ["grid"] ∧
      ((serve perform flexLater waiting).2.poll 26).2.timer.isArmed = false := by
  obtain ⟨hsound, htimer, hqueued, hprocessed⟩ := flexDone_spec
  -- What comes last asks for a flush and queues nothing.
  have hasks : flexDone.asks (.addPending 10 ["flex"]) = some 10 := if_neg fun h => by simp [hqueued] at h
  have hend : (serve perform flexLater waiting).2 =
      flexDone.queue ["flex"] (.debounced (some (10 + flexDone.compiler.config.debounceMs))) := by
    obtain ⟨hnone, -⟩ | ⟨-, -, hlast⟩ := addPending_debounced hsound htimer 10 ["flex"]
    · rw [hasks] at hnone
      cases hnone
    · exact congrArg Prod.snd hlast
  have hpending : (serve perform flexLater waiting).2.pending.toList = ["flex", "grid"] := by
    have hflex : flexDone.processed.contains "flex" = true := hprocessed "flex"
    rw [hend]
    show (flexDone.addUnseen flexDone.pending ["flex"]).toList = _
    rw [addUnseen_cons, if_pos hflex]
    exact hqueued
  have hasked : flexLater.lastAsked waiting = some 10 := by
    show ((flexDone.asks (.addPending 10 ["flex"])).or none).or _ = _
    rw [hasks]
    rfl
  obtain ⟨-, -, hdeadline, hearly, hdue⟩ :=
    serve_debounced {} [.addUtility (.fixed "flex" [⟨"display", "flex"⟩])] waiting
  have hdeadline : (serve perform flexLater waiting).2.timer.deadline? = some 26 := by
    refine hdeadline.trans ((if_neg ?_).trans ?_)
    · exact hpending.symm ▸ List.cons_ne_nil _ _
    · exact congrArg (Option.map _) hasked
  refine ⟨hpending, hdeadline, hearly 25 fun deadline h => ?_, ?_,
    (hdue 26 26 hdeadline (Int.le_refl 26)).2.2.2.2⟩
  · obtain rfl := Option.some.inj (hdeadline.symm.trans h)
    omega
  · rw [unprocessed, hpending, hend]
    show ["flex", "grid"].filter (fun cls => !flexDone.processed.contains cls) = _
    simp [hprocessed]

end Intake
end UtilityCss
