import UtilityCss.Proofs.Engine.Attempts
import UtilityCss.Proofs.Engine.Transparency

/-!
# What an intake is asked, and how it answers

An intake compiles class names with caches, in batches, and at times that a timer gives. None of that
shows in what comes out: whatever compiles class names is a row of attempts at them (`Attempted`), in
which a class name gives what the rules and the theme in force give it without any cache
(`Compiler.give`).

`Intake.Reachable` says that a state comes about from a new intake by any requests, changes of rules and
theme among them. Such a state is `Sound`: the caches hold nothing but answers, and both logs are
faithful (`Reachable.sound`). What is asked of one class name is answered in full by
`processClass_contract`: when there is an output and which, and that nothing else is left behind.
-/

namespace UtilityCss

/-! ## What a compiler gives -/

namespace Compiler

/-- The output of a class name from its nodes, unless nothing is written for them. -/
def output? (c : Compiler) (cls : String) (nodes : List Node) : Option ProcessedClass :=
  if nodes = [] ∨ (c.serialize nodes cls).isEmpty then none
  else some ⟨cls, nodes, c.serialize nodes cls⟩

/-- The output of a class name under the rules and the theme in force, with nothing remembered. -/
def give (c : Compiler) (cls : String) : Option ProcessedClass :=
  (c.registry.compile c.theme cls).toOption.bind (c.output? cls)

/-- A compiler `d` with the rules, the theme and the configuration of `c` that remembers nothing but
answers. -/
structure Recalls (c d : Compiler) : Prop where
  coherent : d.Coherent
  rulebook : d.rulebook = c.rulebook
  config : d.config = c.config

variable {c d e : Compiler} {cls : String}

theorem Recalls.refl (h : c.Coherent) : c.Recalls c := ⟨h, rfl, rfl⟩

theorem Recalls.trans (h : c.Recalls d) (h' : d.Recalls e) : c.Recalls e :=
  ⟨h'.coherent, h'.rulebook.trans h.rulebook, h'.config.trans h.config⟩

theorem Recalls.serialize_eq (h : c.Recalls d) : d.serialize = c.serialize := by
  unfold serialize layout
  rw [h.config]

theorem Recalls.give_eq (h : c.Recalls d) : d.give = c.give := by
  have hregistry : d.registry = c.registry := congrArg Rulebook.registry h.rulebook
  have htheme : d.theme = c.theme := congrArg Rulebook.theme h.rulebook
  funext cls
  unfold give output?
  rw [hregistry, htheme, h.serialize_eq]

theorem generate_spec (h : c.Coherent) (cls : String) :
    (c.generate cls).1 = c.registry.compile c.theme cls ∧ c.Recalls (c.generate cls).2 := by
  obtain ⟨hresult, hcoherent⟩ := Registry.compileCached_spec h cls
  exact ⟨hresult, hcoherent, rfl, rfl⟩

theorem recalls_parse (h : c.Coherent) (raw : String) : c.Recalls (c.parse raw).2 :=
  ⟨(Registry.parseCached_spec h raw).2, rfl, rfl⟩

theorem give_of_error {err : CompileError} (h : c.registry.compile c.theme cls = .error err) :
    c.give cls = none := by
  rw [give, h]
  rfl

theorem give_of_ok {nodes : List Node} (h : c.registry.compile c.theme cls = .ok nodes) :
    c.give cls = c.output? cls nodes := by
  rw [give, h]
  rfl

theorem output?_eq_some_iff {nodes : List Node} {out : ProcessedClass} :
    c.output? cls nodes = some out ↔ nodes ≠ [] ∧ (c.serialize nodes cls).isEmpty = false ∧
      out = ⟨cls, nodes, c.serialize nodes cls⟩ := by
  unfold output?
  split
  · next hnone =>
    constructor
    · intro h
      cases h
    · rintro ⟨hnodes, hsheet, -⟩
      exact absurd hnone (not_or.mpr ⟨hnodes, Bool.eq_false_iff.mp hsheet⟩)
  · next hsome =>
    obtain ⟨hnodes, hsheet⟩ := not_or.mp hsome
    simp [hnodes, hsheet, eq_comm]

theorem give_eq_some_iff {out : ProcessedClass} :
    c.give cls = some out ↔ ∃ nodes, c.registry.compile c.theme cls = .ok nodes ∧ nodes ≠ [] ∧
      (c.serialize nodes cls).isEmpty = false ∧ out = ⟨cls, nodes, c.serialize nodes cls⟩ := by
  cases hcompile : c.registry.compile c.theme cls with
  | error err => simp [give_of_error hcompile]
  | ok nodes =>
    rw [give_of_ok hcompile, output?_eq_some_iff]
    constructor
    · intro h
      exact ⟨nodes, rfl, h⟩
    · rintro ⟨nodes', hnodes', h⟩
      obtain rfl := Except.ok.inj hnodes'
      exact h

end Compiler

namespace Intake

variable {σ : Type} {p q r : Intake σ} {cls : String}

/-! ## One class name -/

theorem exists_reviewReading_eq (h : p.compiler.Coherent) (cls : String) :
    ∃ c, p.compiler.Recalls c ∧ p.reviewReading cls = { p with compiler := c } := by
  unfold reviewReading
  split
  · exact ⟨p.compiler, .refl h, rfl⟩
  · exact ⟨_, Compiler.recalls_parse h cls, rfl⟩

theorem processClass_of_processed (h : p.processed.contains cls = true) :
    p.processClass cls = (none, p) := by
  rw [processClass, if_pos h]

theorem exists_processClass_of_error (h : p.compiler.Coherent)
    (hnew : p.processed.contains cls = false) {err : CompileError}
    (herr : p.compiler.registry.compile p.compiler.theme cls = .error err) :
    ∃ c, p.compiler.Recalls c ∧ p.processClass cls =
      (none, { p with compiler := c, failed := p.failed + 1, lastError := some err }) := by
  obtain ⟨hresult, hrecalls⟩ := Compiler.generate_spec h cls
  refine ⟨(p.compiler.generate cls).2, hrecalls, ?_⟩
  have hgenerate : p.compiler.generate cls = (.error err, (p.compiler.generate cls).2) :=
    Prod.ext (hresult.trans herr) rfl
  unfold processClass
  rw [hnew, hgenerate]
  rfl

theorem exists_processClass_of_ok (h : p.compiler.Coherent)
    (hnew : p.processed.contains cls = false) {nodes : List Node}
    (hok : p.compiler.registry.compile p.compiler.theme cls = .ok nodes) :
    ∃ c, p.compiler.Recalls c ∧ p.processClass cls =
      (p.compiler.give cls,
        { p with compiler := c, processed := (attempt p.compiler.give p.processed cls).2 }) := by
  obtain ⟨hresult, hrecalls⟩ := Compiler.generate_spec h cls
  have hgenerate : p.compiler.generate cls = (.ok nodes, (p.compiler.generate cls).2) :=
    Prod.ext (hresult.trans hok) rfl
  unfold processClass attempt
  rw [hnew, hgenerate, Compiler.give_of_ok hok, Compiler.output?]
  dsimp only
  rw [hrecalls.serialize_eq]
  by_cases hnodes : nodes = []
  -- The second look at the reading may change what is remembered, and nothing else.
  · obtain ⟨c, hc, hreview⟩ :=
      exists_reviewReading_eq (p := { p with compiler := (p.compiler.generate cls).2 })
        hrecalls.coherent cls
    exact ⟨c, hrecalls.trans hc, by simp [hnodes, hreview]⟩
  · refine ⟨_, hrecalls, ?_⟩
    by_cases hsheet : (p.compiler.serialize nodes cls).isEmpty <;> simp [hnodes, hsheet]

/-! ## Class names one after the other -/

/-- From `p` to `q`, attempts at class names gave some outputs, and no state but that of the compiler, of
the log of processed class names and of the error counts has changed. -/
structure Attempted (p : Intake σ) (classes : List String) (outs : List ProcessedClass)
    (q : Intake σ) : Prop where
  recalls : p.compiler.Recalls q.compiler
  attempts_eq : attempts p.compiler.give p.processed classes = (outs, q.processed)
  pending : q.pending = p.pending
  timer : q.timer = p.timer

theorem Attempted.nil (h : p.compiler.Coherent) : p.Attempted [] [] p := ⟨.refl h, rfl, rfl, rfl⟩

theorem Attempted.append {xs ys : List String} {outs outs' : List ProcessedClass}
    (h : p.Attempted xs outs q) (h' : q.Attempted ys outs' r) :
    p.Attempted (xs ++ ys) (outs ++ outs') r where
  recalls := h.recalls.trans h'.recalls
  attempts_eq := by
    have hrest := h'.attempts_eq
    rw [h.recalls.give_eq] at hrest
    rw [attempts_append, h.attempts_eq, hrest]
  pending := h'.pending.trans h.pending
  timer := h'.timer.trans h.timer

theorem attempted_processClass (h : p.compiler.Coherent) (cls : String) :
    p.Attempted [cls] (p.processClass cls).1.toList (p.processClass cls).2 := by
  cases hprocessed : p.processed.contains cls with
  | true =>
    rw [processClass_of_processed hprocessed]
    exact ⟨.refl h, by simp [attempts, attempt, hprocessed], rfl, rfl⟩
  | false =>
    cases hcompile : p.compiler.registry.compile p.compiler.theme cls with
    | error err =>
      obtain ⟨c, hc, heq⟩ := exists_processClass_of_error h hprocessed hcompile
      have hgive := Compiler.give_of_error hcompile
      rw [heq]
      exact ⟨hc, by simp [attempts, attempt, hprocessed, hgive], rfl, rfl⟩
    | ok nodes =>
      obtain ⟨c, hc, heq⟩ := exists_processClass_of_ok h hprocessed hcompile
      rw [heq]
      refine ⟨hc, ?_, rfl, rfl⟩
      cases hgive : p.compiler.give cls <;> simp [attempts, attempt, hprocessed, hgive]

theorem attempted_processEach (h : p.compiler.Coherent) (classes : List String) :
    p.Attempted classes (p.processEach classes).1 (p.processEach classes).2 := by
  induction classes generalizing p with
  | nil => exact .nil h
  | cons cls rest ih =>
    have hfirst := attempted_processClass h cls
    exact hfirst.append (ih hfirst.recalls.coherent)

theorem attempted_processClasses (h : p.compiler.Coherent) (classes : List String) :
    p.Attempted classes (p.processClasses classes).1 (p.processClasses classes).2 := by
  have hunseen : attempts p.compiler.give p.processed (p.addUnseen .empty classes).toList =
      attempts p.compiler.give p.processed classes :=
    attempts_addUnseen ClassLog.faithful_empty classes
  obtain ⟨hrecalls, hattempts, hpending, htimer⟩ :=
    attempted_processEach h (p.addUnseen .empty classes).toList
  rw [processClasses_eq]
  exact ⟨hrecalls, hunseen.symm.trans hattempts, hpending, htimer⟩

/-! ## Sound states -/

/-- The caches hold nothing but answers, and the logs are faithful. -/
structure Sound (p : Intake σ) : Prop where
  coherent : p.compiler.Coherent
  processed : p.processed.Faithful
  pending : p.pending.Faithful

theorem sound_new {c : Compiler} (h : c.Coherent) (timer : σ) : (Intake.new c timer).Sound :=
  ⟨h, ClassLog.faithful_empty, ClassLog.faithful_empty⟩

theorem Sound.of_attempted {classes : List String} {outs : List ProcessedClass} (h : p.Sound)
    (ha : p.Attempted classes outs q) : q.Sound where
  coherent := ha.recalls.coherent
  processed := by
    have hfaithful : (attempts p.compiler.give p.processed classes).2.Faithful :=
      faithful_attempts h.processed classes
    rwa [ha.attempts_eq] at hfaithful
  pending := ha.pending ▸ h.pending

/-- The state with class names queued, and a timer that may have been asked for a flush. -/
def queue (p : Intake σ) (classes : List String) (timer : σ) : Intake σ :=
  { p with pending := p.addUnseen p.pending classes, timer := timer }

theorem Sound.queue (h : p.Sound) (classes : List String) (timer : σ) :
    (p.queue classes timer).Sound :=
  ⟨h.coherent, h.processed, faithful_addUnseen h.pending classes⟩

def unqueue (p : Intake σ) (timer : σ) : Intake σ := { p with pending := .empty, timer := timer }

theorem Sound.unqueue (h : p.Sound) (timer : σ) : (p.unqueue timer).Sound :=
  ⟨h.coherent, h.processed, ClassLog.faithful_empty⟩

/-! ## Any requests -/

/-- What can be asked of an intake; what changes the rules or the theme is told to its compiler. -/
inductive Request where
  | processClass (cls : String)
  | processClasses (classes : List String)
  | addPending (now : Int) (classes : List String)
  | poll (now : Int)
  | flush
  | clearProcessed
  | clearCaches
  | tell (command : Command)

variable [Scheduler σ]

theorem attempted_flush (h : p.compiler.Coherent) :
    (p.unqueue (Scheduler.cancel p.timer)).Attempted p.pending.toList p.flush.1 p.flush.2 :=
  attempted_processClasses (p := p.unqueue _) h p.pending.toList

theorem Sound.flush (h : p.Sound) : p.flush.2.Sound :=
  (h.unqueue _).of_attempted (attempted_flush h.coherent)

theorem addPending_eq (p : Intake σ) (now : Int) (classes : List String) :
    p.addPending now classes =
      if (p.addUnseen p.pending classes).size = 0 then ([], p.queue classes p.timer)
      else
        match Scheduler.schedule now p.compiler.config.debounceMs p.timer with
        | (.now, timer) => (p.queue classes timer).flush
        | (.deferred, timer) => ([], p.queue classes timer) := rfl

theorem addPending_cases (p : Intake σ) (now : Int) (classes : List String) :
    ∃ timer, p.addPending now classes = ([], p.queue classes timer) ∨
      p.addPending now classes = (p.queue classes timer).flush := by
  rw [addPending_eq]
  split
  · exact ⟨p.timer, .inl rfl⟩
  · split
    · next timer _ => exact ⟨timer, .inr rfl⟩
    · next timer _ => exact ⟨timer, .inl rfl⟩

theorem poll_cases (p : Intake σ) (now : Int) : p.poll now = ([], p) ∨ p.poll now = p.flush := by
  unfold poll
  split
  · exact .inr rfl
  · exact .inl rfl

def perform (p : Intake σ) : Request → List ProcessedClass × Intake σ
  | .processClass cls => let (out, p) := p.processClass cls; (out.toList, p)
  | .processClasses classes => p.processClasses classes
  | .addPending now classes => p.addPending now classes
  | .poll now => p.poll now
  | .flush => p.flush
  | .clearProcessed => ([], p.clearProcessed)
  | .clearCaches => ([], p.clearCaches)
  | .tell command => ([], { p with compiler := (p.compiler.perform command).2 })

theorem Sound.addPending (h : p.Sound) (now : Int) (classes : List String) :
    (p.addPending now classes).2.Sound := by
  obtain ⟨timer, heq | heq⟩ := addPending_cases p now classes
  · exact heq ▸ h.queue classes timer
  · exact heq ▸ (h.queue classes timer).flush

theorem Sound.poll (h : p.Sound) (now : Int) : (p.poll now).2.Sound := by
  obtain heq | heq := poll_cases p now
  · exact heq ▸ h
  · exact heq ▸ h.flush

theorem Sound.perform (h : p.Sound) (request : Request) : (p.perform request).2.Sound := by
  cases request with
  | processClass cls => exact h.of_attempted (attempted_processClass h.coherent cls)
  | processClasses classes => exact h.of_attempted (attempted_processClasses h.coherent classes)
  | addPending now classes => exact h.addPending now classes
  | poll now => exact h.poll now
  | flush => exact h.flush
  | clearProcessed => exact ⟨h.coherent, ClassLog.faithful_empty, ClassLog.faithful_empty⟩
  | clearCaches => exact ⟨Caches.coherent_clear _ _ _, h.processed, h.pending⟩
  | tell command => exact ⟨(Compiler.perform_spec h.coherent command).2.2, h.processed, h.pending⟩

/-- The state comes about by requests from a new intake around a compiler of any configuration that
commands were given to. -/
inductive Reachable : Intake σ → Prop where
  | new (config : Config) (commands : List Command) (timer : σ) :
    Reachable (.new (serve Compiler.perform (Compiler.new config) commands).2 timer)
  | perform {p : Intake σ} (h : Reachable p) (request : Request) :
    Reachable (p.perform request).2

theorem Reachable.sound (h : p.Reachable) : p.Sound := by
  induction h with
  | new config commands timer =>
    exact sound_new (Compiler.coherent_serve (Compiler.coherent_new config) commands) timer
  | perform _ request ih => exact ih.perform request

/-- **What compiling one class name does.** There is an output exactly if the class name is not processed
and the rules and the theme in force give it, with nothing remembered, nodes that something is written
for, and it is made of these. Then the class name is processed, and otherwise nothing is. Pending class
names and the timer stay as they are, and so do the error counts, unless a rule fails on a class name that
is not processed. -/
theorem processClass_contract (h : p.Reachable) (cls : String) :
    (∀ out, (p.processClass cls).1 = some out ↔ p.processed.contains cls = false ∧
      ∃ nodes, p.compiler.registry.compile p.compiler.theme cls = .ok nodes ∧ nodes ≠ [] ∧
        (p.compiler.serialize nodes cls).isEmpty = false ∧
        out = ⟨cls, nodes, p.compiler.serialize nodes cls⟩) ∧
    (p.processClass cls).2.processed =
      (if (p.processClass cls).1.isSome then p.processed.add cls else p.processed) ∧
    (p.processClass cls).2.pending = p.pending ∧
    (p.processClass cls).2.timer = p.timer ∧
    (∀ err, p.processed.contains cls = false →
      p.compiler.registry.compile p.compiler.theme cls = .error err →
        (p.processClass cls).2.failed = p.failed + 1 ∧
          (p.processClass cls).2.lastError = some err) ∧
    ((p.processed.contains cls = true ∨
      ∃ nodes, p.compiler.registry.compile p.compiler.theme cls = .ok nodes) →
        (p.processClass cls).2.failed = p.failed ∧
          (p.processClass cls).2.lastError = p.lastError) := by
  have hcoherent := h.sound.coherent
  simp only [← Compiler.give_eq_some_iff]
  cases hprocessed : p.processed.contains cls with
  | true => simp [processClass_of_processed hprocessed]
  | false =>
    cases hcompile : p.compiler.registry.compile p.compiler.theme cls with
    | error err =>
      obtain ⟨c, -, heq⟩ := exists_processClass_of_error hcoherent hprocessed hcompile
      simp [heq, Compiler.give_of_error hcompile]
    | ok nodes =>
      obtain ⟨c, -, heq⟩ := exists_processClass_of_ok hcoherent hprocessed hcompile
      simp only [heq]
      cases hgive : p.compiler.give cls <;> simp [attempt, hprocessed, hgive]

/-- A new intake that knows `flex` alone. -/
def flexOnly : Intake :=
  .new (serve Compiler.perform (Compiler.new {}) [.addUtility (.fixed "flex" [⟨"display", "flex"⟩])]).2
    .immediate

theorem exists_give_flexOnly : ∃ out, flexOnly.compiler.give "flex" = some out ∧ out.cls = "flex" := by
  have hnodes : flexOnly.compiler.registry.compile flexOnly.compiler.theme "flex" =
      .ok [.block (.rule "&") (some "flex") [.decl ⟨"display", "flex"⟩]] := rfl
  exact ⟨_, Compiler.give_eq_some_iff.mpr ⟨_, hnodes, by simp, rfl, rfl⟩, rfl⟩

theorem give_flexOnly_grid : flexOnly.compiler.give "grid" = none := by
  have hnothing : flexOnly.compiler.registry.compile flexOnly.compiler.theme "grid" = .ok [] := rfl
  exact (Compiler.give_of_ok hnothing).trans (if_pos (.inl rfl))

/-- The intake above after it was told of a rule that fails on every use of `boom`. -/
def twoRules : Intake :=
  (flexOnly.perform (.tell (.addUtility
    { name := "boom", handle := fun _ _ => .error (.notADeclaration "boom") }))).2

theorem processClass_contract_twoRules :
    twoRules.Reachable ∧
      (twoRules.processClass "flex").1 = some
        ⟨"flex", [.block (.rule "&") (some "flex") [.decl ⟨"display", "flex"⟩]],
          ⟨.pretty, [".flex \x7b\n  display: flex;\n\x7d\n"], []⟩⟩ ∧
      (twoRules.processClass "boom").2.failed = 1 ∧
      ((twoRules.processClass "flex").2.processClass "flex").1 = none := by
  have hreachable : twoRules.Reachable := (Reachable.new _ _ _).perform _
  have hflex : twoRules.compiler.registry.compile twoRules.compiler.theme "flex" =
      .ok [.block (.rule "&") (some "flex") [.decl ⟨"display", "flex"⟩]] := rfl
  have hboom : twoRules.compiler.registry.compile twoRules.compiler.theme "boom" =
      .error (.notADeclaration "boom") := rfl
  have hnew (cls : String) : twoRules.processed.contains cls = false := ClassLog.contains_empty cls
  have hout := ((processClass_contract hreachable "flex").1 _).mpr
    ⟨hnew _, _, hflex, by simp, rfl, rfl⟩
  have hfailed := (processClass_contract hreachable "boom").2.2.2.2.1 _ (hnew _) hboom
  have hlog : (twoRules.processClass "flex").2.processed = twoRules.processed.add "flex" :=
    (processClass_contract hreachable "flex").2.1.trans (if_pos (Option.isSome_of_eq_some hout))
  have hprocessed : (twoRules.processClass "flex").2.processed.contains "flex" = true :=
    (congrArg (ClassLog.contains · "flex") hlog).trans (by simp [ClassLog.contains_add])
  refine ⟨hreachable, hout.trans rfl, hfailed.1, Option.eq_none_iff_forall_ne_some.mpr ?_⟩
  intro out hagain
  have hunprocessed := (((processClass_contract (hreachable.perform (.processClass "flex")) "flex").1
    out).mp hagain).1
  exact absurd hprocessed (Bool.eq_false_iff.mp hunprocessed)

end Intake
end UtilityCss
