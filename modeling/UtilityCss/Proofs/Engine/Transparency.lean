import UtilityCss.Engine.Compiler
import UtilityCss.Proofs.Cache.Coherence
import UtilityCss.Proofs.Run

/-!
# The caches of a compiler cannot be seen

A compiler answers every command as its rules and its theme alone would (`run_eq_rulebook`): with
whatever capacities and policy, and after whatever commands before.

The invariant is `Caches.Coherent`: each of the three caches holds only answers of the function that
it stands before, for the rules and the theme in force. A look-up that finds something may therefore
be answered with it, and one that finds nothing puts in an answer. Every change of the rules or the
theme empties the caches, after which they are coherent with anything.
-/

namespace UtilityCss

/-! ## Coherent caches -/

/-- The caches hold only answers under these rules and this theme. -/
structure Caches.Coherent (reg : Registry) (θ : Theme) (caches : Caches) : Prop where
  parse : caches.parse.Holds fun raw c => c = ClassName.parse reg θ raw
  ast : caches.ast.Holds fun cls nodes => reg.compile θ cls = .ok nodes
  utility : caches.utility.Holds fun token answer => answer = reg.isUtilityToken θ token

theorem Caches.coherent_ofConfig (reg : Registry) (θ : Theme) (c : Config) :
    (Caches.ofConfig c).Coherent reg θ :=
  ⟨Cache.holds_new _ _, Cache.holds_new _ _, Cache.holds_new _ _⟩

theorem Caches.coherent_clear (reg : Registry) (θ : Theme) (caches : Caches) :
    caches.clear.Coherent reg θ :=
  ⟨Cache.holds_clear _, Cache.holds_clear _, Cache.holds_clear _⟩

section writing

variable {reg : Registry} {θ : Theme} {caches : Caches}

theorem Caches.Coherent.insert_utility (h : caches.Coherent reg θ) (token : String) :
    Caches.Coherent reg θ
      { caches with utility := caches.utility.insert token (reg.isUtilityToken θ token) } where
  parse := h.parse
  ast := h.ast
  utility := by
    dsimp only
    exact Cache.holds_insert h.utility rfl

theorem Caches.Coherent.insert_parse (h : caches.Coherent reg θ) (raw : String) :
    Caches.Coherent reg θ
      { caches with parse := caches.parse.insert raw (ClassName.parse reg θ raw) } where
  parse := by
    dsimp only
    exact Cache.holds_insert h.parse rfl
  ast := h.ast
  utility := h.utility

theorem Caches.Coherent.insert_ast (h : caches.Coherent reg θ) {cls : String} {nodes : List Node}
    (hc : reg.compile θ cls = .ok nodes) :
    Caches.Coherent reg θ { caches with ast := caches.ast.insert cls nodes } where
  parse := h.parse
  ast := by
    dsimp only
    exact Cache.holds_insert h.ast hc
  utility := h.utility

end writing

namespace Registry

variable {reg : Registry} {θ : Theme} {caches : Caches}

theorem classifyCached_spec (h : caches.Coherent reg θ) (token : String) :
    (reg.classifyCached θ caches token).1 = reg.isUtilityToken θ token ∧
      (reg.classifyCached θ caches token).2.Coherent reg θ := by
  have hkeep := Cache.holds_get h.utility token
  unfold classifyCached
  cases hg : caches.utility.get token with
  | mk found utility =>
    rw [hg] at hkeep
    cases found with
    | some hit => exact ⟨h.utility.of_get (by rw [hg]), h.parse, h.ast, hkeep⟩
    | none =>
      have hstep : Caches.Coherent reg θ { caches with utility := utility } :=
        ⟨h.parse, h.ast, hkeep⟩
      exact ⟨rfl, hstep.insert_utility token⟩

/-- The direction of a class name as it is decided without caches. -/
def direction (reg : Registry) (θ : Theme) (tokens : List String) : Bool :=
  match ClassName.leader? tokens with
  | some first => reg.isUtilityToken θ first
  | none => false

theorem parse_eq_assemble (reg : Registry) (θ : Theme) (raw : String) :
    ClassName.parse reg θ raw = ClassName.assemble reg (ClassName.isImportant raw)
      (reg.direction θ (ClassName.tokens raw)) (ClassName.tokens raw) := by
  unfold ClassName.parse direction
  rfl

theorem directionCached_spec (h : caches.Coherent reg θ) (tokens : List String) :
    (reg.directionCached θ caches tokens).1 = reg.direction θ tokens ∧
      (reg.directionCached θ caches tokens).2.Coherent reg θ := by
  unfold directionCached direction
  cases ClassName.leader? tokens with
  | none => exact ⟨rfl, h⟩
  | some first => exact classifyCached_spec h first

theorem parseCached_spec (h : caches.Coherent reg θ) (raw : String) :
    (reg.parseCached θ caches raw).1 = ClassName.parse reg θ raw ∧
      (reg.parseCached θ caches raw).2.Coherent reg θ := by
  have hkeep := Cache.holds_get h.parse raw
  unfold parseCached
  cases hg : caches.parse.get raw with
  | mk found parse =>
    rw [hg] at hkeep
    cases found with
    | some hit => exact ⟨h.parse.of_get (by rw [hg]), hkeep, h.ast, h.utility⟩
    | none =>
      have hstep : Caches.Coherent reg θ { caches with parse := parse } :=
        ⟨hkeep, h.ast, h.utility⟩
      obtain ⟨hdir, hafter⟩ := directionCached_spec hstep (ClassName.tokens raw)
      dsimp only
      rw [hdir, ← parse_eq_assemble]
      exact ⟨rfl, hafter.insert_parse raw⟩

theorem compileCached_spec (h : caches.Coherent reg θ) (cls : String) :
    (reg.compileCached θ caches cls).1 = reg.compile θ cls ∧
      (reg.compileCached θ caches cls).2.Coherent reg θ := by
  have hkeep := Cache.holds_get h.ast cls
  unfold compileCached
  cases hg : caches.ast.get cls with
  | mk found ast =>
    rw [hg] at hkeep
    cases found with
    | some hit => exact ⟨(h.ast.of_get (by rw [hg])).symm, h.parse, hkeep, h.utility⟩
    | none =>
      have hstep : Caches.Coherent reg θ { caches with ast := ast } :=
        ⟨h.parse, hkeep, h.utility⟩
      obtain ⟨hparse, hafter⟩ := parseCached_spec hstep cls
      dsimp only
      rw [hparse]
      have hcompile : reg.compile θ cls =
          (reg.expand θ (ClassName.parse reg θ cls)).map (Node.withSourceAll cls) := rfl
      cases hexp : reg.expand θ (ClassName.parse reg θ cls) with
      | error e => exact ⟨by rw [hcompile, hexp]; rfl, hafter⟩
      | ok nodes =>
        rw [hexp] at hcompile
        cases nodes with
        | nil => exact ⟨hcompile.symm, hafter⟩
        | cons n ns =>
          exact ⟨hcompile.symm, hafter.insert_ast hcompile⟩

end Registry

/-! ## Runs -/

/-- What can be asked of a compiler. -/
inductive Command where
  | addUtility (rule : UtilityRule)
  | addModifier (rule : ModifierRule)
  | usePlugin (plugin : Plugin)
  | setTheme (θ : Theme)
  | clearCaches
  | parse (raw : String)
  | generate (cls : String)

/-- What a command is answered with. -/
inductive Answer where
  | done
  | parsed (c : ClassName)
  | generated (result : Except CompileError (List Node))

/-- Carry out a command. -/
def Compiler.perform (c : Compiler) : Command → Answer × Compiler
  | .addUtility rule => (.done, c.addUtility rule)
  | .addModifier rule => (.done, c.addModifier rule)
  | .usePlugin plugin => (.done, c.usePlugin plugin)
  | .setTheme θ => (.done, c.setTheme θ)
  | .clearCaches => (.done, c.clearCaches)
  | .parse raw => let (parsed, c) := c.parse raw; (.parsed parsed, c)
  | .generate cls => let (result, c) := c.generate cls; (.generated result, c)

/-- Rules and a theme, and nothing remembered. -/
structure Rulebook where
  registry : Registry
  theme : Theme

namespace Rulebook

def blank : Rulebook := ⟨.empty, .null⟩

/-- Carry out a command without any cache. -/
def perform (b : Rulebook) : Command → Answer × Rulebook
  | .addUtility rule => (.done, { b with registry := b.registry.addUtility rule })
  | .addModifier rule => (.done, { b with registry := b.registry.addModifier rule })
  | .usePlugin plugin => (.done, { b with registry := plugin.register b.registry })
  | .setTheme θ => (.done, { b with theme := θ })
  | .clearCaches => (.done, b)
  | .parse raw => (.parsed (ClassName.parse b.registry b.theme raw), b)
  | .generate cls => (.generated (b.registry.compile b.theme cls), b)

end Rulebook

namespace Compiler

/-- The rules and the theme in force. -/
def rulebook (c : Compiler) : Rulebook := ⟨c.registry, c.theme⟩

/-- The caches hold only answers under the rules and the theme in force. -/
def Coherent (c : Compiler) : Prop := c.caches.Coherent c.registry c.theme

theorem coherent_new (config : Config) : (Compiler.new config).Coherent :=
  Caches.coherent_ofConfig _ _ _

theorem coherent_invalidate (c : Compiler) : c.invalidate.Coherent :=
  Caches.coherent_clear _ _ _

theorem perform_spec {c : Compiler} (h : c.Coherent) (command : Command) :
    (c.perform command).1 = (c.rulebook.perform command).1 ∧
      (c.perform command).2.rulebook = (c.rulebook.perform command).2 ∧
      (c.perform command).2.Coherent := by
  cases command with
  | addUtility rule => exact ⟨rfl, rfl, coherent_invalidate _⟩
  | addModifier rule => exact ⟨rfl, rfl, coherent_invalidate _⟩
  | usePlugin plugin => exact ⟨rfl, rfl, coherent_invalidate _⟩
  | setTheme θ => exact ⟨rfl, rfl, coherent_invalidate _⟩
  | clearCaches => exact ⟨rfl, rfl, Caches.coherent_clear _ _ _⟩
  | parse raw =>
    obtain ⟨hparse, hafter⟩ := Registry.parseCached_spec h raw
    exact ⟨congrArg Answer.parsed hparse, rfl, hafter⟩
  | generate cls =>
    obtain ⟨hcompile, hafter⟩ := Registry.compileCached_spec h cls
    exact ⟨congrArg Answer.generated hcompile, rfl, hafter⟩

theorem coherent_serve {c : Compiler} (h : c.Coherent) (commands : List Command) :
    (serve perform c commands).2.Coherent :=
  serve_keeps Coherent (fun _ command hc => (perform_spec hc command).2.2) h commands

/-- The states a compiler can be brought to. -/
def Reachable (c : Compiler) : Prop :=
  ∃ config commands, c = (serve perform (Compiler.new config) commands).2

theorem Reachable.coherent {c : Compiler} (h : c.Reachable) : c.Coherent := by
  obtain ⟨config, commands, rfl⟩ := h
  exact coherent_serve (coherent_new config) commands

theorem Reachable.parse_eq {c : Compiler} (h : c.Reachable) (raw : String) :
    (c.parse raw).1 = ClassName.parse c.registry c.theme raw :=
  (Registry.parseCached_spec h.coherent raw).1

/-- **Caches cannot be seen.** Whatever the configuration and the commands, a compiler gives the
answers that its rules and its theme give without any cache. -/
theorem run_eq_rulebook (config : Config) (commands : List Command) :
    (serve perform (Compiler.new config) commands).1 =
        (serve Rulebook.perform Rulebook.blank commands).1 ∧
      (serve perform (Compiler.new config) commands).2.rulebook =
        (serve Rulebook.perform Rulebook.blank commands).2 :=
  serve_refines Coherent rulebook (fun _ command h => perform_spec h command) (coherent_new config) commands

end Compiler
end UtilityCss
