import Mathlib.Data.List.Find
import UtilityCss.Proofs.Rule.Order
import UtilityCss.Proofs.ClassName.Roles

/-!
# Names before tests

A registry asks only those rules whose names begin a text. That makes no difference as long as no rule
applies to a text that its name does not begin (`HeedsName`): the rules that are left out would not have
applied (`Registry.prefilter_transparent`). Rules with the usual tests are such rules, and so are those of
the basic catalogue, whose own tests look for the name and a bracket behind it.
-/

namespace UtilityCss

/-- Whether a utility rule applies only to texts that its name begins. -/
def UtilityRule.HeedsName (r : UtilityRule) : Prop :=
  ∀ s, r.accepts s = true → Text.beginsWith r.name s = true

/-- Whether a modifier rule applies only to texts that its name begins. -/
def ModifierRule.HeedsName (m : ModifierRule) : Prop :=
  ∀ s θ, m.accepts s θ = true → Text.beginsWith m.name s = true

theorem Text.beginsWith_self (s : String) : beginsWith s s = true :=
  beginsWith_iff.mpr ⟨"", by simp⟩

/-! ## Rules with the usual tests -/

theorem beginsWith_of_isNamedToken {name token : String} (h : isNamedToken name token = true) :
    Text.beginsWith name token = true := by
  unfold isNamedToken at h
  split at h
  · next rest hrest => simp [Text.beginsWith, hrest]
  · cases h

theorem UtilityRule.heedsName_of_default {r : UtilityRule} (h : r.accepts = isNamedToken r.name) :
    r.HeedsName := by
  intro s hs
  rw [h] at hs
  exact beginsWith_of_isNamedToken hs

theorem UtilityRule.heedsName_fixed (name : String) (decls : List Declaration) :
    (fixed name decls).HeedsName := by
  intro s hs
  obtain rfl : s = name := by simpa [fixed] using hs
  exact Text.beginsWith_self s

theorem ModifierRule.heedsName_of_default {m : ModifierRule}
    (h : m.accepts = fun s _ => s == m.name) : m.HeedsName := by
  intro s θ hs
  rw [h, beq_iff_eq] at hs
  rw [hs]
  exact Text.beginsWith_self m.name

/-! ## The basic catalogue -/

namespace Catalogue

theorem heedsName_of_mem_utilities {r : UtilityRule} (h : r ∈ utilities) : r.HeedsName := by
  simp only [utilities, List.mem_append, List.mem_cons, List.mem_map, List.not_mem_nil, or_false] at h
  obtain (((hcolor | ⟨_, -, rfl⟩) | ⟨_, -, rfl⟩) | rfl) | ⟨⟨name, d⟩, -, rfl⟩ := h
  · obtain rfl | rfl := hcolor <;> exact UtilityRule.heedsName_of_default rfl
  · exact UtilityRule.heedsName_of_default rfl
  · exact UtilityRule.heedsName_of_default rfl
  · exact UtilityRule.heedsName_of_default rfl
  · exact UtilityRule.heedsName_fixed name [d]

theorem heedsName_supportsModifier : supportsModifier.HeedsName := by
  intro s θ hs
  have hbegins : Text.beginsWith "supports-[" s = true := (Bool.and_eq_true_iff.mp hs).1
  obtain ⟨rest, rfl⟩ := Text.beginsWith_iff.mp hbegins
  exact Text.beginsWith_iff.mpr ⟨"-[" ++ rest, by rw [← String.append_assoc]; rfl⟩

theorem heedsName_literalModifier : literalModifier.HeedsName := by
  intro s θ hs
  simp only [literalModifier, Bool.and_eq_true] at hs
  exact hs.1.2

theorem heedsName_of_mem_variants {m : ModifierRule} (h : m ∈ variants) : m.HeedsName := by
  simp only [variants, List.mem_append, List.mem_map, List.mem_cons, List.not_mem_nil, or_false] at h
  obtain (⟨_, -, rfl⟩ | ⟨_, -, rfl⟩) | rfl | rfl := h
  · exact ModifierRule.heedsName_of_default rfl
  · exact ModifierRule.heedsName_of_default rfl
  · exact heedsName_supportsModifier
  · exact heedsName_literalModifier

end Catalogue

/-! ## Registries -/

namespace Registry

variable {reg : Registry}

/-- No rule applies to a text that its name does not begin. -/
structure HeedsNames (reg : Registry) : Prop where
  utilities : ∀ r ∈ reg.utilities, r.HeedsName
  modifiers : ∀ m ∈ reg.modifiers, m.HeedsName

theorem heedsNames_empty : empty.HeedsNames := ⟨by simp [empty], by simp [empty]⟩

theorem HeedsNames.addUtility (h : reg.HeedsNames) {rule : UtilityRule} (hrule : rule.HeedsName) :
    (reg.addUtility rule).HeedsNames where
  utilities r hr := by
    rcases mem_insertByLength.mp hr with rfl | hr
    · exact hrule
    · exact h.utilities r hr
  modifiers := h.modifiers

theorem HeedsNames.addModifier (h : reg.HeedsNames) {rule : ModifierRule} (hrule : rule.HeedsName) :
    (reg.addModifier rule).HeedsNames where
  utilities := h.utilities
  modifiers m hm := by
    rcases List.mem_append.mp hm with hm | hm
    · exact h.modifiers m hm
    · obtain rfl := List.mem_singleton.mp hm
      exact hrule

theorem HeedsNames.foldl_addUtility (h : reg.HeedsNames) {rules : List UtilityRule}
    (hrules : ∀ r ∈ rules, r.HeedsName) : (rules.foldl Registry.addUtility reg).HeedsNames := by
  induction rules generalizing reg with
  | nil => exact h
  | cons rule rules ih =>
    exact ih (h.addUtility (hrules rule (by simp))) fun r hr => hrules r (by simp [hr])

theorem HeedsNames.foldl_addModifier (h : reg.HeedsNames) {rules : List ModifierRule}
    (hrules : ∀ m ∈ rules, m.HeedsName) : (rules.foldl Registry.addModifier reg).HeedsNames := by
  induction rules generalizing reg with
  | nil => exact h
  | cons rule rules ih =>
    exact ih (h.addModifier (hrules rule (by simp))) fun m hm => hrules m (by simp [hm])

theorem HeedsNames.register_basic (h : reg.HeedsNames) : (Catalogue.basic.register reg).HeedsNames :=
  (h.foldl_addUtility fun _ => Catalogue.heedsName_of_mem_utilities).foldl_addModifier
    fun _ => Catalogue.heedsName_of_mem_variants

/-! ## Searches -/

theorem HeedsNames.mem_utilityCandidates (h : reg.HeedsNames) {r : UtilityRule} {s : String}
    (haccepts : r.accepts s = true) : r ∈ reg.utilityCandidates s ↔ r ∈ reg.utilities := by
  rw [utilityCandidates, List.mem_filter]
  exact ⟨fun hr => hr.1, fun hr => ⟨hr, h.utilities r hr s haccepts⟩⟩

theorem HeedsNames.findModifier?_eq (h : reg.HeedsNames) (θ : Theme) (token : String) :
    reg.findModifier? θ token = reg.modifiers.find? fun m => m.accepts token θ := by
  rw [findModifier?, modifierCandidates, List.find?_filter]
  refine List.find?_congr fun m hm => ?_
  cases haccepts : m.accepts token θ with
  | false => simp
  | true => simp [h.modifiers m hm token θ haccepts]

theorem HeedsNames.isUtilityToken_iff (h : reg.HeedsNames) (θ : Theme) (token : String) :
    reg.isUtilityToken θ token = true ↔
      (∃ r ∈ reg.utilities, r.accepts (withoutDash token) = true) ∧
        ∀ m ∈ reg.modifiers, m.accepts token θ = false := by
  rw [Registry.isUtilityToken_iff, h.findModifier?_eq, List.find?_eq_none]
  refine and_congr ⟨?_, ?_⟩ (by simp)
  · rintro ⟨r, hr, haccepts⟩
    exact ⟨r, (h.mem_utilityCandidates haccepts).mp hr, haccepts⟩
  · rintro ⟨r, hr, haccepts⟩
    exact ⟨r, (h.mem_utilityCandidates haccepts).mpr hr, haccepts⟩

/-- **Looking at names first changes nothing.** If no rule of a registry applies to a text that its name
does not begin, a token is a utility exactly if some utility rule applies to it without its dash and no
modifier rule applies to it, and the modifier that is found for it is the first one that applies, in the
order of registration. All rules with the usual tests are such rules, and so are those of the basic
catalogue, which can be added to any registry. -/
theorem prefilter_transparent (h : reg.HeedsNames) (θ : Theme) (token : String) :
    (reg.isUtilityToken θ token = true ↔
      (∃ r ∈ reg.utilities, r.accepts (withoutDash token) = true) ∧
        ∀ m ∈ reg.modifiers, m.accepts token θ = false) ∧
    reg.findModifier? θ token = reg.modifiers.find? (fun m => m.accepts token θ) ∧
    (∀ later, (∀ m ∈ later, m.HeedsName) →
      (later.foldl addModifier reg).findModifier? θ token =
        (reg.modifiers ++ later).find? fun m => m.accepts token θ) ∧
    (∀ r : UtilityRule, r.accepts = isNamedToken r.name → r.HeedsName) ∧
    (∀ name decls, (UtilityRule.fixed name decls).HeedsName) ∧
    (∀ m : ModifierRule, (m.accepts = fun s _ => s == m.name) → m.HeedsName) ∧
    (∀ r ∈ Catalogue.utilities, r.HeedsName) ∧ (∀ m ∈ Catalogue.variants, m.HeedsName) ∧
    (Catalogue.basic.register reg).HeedsNames := by
  refine ⟨h.isUtilityToken_iff θ token, h.findModifier?_eq θ token, fun later hlater => ?_,
    fun _ => UtilityRule.heedsName_of_default, UtilityRule.heedsName_fixed,
    fun _ => ModifierRule.heedsName_of_default, fun _ => Catalogue.heedsName_of_mem_utilities,
    fun _ => Catalogue.heedsName_of_mem_variants, h.register_basic⟩
  rw [(h.foldl_addModifier hlater).findModifier?_eq, foldl_addModifier]

/-- The catalogue behind a modifier for the hover of a parent. -/
def parentHover : Registry := Catalogue.basic.register (empty.addModifier (.selector "hover" "li:hover &"))

theorem prefilter_transparent_parentHover :
    parentHover.HeedsNames ∧ parentHover.isUtilityToken .null "-mt-[2px]" = true ∧
      parentHover.isUtilityToken .null "hover" = false ∧
      (parentHover.findModifier? .null "supports-[gap:1px]").map (·.name) = some "supports" ∧
      (parentHover.findModifier? .null "-supports-[gap:1px]").map (·.name) = none := by
  have hheeds : parentHover.HeedsNames :=
    (heedsNames_empty.addModifier (ModifierRule.heedsName_of_default rfl)).register_basic
  obtain ⟨hutility, -⟩ := prefilter_transparent hheeds .null "-mt-[2px]"
  obtain ⟨hhover, -⟩ := prefilter_transparent hheeds .null "hover"
  obtain ⟨-, hfound, -⟩ := prefilter_transparent hheeds .null "supports-[gap:1px]"
  obtain ⟨-, hmissed, -⟩ := prefilter_transparent hheeds .null "-supports-[gap:1px]"
  refine ⟨hheeds, hutility.mpr ?_, Bool.eq_false_iff.mpr fun h => ?_, ?_, ?_⟩
  · decide
  · exact absurd (hhover.mp h).1 (by decide)
  · rw [hfound]
    decide
  · rw [hmissed]
    decide

end Registry
end UtilityCss
