import UtilityCss.Proofs.ClassName.ArbitraryValue
import UtilityCss.Proofs.ClassName.Roles
import UtilityCss.Proofs.Rule.Dispatch

/-!
# The spellings of a fixed utility

A fixed utility is meant to have one spelling, its name, but its rule looks only at the value and at the
dash in front. So it takes every spelling with an empty value for the name, and only these
(`Compiler.generate_fixed`): the name alone, with a dash behind it, and with a dash and brackets that hold
nothing, whatever follows the closing bracket.

What a token leaves behind the name says whether the value is empty (`isHollow`), in each of the ways in
which the token can be read.
-/

namespace UtilityCss

/-! ## Empty values -/

/-- Whether the text behind an opening bracket closes it at once, or is empty. -/
def closesAtOnce (closer : Char) (s : List Char) : Bool := s.head?.all fun c => c == closer

/-- Whether the text behind a name gives it an empty value. -/
def isHollow : List Char → Bool
  | [] => true
  | ['-'] => true
  | '-' :: '[' :: s => closesAtOnce ']' s
  | '-' :: '(' :: s => closesAtOnce ')' s
  | _ => false

/-- Whether a token is a name with an empty value. -/
def isHollowUse (name token : String) : Bool :=
  (Text.after? name token).any fun rest => isHollow rest.toList

theorem exists_of_isHollowUse {name token : String} (h : isHollowUse name token = true) :
    ∃ rest, token = name ++ rest ∧ isHollow rest.toList = true := by
  unfold isHollowUse at h
  cases hafter : Text.after? name token with
  | none =>
    rw [hafter] at h
    cases h
  | some rest =>
    rw [hafter] at h
    exact ⟨rest, Text.after?_eq_some_iff.mp hafter, h⟩

theorem isHollowUse_append (name rest : String) :
    isHollowUse name (name ++ rest) = isHollow rest.toList := by
  have hafter : Text.after? name (name ++ rest) = some rest := Text.after?_eq_some_iff.mpr rfl
  rw [isHollowUse, hafter]
  rfl

theorem isHollowUse_self (name : String) : isHollowUse name name = true := by
  have h := isHollowUse_append name ""
  rwa [String.append_empty] at h

theorem isHollow_dash_cons {c : Char} (hsquare : c ≠ '[') (hround : c ≠ '(') (s : List Char) :
    isHollow ('-' :: c :: s) = false := by
  simp [isHollow, hsquare, hround]

theorem fst_splitBracketed (opener closer : Char) (s : List Char) :
    (splitBracketed opener closer s).1 =
      ((closeBracket? opener closer 0 s).map Prod.fst).getD s := by
  unfold splitBracketed
  split <;> next h => rw [h]; rfl

theorem splitBracketed_eq_nil_iff {opener closer : Char} {s : List Char} :
    (splitBracketed opener closer s).1 = [] ↔ closesAtOnce closer s = true := by
  rw [fst_splitBracketed]
  cases s with
  | nil => exact iff_of_true rfl rfl
  | cons c s =>
    rw [closeBracket?]
    by_cases hc : c = closer
    · simp [closesAtOnce, hc]
    · rw [if_neg hc]
      have hlater : closesAtOnce closer (c :: s) = false := by simp [closesAtOnce, hc]
      -- Whether the bracket is closed later or not, the character is in the value.
      dsimp only
      generalize closeBracket? opener closer _ s = found
      cases found <;> simp [hlater]

/-! ## Readings with an empty value -/

namespace Registry

variable {reg : Registry} {negative : Bool} {bare : String} {u : Utility}

theorem Reads.value_eq_empty_iff {name : String} (h : reg.Reads negative bare u)
    (hname : IsPlainName name) (hu : u.name = name) (hrule : reg.findUtility? name ≠ none) :
    u.value = "" ↔ isHollowUse name bare = true := by
  -- A reading that cuts the text at a dash and an opening bracket leaves the bracket behind the name.
  have hbracketed {n rest : List Char} {b : Char} (hn : String.ofList n = name)
      (hcut : Text.cutFirst? ['-', b] bare.toList = some (n, rest)) :
      isHollowUse name bare = isHollow ('-' :: b :: rest) := by
    have htext : bare = name ++ String.ofList ('-' :: b :: rest) := by
      apply String.toList_injective
      rw [Text.eq_of_cutFirst? hcut, ← hn]
      simp
    rw [htext, isHollowUse_append, String.toList_ofList]
  cases h with
  | arbitrary hcut =>
    rw [hbracketed (by simpa using hu) hcut]
    simpa [isHollow, String.ofList_eq_empty_iff] using splitBracketed_eq_nil_iff
  | customProperty _ hcut =>
    rw [hbracketed (by simpa using hu) hcut]
    simpa [isHollow] using splitBracketed_eq_nil_iff
  | @registered r value hsquare hround hlongest =>
    obtain rfl : r.name = name := hu
    obtain ⟨rfl, rfl⟩ | rfl := (longestUtility?_spec hlongest).1
    · exact iff_of_true rfl (isHollowUse_self r.name)
    · rw [String.append_assoc, isHollowUse_append, String.toList_append]
      obtain ⟨s, rfl⟩ : ∃ s, value = String.ofList s := ⟨value.toList, by simp⟩
      -- A bracket behind the dash would have been cut at.
      have hcut {b : Char} (hb : isBracket b = true) (v : List Char) :
          Text.cutFirst? ['-', b] (r.name ++ "-" ++ String.ofList (b :: v)).toList =
            some (r.name.toList, v) := by
        rw [String.toList_append, String.toList_append, List.append_assoc]
        simpa using Text.cutFirst?_append (by rintro rfl; cases hb) (hname.not_mem hb) v
      cases s with
      | nil => exact iff_of_true rfl rfl
      | cons c v =>
        have hc : c ≠ '[' := by
          rintro rfl
          rw [hcut rfl] at hsquare
          cases hsquare
        have hc' : c ≠ '(' := by
          rintro rfl
          rw [hcut rfl] at hround
          cases hround
        simp [isHollow_dash_cons hc hc']
  | unregistered _ _ hlongest hcut =>
    rw [← hu] at hrule
    exact absurd (findUtility?_of_longestUtility?_eq_none hlongest hcut) hrule

theorem isHollowUse_iff {name token : String} (h : reg.parseUtility? token = some u)
    (hname : IsPlainName name) (hu : u.name = name) (hrule : reg.findUtility? name ≠ none) :
    isHollowUse name token = true ↔ u.value = "" ∧ u.negative = false := by
  have hreads := reads_of_parseUtility? h
  rw [hreads.value_eq_empty_iff hname hu hrule, hreads.negative_eq]
  cases hdash : Text.beginsWith "-" token with
  | false => rw [withoutDash_of_not_beginsWith hdash, and_iff_left rfl]
  | true =>
    -- A token that begins with the name begins with no dash.
    refine iff_of_false (fun hhollow => ?_) (by simp)
    obtain ⟨rest, rfl, -⟩ := exists_of_isHollowUse hhollow
    rw [hname.beginsWith_append rfl hname.no_dash] at hdash
    cases hdash

end Registry

/-! ## Fixed utilities -/

theorem UtilityRule.handle_fixed (name : String) (decls : List Declaration) (u : Utility) (θ : Theme) :
    (UtilityRule.fixed name decls).handle u θ =
      .ok (if u.value = "" ∧ u.negative = false then decls.map .decl else []) := by
  simp [fixed]

/-- **The spellings of a fixed utility.** Let the first rule of a plain name be a fixed utility, and a class
name have a utility with that name. If the token of the utility is the name, the name with a dash behind
it, or the name with a dash and brackets that hold nothing, with any text behind them, then the class name
has the declarations of the rule under its modifiers. Every other token is rejected. -/
theorem Compiler.generate_fixed {c : Compiler} (hc : c.Coherent) {name : String}
    {decls : List Declaration} {rule : UtilityRule} (hname : IsPlainName name)
    (hrule : c.registry.findUtility? name = some rule)
    (hfixed : rule.handle = (UtilityRule.fixed name decls).handle) {raw : String} {u : Utility}
    (hparse : (c.parse raw).1.utility = some u) (hu : u.name = name) :
    ∃ token, ClassName.utilityToken? c.registry c.theme raw = some token ∧
      (c.generate raw).1 =
        if isHollowUse name token then
          (c.registry.underModifiers c.theme (c.parse raw).1.modifiers (ClassName.isImportant raw)
            rule (decls.map .decl)).map (Node.withSourceAll raw)
        else .ok [] := by
  have hparsed : (c.parse raw).1 = ClassName.parse c.registry c.theme raw :=
    (Registry.parseCached_spec hc raw).1
  have hgenerate : (c.generate raw).1 = c.registry.compile c.theme raw :=
    (Registry.compileCached_spec hc raw).1
  rw [hparsed] at hparse ⊢
  rw [hgenerate]
  have hutility := hparse
  rw [ClassName.parse_eq, Option.map_eq_some_iff] at hutility
  obtain ⟨v, hv, hmarked⟩ := hutility
  obtain ⟨token, htoken, hread⟩ := Option.bind_eq_some_iff.mp hv
  rw [Utility.markedIf_eq, (Registry.reads_of_parseUtility? hread).important_eq,
    Bool.or_false] at hmarked
  subst hmarked
  have hhollow : isHollowUse name token = true ↔ v.value = "" ∧ v.negative = false :=
    Registry.isHollowUse_iff hread hname hu (by rw [hrule]; simp)
  have hexpand := Registry.expand_of_findUtility? (u := { v with important := _ }) (hu ▸ hrule) c.theme
    (ClassName.parse c.registry c.theme raw).modifiers
  rw [← hparse, hfixed, UtilityRule.handle_fixed] at hexpand
  refine ⟨token, htoken, ?_⟩
  show (c.registry.expand c.theme (ClassName.parse c.registry c.theme raw)).map
    (Node.withSourceAll raw) = _
  rw [hexpand]
  simp only [hhollow]
  split
  · rfl
  · rfl

namespace Compiler

/-- A compiler with a fixed utility and a modifier. -/
def flexAndHover : Compiler :=
  (serve perform (Compiler.new {}) [.addUtility (.fixed "flex" [⟨"display", "flex"⟩]),
    .addModifier (.selector "hover" "&:hover")]).2

theorem reachable_flexAndHover : flexAndHover.Reachable := ⟨_, _, rfl⟩

theorem isPlainName_flex : IsPlainName "flex" := by decide

/-- Empty brackets with an opacity are such a spelling, and brackets that hold a space are not. -/
theorem generate_fixed_flexAndHover :
    flexAndHover.Coherent ∧ IsPlainName "flex" ∧
      (flexAndHover.parse "!hover:flex-[]/50").1 = ⟨[.named "hover"],
        some { name := "flex", value := "", arbitrary := true, opacity := "50", important := true }⟩ ∧
      (flexAndHover.generate "!hover:flex-[]/50").1 = .ok [.block (.rule "&:hover")
        (some "!hover:flex-[]/50") [.decl ⟨"display", "flex !important"⟩]] ∧
      (flexAndHover.parse "flex-[_]").1 =
        ⟨[], some { name := "flex", value := "_", arbitrary := true }⟩ ∧
      (flexAndHover.generate "flex-[_]").1 = .ok [] := by
  have hc := reachable_flexAndHover.coherent
  have hempty : (flexAndHover.parse "!hover:flex-[]/50").1 = ⟨[.named "hover"],
      some { name := "flex", value := "", arbitrary := true, opacity := "50", important := true }⟩ := by
    rw [reachable_flexAndHover.parse_eq]
    decide
  have hspace : (flexAndHover.parse "flex-[_]").1 =
      ⟨[], some { name := "flex", value := "_", arbitrary := true }⟩ := by
    rw [reachable_flexAndHover.parse_eq]
    decide
  refine ⟨hc, isPlainName_flex, hempty, ?_, hspace, ?_⟩
  · obtain ⟨token, htoken, hgenerate⟩ :=
      generate_fixed hc isPlainName_flex rfl rfl (congrArg ClassName.utility hempty) rfl
    obtain rfl : token = "flex-[]/50" := by
      refine Option.some.inj (htoken.symm.trans ?_)
      decide
    rw [hgenerate, hempty]
    rfl
  · obtain ⟨token, htoken, hgenerate⟩ :=
      generate_fixed hc isPlainName_flex rfl rfl (congrArg ClassName.utility hspace) rfl
    obtain rfl : token = "flex-[_]" := by
      refine Option.some.inj (htoken.symm.trans ?_)
      decide
    rw [hgenerate, hspace]
    rfl

/-- A fixed utility has more than one spelling: a dash may stand behind its name. -/
theorem generate_fixed_dashBehind :
    ¬ ∀ (c : Compiler) (name : String) (decls : List Declaration) (raw token : String) (u : Utility),
      c.Reachable → IsPlainName name →
      c.registry.findUtility? name = some (UtilityRule.fixed name decls) →
      (c.parse raw).1.utility = some u → u.name = name →
      ClassName.utilityToken? c.registry c.theme raw = some token →
      (c.generate raw).1 ≠ .ok [] → token = name := by
  intro h
  have hparse : (flexAndHover.parse "flex-").1.utility = some { name := "flex", value := "" } := by
    rw [reachable_flexAndHover.parse_eq]
    decide
  have hgenerate : (flexAndHover.generate "flex-").1 =
      .ok [.block (.rule "&") (some "flex-") [.decl ⟨"display", "flex"⟩]] :=
    (Registry.compileCached_spec reachable_flexAndHover.coherent "flex-").1
  have hname := h flexAndHover "flex" _ "flex-" "flex-" _ reachable_flexAndHover isPlainName_flex rfl
    hparse rfl (by decide) (by rw [hgenerate]; simp)
  exact absurd hname (by decide)

end Compiler
end UtilityCss
