import UtilityCss.Proofs.Rule.Order
import UtilityCss.Proofs.ClassName.ArbitraryValue
import UtilityCss.Proofs.Rule.Dispatch

/-!
# Literal values in the catalogue

A value in square brackets is meant to be taken as it is written, with spaces for its underscores, and a
value in round brackets as the custom property of that name. All utilities of the catalogue do so, whatever
the theme, but for the width: its rule looks for its keywords, and in round brackets for a fraction, before
it asks whether the value is a literal one (`Compiler.generate_literalValue`).

The two spellings are followed from the class name to the tree. Both are one token, as the brackets hide
the colons of the one and the other has none; the token is read as the name and what is in the brackets;
and the rule of that name is found, since no two rules of the catalogue share one.
-/

namespace UtilityCss

/-! ## Values -/

theorem eq_of_decodeUnderscores {s d : List Char} (h : decodeUnderscores s = d) (hscore : '_' ∉ d)
    (hspace : ' ' ∉ d) : s = d := by
  induction s using decodeUnderscores.induct generalizing d with
  | case1 => exact h
  | case2 s ih =>
    rw [decodeUnderscores] at h
    simp [← h] at hscore
  | case3 c s hescape ih =>
    rw [decodeUnderscores] at h
    · subst h
      by_cases hc : c = '_'
      · simp [hc] at hspace
      · simp only [if_neg hc, List.mem_cons, not_or] at hscore hspace ⊢
        rw [← ih rfl hscore.2 hspace.2]
    · exact hescape

namespace Utility

/-- The value is a literal one, of one kind or the other, and nothing else is said of it. -/
structure IsLiteral (u : Utility) : Prop where
  custom_eq : u.customProperty = !u.arbitrary
  not_negative : u.negative = false
  no_opacity : u.opacity = ""

theorem IsLiteral.eq_auto {u : Utility} (h : u.IsLiteral) (hauto : u.resolvedValue = "auto") :
    u.value = "auto" := by
  unfold resolvedValue at hauto
  have hcustom := h.custom_eq
  cases harbitrary : u.arbitrary with
  | false =>
    rw [harbitrary] at hcustom
    rw [hcustom] at hauto
    have hfirst := congrArg (fun s => s.toList.head?) hauto
    simp at hfirst
  | true =>
    rw [harbitrary] at hcustom
    rw [hcustom, harbitrary] at hauto
    have hchars : decodeUnderscores u.value.toList = ['a', 'u', 't', 'o'] := by
      have := congrArg String.toList hauto
      simpa using this
    have hvalue := eq_of_decodeUnderscores hchars (by decide) (by decide)
    apply String.toList_injective
    rw [hvalue]
    rfl

end Utility

namespace Catalogue

/-! ## Rules for values -/

/-- The utilities that take values, each with the property that it sets. -/
def valueUtilities : List (String × String) :=
  [("bg", "background-color"), ("text", "color")] ++ paddings ++ margins ++ [("w", "width")]

/-- What the rule of widths puts in the place of a literal value: it does so for its keywords, and for a
fraction in round brackets. -/
def takenWidth? (custom : Bool) (v : String) : Option String :=
  if v = "full" then some "100%"
  else if v = "screen" then some "100vw"
  else if custom = true ∧ Measure.isFraction v.toList = true then some ("calc(" ++ v ++ " * 100%)")
  else none

/-- The value that a utility has for a literal one. -/
def literalValue (name : String) (custom : Bool) (v literal : String) : String :=
  if name = "w" then (takenWidth? custom v).getD literal else literal

theorem literalValue_of_ne {name : String} (h : name ≠ "w") (custom : Bool) (v literal : String) :
    literalValue name custom v literal = literal := if_neg h

theorem literalValue_eq_iff (name : String) (custom : Bool) {v literal : String}
    (hfull : v = "full" → literal ≠ "100%") (hscreen : v = "screen" → literal ≠ "100vw")
    (hfraction : custom = true → literal ≠ "calc(" ++ v ++ " * 100%)") :
    literalValue name custom v literal = literal ↔
      ¬ (name = "w" ∧ (v = "full" ∨ v = "screen" ∨
        custom = true ∧ Measure.isFraction v.toList = true)) := by
  unfold literalValue takenWidth?
  split
  · next hname =>
    split
    · next hv => simp [hname, hv, (hfull hv).symm]
    · split
      · next hv => simp [hname, hv, (hscreen hv).symm]
      · split
        · next hv => simp [hname, hv, (hfraction hv.1).symm]
        · next h₁ h₂ h₃ => simp only [h₁, h₂, h₃, Option.getD_none, or_self, and_false, not_false_iff]
  · next hname => simp [hname]

section literal

variable {u : Utility} (h : u.IsLiteral) (θ : Theme)

include h

theorem spacing?_of_isLiteral : spacing? θ u = some u.resolvedValue := by
  have hliteral : isLiteral u = true := by simp [isLiteral, h.custom_eq]
  rw [spacing?, if_pos hliteral]

theorem colorValue?_of_isLiteral : colorValue? θ u = some u.resolvedValue := by
  have hliteral : isLiteral u = true := by simp [isLiteral, h.custom_eq]
  simp [colorValue?, splitOpacity, color?, hliteral, h.no_opacity]

theorem width?_of_isLiteral :
    width? θ u = some ((takenWidth? u.customProperty u.value).getD u.resolvedValue) := by
  have hauto : (u.resolvedValue != "auto" || u.value == "auto") = true := by
    by_cases hvalue : u.resolvedValue = "auto"
    · simp [h.eq_auto hvalue]
    · simp [hvalue]
  have hfraction : (Measure.isFraction u.value.toList && !u.arbitrary) = true ↔
      u.customProperty = true ∧ Measure.isFraction u.value.toList = true := by
    rw [h.custom_eq, Bool.and_eq_true, and_comm]
  unfold width? takenWidth?
  rw [spacing?_of_isLiteral h, Option.filter_some, if_pos hauto, if_neg (by simp [h.not_negative])]
  simp only [hfraction]
  split
  · rfl
  · split
    · rfl
    · split <;> rfl

theorem handle_colorUtility (name property : String) :
    (colorUtility name property).handle u θ = .ok [.decl ⟨property, u.resolvedValue⟩] := by
  simp [colorUtility, h.not_negative, colorValue?_of_isLiteral h]

theorem handle_spacingUtility (allowNegative : Bool) (name property : String) :
    (spacingUtility allowNegative name property).handle u θ = .ok [.decl ⟨property, u.resolvedValue⟩] := by
  simp [spacingUtility, h.not_negative, spacing?_of_isLiteral h]

theorem handle_widthUtility :
    widthUtility.handle u θ = .ok [.decl ⟨"width",
      literalValue "w" u.customProperty u.value u.resolvedValue⟩] := by
  simp [widthUtility, width?_of_isLiteral h, literalValue]

end literal

theorem exists_handle_eq {name property : String} (h : (name, property) ∈ valueUtilities) :
    ∃ r ∈ utilities, r.name = name ∧ ∀ (θ : Theme) (u : Utility), u.IsLiteral →
      r.handle u θ = .ok [.decl ⟨property,
        literalValue name u.customProperty u.value u.resolvedValue⟩] := by
  have hspaces : ∀ p ∈ paddings ++ margins, p.1 ≠ "w" := by decide
  simp only [valueUtilities, List.mem_append, List.mem_cons, Prod.mk.injEq, List.not_mem_nil,
    or_false] at h
  obtain (((⟨rfl, rfl⟩ | ⟨rfl, rfl⟩) | hpadding) | hmargin) | ⟨rfl, rfl⟩ := h
  · refine ⟨colorUtility "bg" "background-color", by simp [utilities], rfl, fun θ u hu => ?_⟩
    rw [literalValue_of_ne (by decide)]
    exact handle_colorUtility hu θ _ _
  · refine ⟨colorUtility "text" "color", by simp [utilities], rfl, fun θ u hu => ?_⟩
    rw [literalValue_of_ne (by decide)]
    exact handle_colorUtility hu θ _ _
  · refine ⟨spacingUtility false name property, ?_, rfl, fun θ u hu => ?_⟩
    · simp only [utilities, List.mem_append, List.mem_map]
      exact .inl (.inl (.inl (.inr ⟨_, hpadding, rfl⟩)))
    · rw [literalValue_of_ne (hspaces _ (List.mem_append_left _ hpadding))]
      exact handle_spacingUtility hu θ _ _ _
  · refine ⟨spacingUtility true name property, ?_, rfl, fun θ u hu => ?_⟩
    · simp only [utilities, List.mem_append, List.mem_map]
      exact .inl (.inl (.inr ⟨_, hmargin, rfl⟩))
    · rw [literalValue_of_ne (hspaces _ (List.mem_append_right _ hmargin))]
      exact handle_spacingUtility hu θ _ _ _
  · exact ⟨widthUtility, by simp [utilities], rfl, fun θ u hu => handle_widthUtility hu θ⟩

end Catalogue

/-! ## Round brackets -/

theorem closeBracket?_of_not_mem {opener closer : Char} {s : List Char} (hopen : opener ∉ s)
    (hclose : closer ∉ s) (t : List Char) :
    closeBracket? opener closer 0 (s ++ closer :: t) = some (s, t) := by
  induction s with
  | nil => simp [closeBracket?]
  | cons c s ih =>
    have hc : c ≠ opener := fun hc => hopen (by simp [hc])
    have hc' : c ≠ closer := fun hc => hclose (by simp [hc])
    have hrest := ih (fun hs => hopen (by simp [hs])) fun hs => hclose (by simp [hs])
    rw [List.cons_append, closeBracket?, if_neg hc', if_neg hc]
    simp only [hrest, Option.map_some]

/-- Whether a text has neither brackets nor colons. -/
def IsPlainText (v : String) : Prop := ∀ c ∈ v.toList, c ≠ ':' ∧ isBracket c = false

instance (v : String) : Decidable (IsPlainText v) :=
  List.decidableBAll _ v.toList

theorem IsPlainText.not_mem {v : String} (h : IsPlainText v) {c : Char} (hc : isBracket c = true) :
    c ∉ v.toList := by
  intro hmem
  rw [(h c hmem).2] at hc
  cases hc

namespace IsPlainName

variable {name v : String}

theorem toList_roundBracket (name v : String) :
    (name ++ ("-(" ++ v ++ ")")).toList = name.toList ++ '-' :: '(' :: (v.toList ++ [')']) := by
  simp

theorem parseUtility?_roundBracket (h : IsPlainName name) (reg : Registry) (hv : IsPlainText v) :
    reg.parseUtility? (name ++ ("-(" ++ v ++ ")")) = some (reg.withRegistration
      { name := name, value := v, customProperty := true }) := by
  have hsquare : Text.cutFirst? ['-', '['] (name ++ ("-(" ++ v ++ ")")).toList = none := by
    refine Option.eq_none_iff_forall_ne_some.mpr fun cut hcut => ?_
    have hmem : '[' ∈ (name ++ ("-(" ++ v ++ ")")).toList :=
      (Text.isInfix_of_cutFirst? hcut).subset (by simp)
    rw [toList_roundBracket] at hmem
    simp [h.not_mem (c := '[') rfl, hv.not_mem (c := '[') rfl] at hmem
  have hround : Text.cutFirst? ['-', '('] (name ++ ("-(" ++ v ++ ")")).toList =
      some (name.toList, v.toList ++ [')']) := by
    rw [toList_roundBracket]
    exact Text.cutFirst?_append (by decide) (h.not_mem rfl) _
  have hsplit : splitBracketed '(' ')' (v.toList ++ [')']) = (v.toList, []) := by
    rw [splitBracketed, closeBracket?_of_not_mem (hv.not_mem rfl) (hv.not_mem rfl)]
  rw [h.parseUtility?_append]
  unfold Registry.readUtility?
  rw [if_neg (by simp [h.ne_empty, h.beginsWith_bracket_append (c := '[') (p := "[") rfl rfl,
    h.beginsWith_bracket_append (c := '(') (p := "(") rfl rfl])]
  simp only [hsquare, hround, hsplit, String.ofList_toList]

theorem parse_roundBracket (h : IsPlainName name) (reg : Registry) (θ : Theme) (hv : IsPlainText v) :
    ClassName.parse reg θ (name ++ "-(" ++ v ++ ")") = ⟨[], some (reg.withRegistration
      { name := name, value := v, customProperty := true })⟩ := by
  have hassoc : name ++ "-(" ++ v ++ ")" = name ++ ("-(" ++ v ++ ")") := by
    rw [String.append_assoc, String.append_assoc, String.append_assoc]
  have hcolons : Token.HidesColons (name ++ ("-(" ++ v ++ ")")) := by
    rw [Token.hidesColons_iff]
    refine Depths.uncut_of_not_mem (fun hmem => ?_) _
    rw [toList_roundBracket] at hmem
    have hname : ':' ∉ name.toList := fun hmem => (h.plain ':' hmem).1 rfl
    have hvalue : ':' ∉ v.toList := fun hmem => (hv ':' hmem).1 rfl
    simp [hname, hvalue] at hmem
  rw [hassoc, ClassName.parse_of_hidesColons reg θ (by simp [h.ne_empty])
    (h.beginsWith_append rfl h.no_mark _) hcolons, h.parseUtility?_roundBracket reg hv]

end IsPlainName

/-! ## Class names -/

theorem Registry.underModifiers_nil (reg : Registry) (θ : Theme) (r : UtilityRule) (d : Declaration) :
    reg.underModifiers θ [] false r [.decl d] = .ok [.block (.rule "&") none [.decl d]] := rfl

theorem Registry.isLiteral_withRegistration (reg : Registry) {u : Utility} (h : u.IsLiteral) :
    (reg.withRegistration u).IsLiteral := by
  obtain ⟨category, priority, heq⟩ := @withRegistration_eq reg u
  rw [heq]
  exact ⟨h.custom_eq, h.not_negative, h.no_opacity⟩

namespace Catalogue

theorem isPlainName_of_mem {name property : String} (h : (name, property) ∈ valueUtilities) :
    IsPlainName name := by
  have hall : ∀ p ∈ valueUtilities, IsPlainName p.1 := by decide
  exact hall _ h

theorem compile_of_isLiteral (θ : Theme) {name property cls : String} {u : Utility}
    (h : (name, property) ∈ valueUtilities) (hparse : ClassName.parse rules θ cls =
      ⟨[], some (rules.withRegistration u)⟩)
    (hname : u.name = name) (hu : u.IsLiteral) (himportant : u.important = false) :
    rules.compile θ cls = .ok [.block (.rule "&") (some cls)
      [.decl ⟨property, literalValue name u.customProperty u.value u.resolvedValue⟩]] := by
  obtain ⟨r, hr, hrule, hhandle⟩ := exists_handle_eq h
  obtain ⟨category, priority, hregistered⟩ := @Registry.withRegistration_eq rules u
  have hfound : rules.findUtility? (rules.withRegistration u).name = some r := by
    rw [Registry.name_withRegistration, hname, ← hrule]
    exact findUtility?_rules hr
  have hgiven := hhandle θ _ (rules.isLiteral_withRegistration hu)
  have hmark : (rules.withRegistration u).important = false := by
    rw [Registry.important_withRegistration, himportant]
  have hvalue : literalValue name (rules.withRegistration u).customProperty
      (rules.withRegistration u).value (rules.withRegistration u).resolvedValue =
        literalValue name u.customProperty u.value u.resolvedValue := by rw [hregistered]; rfl
  rw [hvalue] at hgiven
  rw [Registry.compile, hparse, Registry.expand_of_findUtility? hfound, hgiven, hmark]
  exact congrArg (Except.map (Node.withSourceAll cls)) (rules.underModifiers_nil θ r _)

end Catalogue

open Catalogue

theorem IsPlainName.parse_squareBracket {name v : String} (h : IsPlainName name) (reg : Registry)
    (θ : Theme) (hv : Balanced v.toList) :
    ClassName.parse reg θ (name ++ "-[" ++ v ++ "]") = ⟨[], some (reg.withRegistration
      { name := name, value := v, arbitrary := true })⟩ := by
  have htext : name ++ "-[" ++ v ++ "]" = name ++ "-[" ++ String.ofList (v.toList ++ ']' :: []) :=
    String.toList_injective (by simp)
  have hsplit : splitBracketed '[' ']' (v.toList ++ ']' :: []) = (v.toList, "".toList) := by
    rw [splitBracketed, hv.closes.closeBracket?]
    rfl
  rw [htext, h.parse_bracket reg θ hv.closes (by simp) hsplit, String.ofList_toList]

/-- **Literal values in the catalogue.** Under the rules of the catalogue alone and any theme, a utility
that takes values gives for a literal one a rule `&` with one declaration of its property. For a value in
square brackets that balance, its text is the value with its underscores decoded, unless the utility is
the width and the value is one of its keywords; for a value in round brackets without brackets and colons,
it is the custom property, unless the utility is the width and the value is a keyword or a fraction. Then,
and only then, the text is what the rule of widths has for these. -/
theorem Compiler.generate_literalValue {c : Compiler} (hc : c.Coherent) (hrules : c.registry = rules)
    {name property : String} (hname : (name, property) ∈ valueUtilities) :
    (∀ v, Balanced v.toList →
      let cls := name ++ "-[" ++ v ++ "]"
      let literal := String.ofList (decodeUnderscores v.toList)
      (c.generate cls).1 = .ok [.block (.rule "&") (some cls)
        [.decl ⟨property, literalValue name false v literal⟩]] ∧
      (literalValue name false v literal = literal ↔
        ¬ (name = "w" ∧ (v = "full" ∨ v = "screen")))) ∧
    ∀ v, IsPlainText v →
      let cls := name ++ "-(" ++ v ++ ")"
      let literal := "var(" ++ v ++ ")"
      (c.generate cls).1 = .ok [.block (.rule "&") (some cls)
        [.decl ⟨property, literalValue name true v literal⟩]] ∧
      (literalValue name true v literal = literal ↔
        ¬ (name = "w" ∧ (v = "full" ∨ v = "screen" ∨ Measure.isFraction v.toList = true))) := by
  have hplain := isPlainName_of_mem hname
  have hgenerate (cls : String) : (c.generate cls).1 = rules.compile c.theme cls := by
    rw [← hrules]
    exact (Registry.compileCached_spec hc cls).1
  refine ⟨fun v hv => ⟨?_, ?_⟩, fun v hv => ⟨?_, ?_⟩⟩
  · rw [hgenerate]
    exact compile_of_isLiteral c.theme hname (hplain.parse_squareBracket rules c.theme hv) rfl
      ⟨rfl, rfl, rfl⟩ rfl
  · have hfull : v = "full" → String.ofList (decodeUnderscores v.toList) ≠ "100%" := by
      rintro rfl
      decide
    have hscreen : v = "screen" → String.ofList (decodeUnderscores v.toList) ≠ "100vw" := by
      rintro rfl
      decide
    simpa using literalValue_eq_iff name false hfull hscreen nofun
  · rw [hgenerate]
    exact compile_of_isLiteral c.theme hname (hplain.parse_roundBracket rules c.theme hv) rfl
      ⟨rfl, rfl, rfl⟩ rfl
  · have hfirst : ("var(" ++ v ++ ")").toList.head? = some 'v' := by simp
    have hne {other : String} (hother : other.toList.head? ≠ some 'v') : "var(" ++ v ++ ")" ≠ other :=
      fun heq => hother (heq ▸ hfirst)
    simpa using literalValue_eq_iff name true (fun _ => hne (by decide)) (fun _ => hne (by decide))
      fun _ => hne (by simp)

/-- A compiler with the catalogue and a theme with spaces that are named like some values. -/
def themedCatalogue : Compiler :=
  (serve Compiler.perform (Compiler.new {}) [.usePlugin basic, .setTheme (.table
    [("spacing", .table [("full", .text "1px"), ("a_b", .text "2px")])])]).2

theorem Compiler.generate_literalValue_width :
    themedCatalogue.Coherent ∧ themedCatalogue.registry = rules ∧
      ("w", "width") ∈ valueUtilities ∧ ("mt", "margin-top") ∈ valueUtilities ∧
      Balanced "full".toList ∧ Balanced "a_b[0]:\\_".toList ∧ IsPlainText "a_b" ∧ IsPlainText "1/2" ∧
      (themedCatalogue.generate "w-[full]").1 =
        .ok [.block (.rule "&") (some "w-[full]") [.decl ⟨"width", "100%"⟩]] ∧
      (themedCatalogue.generate "w-(1/2)").1 =
        .ok [.block (.rule "&") (some "w-(1/2)") [.decl ⟨"width", "calc(1/2 * 100%)"⟩]] ∧
      (themedCatalogue.generate "w-[a_b[0]:\\_]").1 =
        .ok [.block (.rule "&") (some "w-[a_b[0]:\\_]") [.decl ⟨"width", "a b[0]:_"⟩]] ∧
      (themedCatalogue.generate "mt-[full]").1 =
        .ok [.block (.rule "&") (some "mt-[full]") [.decl ⟨"margin-top", "full"⟩]] ∧
      (themedCatalogue.generate "mt-(a_b)").1 =
        .ok [.block (.rule "&") (some "mt-(a_b)") [.decl ⟨"margin-top", "var(a_b)"⟩]] := by
  have hc : themedCatalogue.Coherent := Reachable.coherent ⟨_, _, rfl⟩
  have hrules : themedCatalogue.registry = rules := rfl
  have hwidth : ("w", "width") ∈ valueUtilities := by decide
  have hmargin : ("mt", "margin-top") ∈ valueUtilities := by decide
  have hfull : Balanced "full".toList := by decide
  have hnested : Balanced "a_b[0]:\\_".toList := by decide
  have hname : IsPlainText "a_b" := by decide
  have hfraction : IsPlainText "1/2" := by decide
  obtain ⟨hsquare, hround⟩ := generate_literalValue hc hrules hwidth
  obtain ⟨hsquare', hround'⟩ := generate_literalValue hc hrules hmargin
  refine ⟨hc, hrules, hwidth, hmargin, hfull, hnested, hname, hfraction, (hsquare _ hfull).1,
    (hround _ hfraction).1, (hsquare _ hnested).1, (hsquare' _ hfull).1, (hround' _ hname).1⟩

/-- The rule of widths takes `full` for its keyword in brackets, too. -/
theorem Compiler.generate_literalValue_keyword :
    ¬ ∀ (c : Compiler) (name property v : String), c.Reachable → c.registry = rules →
      (name, property) ∈ valueUtilities → Balanced v.toList →
      (c.generate (name ++ "-[" ++ v ++ "]")).1 =
        .ok [.block (.rule "&") (some (name ++ "-[" ++ v ++ "]"))
          [.decl ⟨property, String.ofList (decodeUnderscores v.toList)⟩]] := by
  intro h
  have hreachable : themedCatalogue.Reachable := ⟨_, _, rfl⟩
  have hclaimed := h themedCatalogue "w" "width" "full" hreachable rfl (by decide) (by decide)
  rw [generate, (Registry.compileCached_spec hreachable.coherent _).1] at hclaimed
  revert hclaimed
  decide +kernel

end UtilityCss
