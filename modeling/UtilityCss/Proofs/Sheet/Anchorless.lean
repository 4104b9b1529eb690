import UtilityCss.Proofs.Selector.Filling
import UtilityCss.Proofs.Sheet.Identifier
import UtilityCss.Proofs.Sheet.Scoping

/-!
# No anchor is left in a style sheet

Let no template of a forest have a backslash, and let the class name have no space. Then every ampersand
is escaped in every selector that is written for the class, outside the at-rules whose bodies belong to no
selector (`Sheet.isAnchorless_ofNodes`). The ampersands that are left are those of the class name.

The selector of the class is `Filled`, because the escaper puts a backslash before every ampersand, and
before no blank but the space (`filled_classSelector`). Opening a scope keeps the selector around a node
filled (`filled_under`). A rule at the top without an anchor is written with its own template, which is
filled because it has neither anchors nor backslashes.
-/

namespace UtilityCss

open Anchor

/-! ## The selector of a class -/

namespace ClassSelector

theorem all_isHexDigit_toDigits : ∀ n < 128, (Nat.toDigits 16 n).all isHexDigit = true := by
  decide

theorem filled_hexEscape {c : Char} (hpos : 0 < c.toNat) (hsmall : c.toNat < 128) :
    Filled (hexEscape c) := by
  have hplain : ∀ d ∈ Nat.toDigits 16 c.toNat, d ≠ '\\' ∧ d ≠ '&' := by
    intro d hd
    have hhex := List.all_eq_true.mp (all_isHexDigit_toDigits c.toNat hsmall) d hd
    have hname := isNameChar_of_isHexDigit hhex
    exact ⟨ne_of_isNameChar hname (by decide), ne_of_isNameChar hname (by decide)⟩
  have hvisible := isBlank_of_mem_digits hpos hsmall
  obtain ⟨d, ds, hds⟩ := List.exists_cons_of_ne_nil (Nat.toDigits_ne_nil (n := c.toNat) (b := 16))
  rw [hds] at hplain hvisible
  have hrest : Filled (ds ++ [' ']) :=
    .append (.of_forall fun x hx => hplain x (by simp [hx])) (.of_forall (by simp))
  rw [hexEscape, hds]
  exact .escaped (hvisible d (by simp)) hrest

theorem isBlank_of_not_isNameChar {c : Char} (hspace : c ≠ ' ') (hctrl : isControl c = false)
    (hname : isNameChar c = false) : Text.isBlank c = false := by
  have hcode : c.toNat ≠ 32 := by
    intro h
    exact hspace (Char.toNat_inj.mp h)
  simp only [isNameChar, isControl, Bool.or_eq_false_iff, Bool.and_eq_false_iff, decide_eq_false_iff_not,
    beq_eq_false_iff_ne] at hname hctrl
  simp only [Text.isBlank, Bool.or_eq_false_iff, Bool.and_eq_false_iff, decide_eq_false_iff_not,
    beq_eq_false_iff_ne]
  omega

theorem filled_escapeChar {c : Char} (h : c ≠ ' ') : Filled (escapeChar c) := by
  unfold escapeChar
  split_ifs with hnull hctrl hname
  · exact .of_forall (by simp)
  · obtain ⟨hpos, hsmall⟩ := bounds_of_isControl hctrl
    exact filled_hexEscape hpos hsmall
  · exact .plain (ne_of_isNameChar hname (by decide)) (ne_of_isNameChar hname (by decide)) .nil
  · have hvisible := isBlank_of_not_isNameChar h (by simpa using hctrl) (by simpa using hname)
    exact .escaped hvisible .nil

theorem filled_escapeLead {c : Char} (h : c ≠ ' ') : Filled (escapeLead c) := by
  unfold escapeLead
  split_ifs with hdigit
  · obtain ⟨hpos, hsmall⟩ := bounds_of_isDigit hdigit
    exact filled_hexEscape hpos hsmall
  · exact filled_escapeChar h

theorem filled_flatMap {s : List Char} (h : ' ' ∉ s) : Filled (s.flatMap escapeChar) := by
  induction s with
  | nil => exact .nil
  | cons c s ih =>
    rw [List.mem_cons, not_or] at h
    exact (filled_escapeChar (Ne.symm h.1)).append (ih h.2)

theorem filled_escape {s : List Char} (h : ' ' ∉ s) : Filled (escape s) := by
  unfold escape
  split
  · exact .nil
  · exact .escaped (by decide) .nil
  · next c s =>
    simp only [List.mem_cons, not_or] at h
    have hrest := (filled_escapeLead (Ne.symm h.2.1)).append (filled_flatMap h.2.2)
    exact .plain (by decide) (by decide) hrest
  · next c s _ _ =>
    rw [List.mem_cons, not_or] at h
    exact (filled_escapeLead (Ne.symm h.1)).append (filled_flatMap h.2)

end ClassSelector

theorem filled_classSelector {name : String} (h : ' ' ∉ name.toList) :
    Filled (classSelector name).toList := by
  have htext : (classSelector name).toList = '.' :: ClassSelector.escape name.toList := by
    simp [classSelector, escapeClassName]
  rw [htext]
  exact .plain (by decide) (by decide) (ClassSelector.filled_escape h)

/-! ## Trees -/

/-- Whether the selector that a scope may have has no backslash. -/
def Scope.IsUnescaped : Scope → Prop
  | .rule template => '\\' ∉ template.toList
  | .verbatim template => '\\' ∉ template.toList
  | .atRule _ _ => True

instance : ∀ s : Scope, Decidable s.IsUnescaped
  | .rule template => inferInstanceAs (Decidable ('\\' ∉ template.toList))
  | .verbatim template => inferInstanceAs (Decidable ('\\' ∉ template.toList))
  | .atRule _ _ => isTrue trivial

theorem filled_under {parent : String} (hp : Filled parent.toList) {s : Scope} (hs : s.IsUnescaped) :
    Filled (s.under parent).toList := by
  cases s with
  | rule t => exact Filled.carries.resolve hp hs
  | verbatim t => exact Filled.carries.resolveVerbatim hp hs
  | atRule name params => exact hp

namespace Node

open Block

/-- Whether every ampersand is escaped in every selector that is written for a node inside `parent`. -/
def IsAnchorless (parent : Option String) (n : Node) : Prop :=
  ∀ s ∈ selectorsAll (n.rootBlocks parent), AllEscaped s.toList

theorem scopes_subset_scopesAll {n : Node} {ns : List Node} (h : n ∈ ns) : n.scopes ⊆ scopesAll ns := by
  induction ns with
  | nil => cases h
  | cons m ns ih =>
    intro s hs
    rcases List.mem_cons.mp h with rfl | h
    · exact List.mem_append_left _ hs
    · exact List.mem_append_right _ (ih h hs)

theorem handsDown_filled :
    HandsDown (fun _ n => ∀ s ∈ n.scopes, s.IsUnescaped) (fun s => Filled s.toList) := by
  intro parent s source body hp hn
  refine .inr ⟨filled_under hp (hn s (by simp [scopes])), fun n hmem t ht => ?_⟩
  exact hn t (List.mem_cons_of_mem _ (scopes_subset_scopesAll hmem ht))

theorem isAnchorless_of_filled {n : Node} (hn : ∀ s ∈ n.scopes, s.IsUnescaped) {parent : String}
    (hp : Filled parent.toList) : n.IsAnchorless (some parent) :=
  fun s hs => (forall_selectorsAll_rootBlocks handsDown_filled n hp hn s hs).allEscaped

theorem isAnchorless_of_isGlobal {n : Node} (hn : ∀ s ∈ n.scopes, s.IsUnescaped)
    (hglobal : n.isGlobal = true) : n.IsAnchorless none := by
  cases n with
  | decl d => cases hglobal
  | block scope source body =>
    intro s hs
    cases scope with
    | verbatim t => cases hglobal
    | atRule name params =>
      have hempty := selectorsAll_blocks_of_isGlobal (s := .atRule name params) hglobal none source body
      rw [rootBlocks, hempty] at hs
      · cases hs
      · simp
    | rule t =>
      have hescape : (Scope.rule t).IsUnescaped := hn (.rule t) (by simp [scopes])
      have ht : Filled t.toList :=
        Filled.carries.of_not_occurs hescape (by simpa [Node.isGlobal] using hglobal)
      have hbody : ∀ n ∈ body, ∀ s ∈ n.scopes, s.IsUnescaped := fun n hmem s hs =>
        hn s (List.mem_cons_of_mem _ (scopes_subset_scopesAll hmem hs))
      have hblocks : (Node.block (.rule t) source body).rootBlocks none =
          styled t (declarations body) ++ blocksAll (some t) body := rfl
      rw [hblocks, selectorsAll_append, List.mem_append] at hs
      rcases hs with hs | hs
      · rw [mem_selectorsAll_styled hs]
        exact ht.allEscaped
      · exact (forall_selectorsAll_blocksAll handsDown_filled body t ht hbody s hs).allEscaped

end Node

/-- **No anchor is left in a style sheet.** If no template has a backslash and the class name has no
space, each text of the sheet is that of a node, in every selector of which all ampersands are escaped. No
other white space in the class name does harm. -/
theorem Sheet.isAnchorless_ofNodes (layout : Layout) {cls : String} {nodes : List Node}
    (hcls : ' ' ∉ cls.toList) (hnodes : ∀ s ∈ Node.scopesAll nodes, s.IsUnescaped) :
    (∀ t ∈ (Sheet.ofNodes layout cls nodes).ownTexts, ∃ n ∈ nodes, n.isGlobal = false ∧
        t = n.css layout (some (classSelector cls)) ∧ n.IsAnchorless (some (classSelector cls))) ∧
      ∀ t ∈ (Sheet.ofNodes layout cls nodes).globalTexts, ∃ n ∈ nodes, n.isGlobal = true ∧
        t = n.css layout none ∧ n.IsAnchorless none := by
  have hunescaped : ∀ n ∈ nodes, ∀ s ∈ n.scopes, s.IsUnescaped := fun n hn s hs =>
    hnodes s (Node.scopes_subset_scopesAll hn hs)
  refine ⟨fun t ht => ?_, fun t ht => ?_⟩
  · obtain ⟨n, hn, rfl⟩ := List.mem_map.mp (List.mem_filter.mp ht).1
    obtain ⟨hmem, hlocal⟩ := List.mem_filter.mp hn
    exact ⟨n, hmem, by simpa using hlocal, rfl,
      Node.isAnchorless_of_filled (hunescaped n hmem) (filled_classSelector hcls)⟩
  · obtain ⟨n, hn, rfl⟩ := List.mem_map.mp (List.mem_filter.mp ht).1
    obtain ⟨hmem, hglobal⟩ := List.mem_filter.mp hn
    exact ⟨n, hmem, hglobal, rfl, Node.isAnchorless_of_isGlobal (hunescaped n hmem) hglobal⟩

/-- Anchors in a list, in brackets, in a string, in a template that cannot be read and in a verbatim one,
below a class name that has an ampersand itself, beside a rule that belongs to no class. -/
def anchoredForest : List Node :=
  [.block (.rule "&:hover, li &") none
      [.decl ⟨"color", "red"⟩,
        .block (.rule "& + &, [x='&']:not(&)") none [.decl ⟨"top", "0"⟩],
        .block (.atRule "media" "print") none
          [.block (.rule "&(, &") none [.decl ⟨"left", "0"⟩, .block (.rule "p&") none [.decl ⟨"gap", "0"⟩]]],
        .block (.verbatim "&>*") none [.decl ⟨"margin", "0"⟩]],
    .block (.rule "a, b") none [.block (.rule "&:focus &") none [.decl ⟨"width", "0"⟩]]]

theorem Sheet.isAnchorless_ofNodes_anchoredForest :
    ' ' ∉ "a&b".toList ∧ (∀ s ∈ Node.scopesAll anchoredForest, s.IsUnescaped) ∧
      (∀ t ∈ (Sheet.ofNodes .minified "a&b" anchoredForest).ownTexts, ∃ n ∈ anchoredForest,
        n.isGlobal = false ∧ t = n.css .minified (some (classSelector "a&b")) ∧
          n.IsAnchorless (some (classSelector "a&b"))) ∧
      ∀ t ∈ (Sheet.ofNodes .minified "a&b" anchoredForest).globalTexts, ∃ n ∈ anchoredForest,
        n.isGlobal = true ∧ t = n.css .minified none ∧ n.IsAnchorless none := by
  have hcls : ' ' ∉ "a&b".toList := by decide
  have hnodes : ∀ s ∈ Node.scopesAll anchoredForest, s.IsUnescaped := by decide
  exact ⟨hcls, hnodes, Sheet.isAnchorless_ofNodes .minified hcls hnodes⟩

end UtilityCss
