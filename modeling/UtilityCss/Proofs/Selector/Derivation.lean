import UtilityCss.Proofs.Selector.Chains
import UtilityCss.Proofs.Selector.RoundTrip

/-!
# Selectors that arise

Selectors come from texts, and from other selectors by substitution. All of them are chains
(`Selector.Derived.isChain`): the reader puts a combinator before every compound but the first, and
substitution keeps chains.

A selector without an anchor leaves no anchor where it is put in, unless one of its compounds ends in a
backslash that would protect what is put behind it (`Selector.derived_isChain_and_removes_anchors`).
-/

namespace UtilityCss

namespace Anchor

theorem occursFrom_replaceFrom_eq_false {r : List Char} (hr : Neutral r) (hnone : occurs r = false)
    (p : Bool) (s : List Char) : occursFrom p (replaceFrom r p s) = false := by
  rw [occurs_eq_occursFrom] at hnone
  induction s generalizing p with
  | nil => rfl
  | cons c s ih =>
    rw [replaceFrom]
    by_cases hc : (!p && c == '&') = true
    · obtain ⟨rfl, rfl⟩ : p = false ∧ c = '&' := by simpa using hc
      -- behind the text that is put in, nothing is protected, as behind the anchor
      rw [if_pos hc, occursFrom_append, hnone, Bool.false_or, hr]
      exact ih false
    · rw [if_neg hc, List.singleton_append, occursFrom, Bool.eq_false_iff.mpr hc, Bool.false_or]
      exact ih (protectsNext p c)

theorem occurs_replace_eq_false {r : List Char} (hr : Neutral r) (hnone : occurs r = false)
    (s : List Char) : occurs (replace r s) = false := by
  rw [occurs_eq_occursFrom, replace_eq_replaceFrom]
  exact occursFrom_replaceFrom_eq_false hr hnone false s

end Anchor

open Anchor

namespace Selector

variable {inner outer : Selector}

/-- The selectors that are read, and those that are put together from them. -/
inductive Derived : Selector → Prop
  | parse {s : String} {sel : Selector} (h : parse s = .ok sel) : Derived sel
  | substitute {inner outer : Selector} (hi : Derived inner) (ho : Derived outer) :
      Derived (inner.substitute outer)

theorem isChain_of_parse {s : String} {sel : Selector} (h : parse s = .ok sel) : sel.IsChain := by
  have hread : read s.toList = .ok sel := read_of_parse (by rwa [String.ofList_toList])
  obtain ⟨c, -, hleads⟩ := leads_of_read hread
  obtain ⟨r, hrun, hfinish⟩ := read_eq_ok hread
  obtain ⟨rfl, -, -, hne⟩ := Reader.finish_eq_ok hfinish
  have hcompounds : ∀ p ∈ r.parts ++ [⟨r.lead, r.compound⟩], p.compound ≠ [] := by
    intro p hp
    rcases List.mem_append.mp hp with hp | hp
    · exact ((Reader.retraced_of_run hrun).1.parts p hp).1
    · obtain rfl := List.mem_singleton.mp hp
      exact hne
  obtain ⟨p, ps, hparts⟩ := List.exists_cons_of_ne_nil
    (List.append_ne_nil_of_right_ne_nil r.parts (List.cons_ne_nil ⟨r.lead, r.compound⟩ []))
  rw [hparts] at hleads hcompounds ⊢
  exact isChain_iff.mpr ⟨hcompounds, hleads.1, hleads.2.2⟩

theorem Derived.isChain {s : Selector} (h : Derived s) : s.IsChain := by
  induction h with
  | parse h => exact isChain_of_parse h
  | substitute _ _ ihi iho => exact ihi.substitute iho

theorem hasAnchor_eq_false_iff {s : Selector} :
    s.hasAnchor = false ↔ ∀ p ∈ s.parts, occurs p.compound = false := by
  simp [hasAnchor, Part.hasAnchor]

theorem not_hasAnchor_expandPart (hneutral : ∀ p ∈ outer.parts, Neutral p.compound)
    (hnone : outer.hasAnchor = false) (p : Part) :
    ∀ q ∈ expandPart outer p, occurs q.compound = false := by
  have houter := hasAnchor_eq_false_iff.mp hnone
  unfold expandPart
  split
  · split
    · next t ht =>
      refine forall_compound_opened (P := fun w => occurs w = false) _ houter fun q hq => ?_
      rw [occurs_append (hneutral q hq), houter q hq, Bool.false_or, occurs_eq_occursFrom]
      exact (eq_cons_and_not_occurs_of_suffix? ht).2
    · intro q hq
      obtain rfl := List.mem_singleton.mp hq
      exact occurs_replace_eq_false (neutral_inlineText hneutral)
        ((occurs_inlineText hneutral).trans hnone) p.compound
  · next hanchor =>
    intro q hq
    obtain rfl := List.mem_singleton.mp hq
    simpa [Part.hasAnchor] using hanchor

theorem hasAnchor_substitute_eq_false (hneutral : ∀ p ∈ outer.parts, Neutral p.compound)
    (hnone : outer.hasAnchor = false) (inner : Selector) : (inner.substitute outer).hasAnchor = false := by
  refine hasAnchor_eq_false_iff.mpr fun q hq => ?_
  unfold substitute at hq
  split at hq
  · obtain ⟨p, -, hq⟩ := List.mem_flatMap.mp hq
    exact not_hasAnchor_expandPart hneutral hnone p q hq
  · next hanchor =>
    rcases List.mem_append.mp hq with hq | hq
    · exact hasAnchor_eq_false_iff.mp hnone q hq
    · exact forall_compound (P := fun w => occurs w = false) (map_compound_withLead _ _)
        (hasAnchor_eq_false_iff.mp (by simpa using hanchor)) q hq

/-- **What holds of every selector.** A selector that was read, or put together from such selectors by any
number of substitutions, has a compound and no empty one, a combinator before every compound but the first,
and no descendant combinator before the first. If it has no anchor, and no compound of it ends in a
backslash that escapes nothing, then no anchor is left in any selector that it is put into. -/
theorem derived_isChain_and_removes_anchors (h : Derived outer) :
    outer.IsChain ∧ (outer.hasAnchor = false →
      (∀ p ∈ outer.parts, Even (trailingBackslashes p.compound)) →
      ∀ inner, Derived inner → (inner.substitute outer).hasAnchor = false) :=
  ⟨h.isChain, fun hnone hneutral inner _ =>
    hasAnchor_substitute_eq_false (fun p hp => neutral_iff.mpr (hneutral p hp)) hnone inner⟩

/-- A relative selector that an item was put into, put into a template with two anchors. -/
theorem derived_isChain_and_removes_anchors_relative :
    let relative : Selector := ⟨[⟨some .child, "a\\&b".toList⟩, ⟨some .nextSibling, "&".toList⟩]⟩
    let outer := relative.substitute ⟨[⟨none, "li".toList⟩]⟩
    let inner : Selector := ⟨[⟨none, "li&".toList⟩, ⟨some .subsequentSibling, "&".toList⟩]⟩
    outer.IsChain ∧ inner.hasAnchor = true ∧ (inner.substitute outer).hasAnchor = false := by
  intro relative outer inner
  have hrelative : Derived relative := .parse (s := "> a\\&b + &") (by decide)
  have hitem : Derived ⟨[⟨none, "li".toList⟩]⟩ := .parse (s := "li") (by decide)
  have hinner : Derived inner := .parse (s := "li& ~ &") (by decide)
  have h := derived_isChain_and_removes_anchors (.substitute hrelative hitem)
  exact ⟨h.1, by decide, h.2 (by decide) (by decide) inner hinner⟩

end Selector
end UtilityCss
