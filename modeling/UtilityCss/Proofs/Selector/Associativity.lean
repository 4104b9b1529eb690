import UtilityCss.Proofs.Selector.Composition
import UtilityCss.Proofs.Selector.Product

/-!
# The laws of substitution

Substitution of selectors is associative, and the selector `&` is neutral on both sides
(`substitution_laws`). Associativity is restricted: an anchor inside a compound is replaced by a text,
which in the end shows whether a whole selector or one compound of it came to stand there. So either the
innermost selector is one compound, or all anchors of the template are opened up.

An opened anchor takes the parts of a selector with a combinator of its own before the first of them, and
a rest of a compound behind the last of them. Expanding these parts once more commutes with both
(`flatMap_expandPart_replaceLead`, `flatMap_expandPart_appendToLast`), since the rest of the compound has no
anchor and its first character is not protected.
-/

namespace UtilityCss

namespace Anchor

theorem suffix?_eq_some_iff {s t : List Char} :
    suffix? s = some t ↔ s = '&' :: t ∧ occurs t = false := by
  rw [occurs_eq_occursFrom]
  refine ⟨eq_cons_and_not_occurs_of_suffix?, ?_⟩
  rintro ⟨rfl, hocc⟩
  have hpieces : pieces ('&' :: t) = [] :: pieces t := rfl
  have hne : pieces t ≠ [] := Text.splitBy_ne_nil _ _
  have hlength : ¬ 1 < (pieces t).length := by
    rw [pieces, one_lt_length_pieces, hocc]
    simp
  have hback : ['&'].intercalate (pieces t) = t := replace_self t
  rw [suffix?, hpieces]
  generalize pieces t = ps at hne hlength hback
  have hpositive : 0 < ps.length := List.length_pos_of_ne_nil hne
  obtain ⟨p, rfl⟩ : ∃ p, ps = [p] := List.length_eq_one_iff.mp (by omega)
  simpa using hback

theorem isSome_suffix?_iff {s : List Char} :
    (suffix? s).isSome = true ↔ s.head? = some '&' ∧ count s = 1 := by
  have hcount (t : List Char) : count ('&' :: t) = 1 ↔ occurs t = false := by
    have hpieces : pieces ('&' :: t) = [] :: pieces t := rfl
    have hpos : 0 < (pieces t).length := List.length_pos_iff.mpr (Text.splitBy_ne_nil _ _)
    rw [occurs, decide_eq_false_iff_not, count, count, hpieces, List.length_cons]
    omega
  rw [Option.isSome_iff_exists]
  constructor
  · rintro ⟨t, ht⟩
    obtain ⟨rfl, hnone⟩ := suffix?_eq_some_iff.mp ht
    exact ⟨rfl, (hcount t).mpr hnone⟩
  · rintro ⟨hhead, hone⟩
    obtain ⟨t, rfl⟩ := List.head?_eq_some_iff.mp hhead
    exact ⟨t, suffix?_eq_some_iff.mpr ⟨rfl, (hcount t).mp hone⟩⟩

theorem suffix?_append {s t : List Char} (hs : Neutral s) (hocc : occurs s = true)
    (ht : occurs t = false) : suffix? (s ++ t) = (suffix? s).map (· ++ t) := by
  obtain ⟨c, s, rfl⟩ : ∃ c u, s = c :: u := by
    cases s with
    | nil => cases hocc
    | cons c s => exact ⟨c, s, rfl⟩
  refine Option.ext fun w => ?_
  rw [suffix?_eq_some_iff, Option.map_eq_some_iff]
  constructor
  · rintro ⟨hcons, hw⟩
    obtain ⟨rfl, htail⟩ := List.cons.inj hcons
    have hneutral : Neutral s := hs
    rw [← htail, List.append_eq, occurs_append hneutral, Bool.or_eq_false_iff] at hw
    exact ⟨s, suffix?_eq_some_iff.mpr ⟨rfl, hw.1⟩, htail⟩
  · rintro ⟨u, hu, rfl⟩
    obtain ⟨hcons, hnone⟩ := suffix?_eq_some_iff.mp hu
    obtain ⟨rfl, rfl⟩ := List.cons.inj hcons
    have hneutral : Neutral s := hs
    exact ⟨rfl, by rw [occurs_append hneutral, hnone, ht]; rfl⟩

end Anchor

open Anchor

namespace Selector

/-! ## Parts that are expanded twice -/

theorem appendToLast_append (t : List Char) (ps : List Part) {qs : List Part} (hqs : qs ≠ []) :
    appendToLast t (ps ++ qs) = ps ++ appendToLast t qs := by
  obtain ⟨qs, q, rfl⟩ := (List.eq_nil_or_concat' qs).resolve_left hqs
  rw [← List.append_assoc, appendToLast_concat, appendToLast_concat, List.append_assoc]

theorem appendToLast_appendToLast (t u : List Char) (ps : List Part) :
    appendToLast t (appendToLast u ps) = appendToLast (u ++ t) ps := by
  obtain rfl | ⟨ps, p, rfl⟩ := List.eq_nil_or_concat' ps
  · rfl
  · simp only [appendToLast_concat, List.append_assoc]

theorem appendToLast_replaceLead (t : List Char) (lead : Option Combinator) (ps : List Part) :
    appendToLast t (replaceLead lead ps) = replaceLead lead (appendToLast t ps) := by
  match ps with
  | [] => rfl
  | [_] => rfl
  | _ :: _ :: _ => rfl

theorem replaceLead_replaceLead (lead lead' : Option Combinator) (ps : List Part) :
    replaceLead lead (replaceLead lead' ps) = replaceLead (lead.or lead') ps := by
  cases ps with
  | nil => rfl
  | cons p ps => simp [replaceLead, Option.or_assoc]

theorem replaceLead_append (lead : Option Combinator) {ps : List Part} (hps : ps ≠ [])
    (qs : List Part) : replaceLead lead (ps ++ qs) = replaceLead lead ps ++ qs := by
  obtain ⟨p, ps, rfl⟩ := List.exists_cons_of_ne_nil hps
  rfl

variable {p : Selector}

theorem expandPart_of_not_occurs {q : Part} (h : ¬ occurs q.compound = true) :
    expandPart p q = [q] := by
  have hanchor : ¬ q.hasAnchor = true := h
  rw [expandPart, if_neg hanchor]

theorem expandPart_of_suffix? {q : Part} {t : List Char} (h : suffix? q.compound = some t) :
    expandPart p q = appendToLast t (replaceLead q.combinator p.parts) := by
  have hanchor : q.hasAnchor = true := by
    rw [Part.hasAnchor, eq_cons_of_suffix? h, occurs_eq_occursFrom]
    rfl
  rw [expandPart, if_pos hanchor, h]

theorem expandPart_of_suffix?_eq_none {q : Part} (hocc : occurs q.compound = true)
    (h : suffix? q.compound = none) :
    expandPart p q = [{ q with compound := replace p.inlineText q.compound }] := by
  have hanchor : q.hasAnchor = true := hocc
  rw [expandPart, if_pos hanchor, h]

theorem expandPart_ne_nil (hp : p.parts ≠ []) (q : Part) : expandPart p q ≠ [] := by
  unfold expandPart
  split
  · split
    · obtain ⟨ps, r, hparts⟩ := (List.eq_nil_or_concat' p.parts).resolve_left hp
      rw [appendToLast_replaceLead, hparts, appendToLast_concat]
      cases ps <;> simp [replaceLead]
    · simp
  · simp

theorem expandPart_append {w t : List Char} (hw : Neutral w) (ht : occurs t = false)
    (lead : Option Combinator) :
    expandPart p ⟨lead, w ++ t⟩ = appendToLast t (expandPart p ⟨lead, w⟩) := by
  have hocc : occurs (w ++ t) = occurs w := by rw [occurs_append hw, ht, Bool.or_false]
  by_cases h : occurs w = true
  · have happend := suffix?_append hw h ht
    cases hsuffix : suffix? w with
    | some u =>
      rw [hsuffix] at happend
      rw [expandPart_of_suffix? happend, expandPart_of_suffix? hsuffix, appendToLast_appendToLast]
    | none =>
      rw [hsuffix] at happend
      rw [expandPart_of_suffix?_eq_none (hocc.trans h) happend, expandPart_of_suffix?_eq_none h hsuffix]
      simp [replace_append hw, replace_of_not_occurs ht, appendToLast]
  · have h' : ¬ occurs (w ++ t) = true := by rwa [hocc]
    rw [expandPart_of_not_occurs h', expandPart_of_not_occurs h]
    rfl

theorem expandPart_lead (lead lead' : Option Combinator) (w : List Char) :
    expandPart p ⟨lead.or lead', w⟩ = replaceLead lead (expandPart p ⟨lead', w⟩) := by
  by_cases h : occurs w = true
  · cases hsuffix : suffix? w with
    | some u =>
      rw [expandPart_of_suffix? hsuffix, expandPart_of_suffix? hsuffix, ← appendToLast_replaceLead,
        replaceLead_replaceLead]
    | none =>
      rw [expandPart_of_suffix?_eq_none h hsuffix, expandPart_of_suffix?_eq_none h hsuffix]
      rfl
  · rw [expandPart_of_not_occurs h, expandPart_of_not_occurs h]
    rfl

theorem flatMap_expandPart_replaceLead (hp : p.parts ≠ []) (lead : Option Combinator)
    (ps : List Part) :
    (replaceLead lead ps).flatMap (expandPart p) = replaceLead lead (ps.flatMap (expandPart p)) := by
  cases ps with
  | nil => rfl
  | cons q ps =>
    rw [List.flatMap_cons, replaceLead_append lead (expandPart_ne_nil hp q), ← expandPart_lead]
    rfl

theorem flatMap_expandPart_appendToLast (hp : p.parts ≠ []) {t : List Char} (ht : occurs t = false)
    {ps : List Part} (hps : ∀ q ∈ ps, Neutral q.compound) :
    (appendToLast t ps).flatMap (expandPart p) = appendToLast t (ps.flatMap (expandPart p)) := by
  obtain rfl | ⟨ps, q, rfl⟩ := List.eq_nil_or_concat' ps
  · rfl
  · have hq : Neutral q.compound := hps q (by simp)
    rw [appendToLast_concat, List.flatMap_append, List.flatMap_append, List.flatMap_singleton,
      List.flatMap_singleton, expandPart_append hq ht,
      appendToLast_append t _ (expandPart_ne_nil hp q)]

theorem flatMap_expandPart_expandPart {a : Selector} (ha : ∀ q ∈ a.parts, Neutral q.compound)
    (hanchor : a.hasAnchor = true) (hp : p.parts ≠ []) {q : Part}
    (hq : q.hasAnchor = true → (suffix? q.compound).isSome = true) :
    (expandPart a q).flatMap (expandPart p) = expandPart (a.substitute p) q := by
  by_cases hocc : q.hasAnchor = true
  · obtain ⟨t, ht⟩ := Option.isSome_iff_exists.mp (hq hocc)
    have hnone := (suffix?_eq_some_iff.mp ht).2
    have hlead : ∀ x ∈ replaceLead q.combinator a.parts, Neutral x.compound :=
      forall_compound (P := Neutral) (map_compound_replaceLead _ _) ha
    rw [expandPart_of_suffix? ht, expandPart_of_suffix? ht, substitute, if_pos hanchor,
      flatMap_expandPart_appendToLast hp hnone hlead, flatMap_expandPart_replaceLead hp]
  · rw [expandPart_of_not_occurs hocc, expandPart_of_not_occurs hocc, List.flatMap_singleton,
      expandPart_of_not_occurs hocc]

/-! ## Whole selectors -/

theorem parts_ne_nil_of_parse {s : String} {sel : Selector} (h : parse s = .ok sel) :
    sel.parts ≠ [] := by
  have hread : read s.toList = .ok sel := read_of_parse (by rwa [String.ofList_toList])
  obtain ⟨r, -, hfinish⟩ := read_eq_ok hread
  obtain ⟨rfl, -⟩ := Reader.finish_eq_ok hfinish
  simp

theorem substitute_substitute_of_not_hasAnchor {a b : Selector} (ha : a.hasAnchor = true)
    (hb : b.hasAnchor = false) (p : Selector) :
    (b.substitute a).substitute p = b.substitute (a.substitute p) := by
  have hparts : (b.substitute a).parts = a.parts ++ withLead .descendant b.parts := by
    rw [substitute, if_neg (by simp [hb])]
  have hanchor : (b.substitute a).hasAnchor = true := by
    rw [hasAnchor, hparts, List.any_append]
    exact Bool.or_eq_true_iff.mpr (.inl ha)
  have hnone : ∀ q ∈ withLead .descendant b.parts, ¬ q.hasAnchor = true := by
    refine forall_compound (P := fun w => ¬ occurs w = true) (map_compound_withLead _ _) ?_
    intro q hq hocc
    rw [hasAnchor_iff.mpr ⟨q, hq, hocc⟩] at hb
    cases hb
  have hrest : (withLead .descendant b.parts).flatMap (expandPart p) = withLead .descendant b.parts := by
    rw [List.flatMap_congr fun q hq => expandPart_of_not_occurs (hnone q hq)]
    exact List.flatMap_singleton' _
  rw [substitute, if_pos hanchor, hparts, List.flatMap_append, hrest]
  conv_rhs => rw [substitute, if_neg (by simp [hb]), substitute, if_pos ha]

theorem substitute_substitute_of_leading {a b p : Selector} (ha : ∀ q ∈ a.parts, Neutral q.compound)
    (hanchor : a.hasAnchor = true) (hp : p.parts ≠ []) (hb : b.hasAnchor = true)
    (hlead : ∀ q ∈ b.parts, q.hasAnchor = true → (suffix? q.compound).isSome = true) :
    (b.substitute a).substitute p = b.substitute (a.substitute p) := by
  have hocc : (b.substitute a).hasAnchor = true := hasAnchor_substitute ha hb hanchor
  rw [substitute, if_pos hocc]
  conv_rhs => rw [substitute, if_pos hb]
  have hparts : (b.substitute a).parts = b.parts.flatMap (expandPart a) := by
    rw [substitute, if_pos hb]
  rw [hparts, List.flatMap_assoc,
    List.flatMap_congr fun q hq => flatMap_expandPart_expandPart ha hanchor hp (hlead q hq)]

/-- The selector `&`, which stands for whatever it is put into. -/
def anchor : Selector := ofCompound ['&']

theorem substitute_anchor {b : Selector} (hb : b.hasAnchor = true) : b.substitute anchor = b := by
  rw [anchor, substitute_ofCompound hb, mapCompounds]
  have hid : Part.mapCompound (replace ['&']) = id := funext fun q => by
    simp [Part.mapCompound, replace_self]
  rw [hid, List.map_id]

theorem anchor_substitute (p : Selector) : anchor.substitute p = p := by
  have hsuffix : suffix? ['&'] = some [] := rfl
  have hexpand : expandPart p ⟨none, ['&']⟩ = p.parts := by
    rw [expandPart_of_suffix? hsuffix]
    obtain h | ⟨ps, q, h⟩ := List.eq_nil_or_concat' p.parts
    · rw [h]
      rfl
    · have hlead : replaceLead none p.parts = p.parts := by cases p.parts <;> rfl
      rw [hlead, h, appendToLast_concat, List.append_nil]
  rw [substitute, if_pos (by rfl)]
  show Selector.mk ([⟨none, ['&']⟩].flatMap (expandPart p)) = p
  rw [List.flatMap_singleton, hexpand]

/-- **Substitution is associative, and `&` is its unit.** Two anchored templates can be put together before
or after a selector is put into them, if no compound of the outer template ends in a backslash that
escapes nothing, and if the selector is one compound or every anchor of the inner template starts its
compound and is the only one of it. An inner template without anchors will do as well. The selector `&` in
the place of anchors, and any selector in the place of `&`, change nothing. -/
theorem substitution_laws {s : String} {p : Selector} (hp : parse s = .ok p) (a b : Selector) :
    (a.hasAnchor = true → (∀ q ∈ a.parts, Even (trailingBackslashes q.compound)) →
      (p.isCompound = true ∨
        ∀ q ∈ b.parts, q.hasAnchor = true → q.compound.head? = some '&' ∧ count q.compound = 1) →
      (b.substitute a).substitute p = b.substitute (a.substitute p)) ∧
    parse "&" = .ok anchor ∧ (b.hasAnchor = true → b.substitute anchor = b) ∧
      anchor.substitute p = p := by
  refine ⟨fun ha hneutral h => ?_, by decide, substitute_anchor, anchor_substitute p⟩
  replace hneutral : ∀ q ∈ a.parts, Neutral q.compound := fun q hq => neutral_iff.mpr (hneutral q hq)
  cases hb : b.hasAnchor with
  | false => exact substitute_substitute_of_not_hasAnchor ha hb p
  | true =>
    obtain hcompound | hlead := h
    · obtain ⟨w, hw⟩ := isCompound_iff.mp hcompound
      obtain rfl : p = ofCompound w := by
        obtain ⟨parts⟩ := p
        exact congrArg Selector.mk hw
      exact (substitute_assoc hneutral hb ha w).symm
    · exact substitute_substitute_of_leading hneutral ha (parts_ne_nil_of_parse hp) hb
        fun q hq hocc => isSome_suffix?_iff.mpr (hlead q hq hocc)

/-- The template `.dark &:hover`. -/
def darkHover : Selector := ⟨[⟨none, ".dark".toList⟩, ⟨some .descendant, "&:hover".toList⟩]⟩

/-- The template `& > &.on`, whose anchors are opened up. -/
def onChild : Selector := ⟨[⟨none, ['&']⟩, ⟨some .child, "&.on".toList⟩]⟩

/-- The template `li& + :not(&)`, whose anchors are replaced by texts. -/
def notNext : Selector := ⟨[⟨none, "li&".toList⟩, ⟨some .nextSibling, ":not(&)".toList⟩]⟩

theorem substitution_laws_darkHover :
    darkHover.hasAnchor = true ∧ (∀ q ∈ darkHover.parts, Even (trailingBackslashes q.compound)) ∧
      ((onChild.substitute darkHover).substitute ⟨[⟨none, ".x".toList⟩, ⟨some .child, ".y".toList⟩]⟩).text =
        ".dark .x > .y:hover > .dark .x > .y:hover.on".toList ∧
      ((notNext.substitute darkHover).substitute (ofCompound ".x".toList)).text =
        "li:is(.dark .x:hover) + :not(:is(.dark .x:hover))".toList := by
  have hanchor : darkHover.hasAnchor = true := by decide
  have hpaired : ∀ q ∈ darkHover.parts, Even (trailingBackslashes q.compound) := by decide
  have hcomplex : parse ".x > .y" = .ok ⟨[⟨none, ".x".toList⟩, ⟨some .child, ".y".toList⟩]⟩ := by decide
  have hcompound : parse ".x" = .ok (ofCompound ".x".toList) := by decide
  refine ⟨hanchor, hpaired, ?_, ?_⟩
  · rw [(substitution_laws hcomplex darkHover onChild).1 hanchor hpaired (.inr (by decide))]
    decide
  · rw [(substitution_laws hcompound darkHover notNext).1 hanchor hpaired (.inl rfl)]
    decide

/-- A text in place of an anchor shows what was put in first. -/
example :
    let whole : Selector := ⟨[⟨none, ".x".toList⟩, ⟨some .child, ".y".toList⟩]⟩
    ((notNext.substitute darkHover).substitute whole).text ≠
      (notNext.substitute (darkHover.substitute whole)).text := by decide

end Selector
end UtilityCss
