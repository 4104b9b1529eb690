import Mathlib.Data.List.Infix
import UtilityCss.Proofs.Selector.Composition
import UtilityCss.Proofs.Selector.Product

/-!
# Plain templates

A selector list is a plain template if it can be read, has neither escapes nor strings, closes no
bracket before it is opened, and has an ampersand in every member. In such a text the splitter knows
nothing but the number of open brackets (`after_of_plain`), every ampersand is an anchor, and every
selector that is read from it is in normal form and has an anchor (`IsPlainTemplate.template`).
-/

namespace UtilityCss

open ListState

namespace Selector

/-- A selector list that stands for elements inside others in every member. -/
structure IsPlainTemplate (a : String) : Prop where
  readable : ∃ ss, parseList a = .ok ss
  unescaped : '\\' ∉ a.toList
  unquoted : ∀ c ∈ a.toList, isQuote c = false
  nested : ∀ u, u <+: a.toList → u.countP isCloser ≤ u.countP isOpener
  anchored : ∀ m ∈ members a.toList, '&' ∈ m

instance (a : String) : Decidable (IsPlainTemplate a) :=
  decidable_of_iff ((parseList a).toBool = true ∧ '\\' ∉ a.toList ∧
      (a.toList.all fun c => !isQuote c) = true ∧
      (∀ u ∈ a.toList.inits, u.countP isCloser ≤ u.countP isOpener) ∧
      ∀ m ∈ members a.toList, '&' ∈ m) <| by
    have hread : (parseList a).toBool = true ↔ ∃ ss, parseList a = .ok ss := by
      cases parseList a <;> simp [Except.toBool]
    rw [hread]
    constructor
    · rintro ⟨hreadable, hesc, hquote, hnested, hanchored⟩
      refine ⟨hreadable, hesc, fun c hc => ?_, fun u hu => ?_, hanchored⟩
      · simpa using List.all_eq_true.mp hquote c hc
      · exact hnested u ((List.mem_inits u _).mpr hu)
    · rintro ⟨hreadable, hesc, hquote, hnested, hanchored⟩
      refine ⟨hreadable, hesc, List.all_eq_true.mpr fun c hc => ?_, fun u hu => ?_, hanchored⟩
      · simpa using hquote c hc
      · exact hnested u ((List.mem_inits u _).mp hu)

end Selector

/-- Without escapes and strings only brackets are counted. -/
theorem after_of_plain {s : List Char} (hesc : '\\' ∉ s) (hquote : ∀ c ∈ s, isQuote c = false)
    (k : Int) : ListState.after ⟨false, none, k⟩ s =
      ⟨false, none, k + (s.countP isOpener : Int) - (s.countP isCloser : Int)⟩ := by
  induction s generalizing k with
  | nil => simp
  | cons c s ih =>
    have hbackslash : c ≠ '\\' := by
      rintro rfl
      exact hesc (by simp)
    have hq := hquote c (by simp)
    have hrest := ih (fun h => hesc (List.mem_cons_of_mem _ h)) fun d hd => hquote d (by simp [hd])
    rw [after_cons]
    by_cases ho : isOpener c = true
    · have hl : isCloser c = false := by
        simp only [isOpener, Bool.or_eq_true, beq_iff_eq] at ho
        rcases ho with rfl | rfl <;> rfl
      have hnext : ListState.next ⟨false, none, k⟩ c = ⟨false, none, k + 1⟩ := by
        simp [next, hbackslash, hq, ho]
      rw [hnext, hrest, List.countP_cons, List.countP_cons, ho, hl]
      simp only [if_true, Bool.false_eq_true, if_false, ListState.mk.injEq, true_and]
      omega
    · by_cases hl : isCloser c = true
      · have hnext : ListState.next ⟨false, none, k⟩ c = ⟨false, none, k - 1⟩ := by
          simp [next, hbackslash, hq, ho, hl]
        rw [hnext, hrest, List.countP_cons, List.countP_cons, if_neg ho, if_pos hl]
        simp only [ListState.mk.injEq, true_and]
        omega
      · have hnext : ListState.next ⟨false, none, k⟩ c = ⟨false, none, k⟩ := by
          simp [next, hbackslash, hq, ho, hl]
        rw [hnext, hrest, List.countP_cons, List.countP_cons, if_neg ho, if_neg hl]
        rfl

theorem along_of_forall_append {P : ListState → Char → Prop} {st : ListState} {s : List Char}
    (h : ∀ u c v, s = u ++ c :: v → P (st.after u) c) : Along P st s := by
  induction s generalizing st with
  | nil => trivial
  | cons c s ih =>
    refine ⟨h [] c s rfl, ih ?_⟩
    intro u d v hs
    exact h (c :: u) d v (by rw [hs]; rfl)

/-- A character of a text without escapes and strings, with brackets in order. -/
def Plain (st : ListState) (c : Char) : Prop :=
  (0 ≤ (st.next c).depth ∧ st.escaped = false ∧ st.quote = none) ∧ c ≠ '\\'

theorem tame_of_plain {st : ListState} {c : Char} (h : Plain st c) : Selector.Tame st c := by
  obtain ⟨⟨hdepth, hesc, hquote⟩, -⟩ := h
  refine ⟨⟨hdepth, fun hescaped => ?_, fun _ => id⟩, fun _ _ => hquote⟩
  rw [hesc] at hescaped
  cases hescaped

theorem Selector.IsPlainTemplate.along {a : String} (h : IsPlainTemplate a) :
    Along Plain ListState.start a.toList := by
  apply along_of_forall_append
  intro u c v hs
  have hmem : ∀ d, d ∈ u ++ [c] → d ∈ a.toList := by
    intro d hd
    rw [hs]
    rcases List.mem_append.mp hd with hd | hd
    · exact List.mem_append_left _ hd
    · exact List.mem_append_right _ (List.mem_cons.mpr (.inl (List.mem_singleton.mp hd)))
  have hstate : ∀ w, (∀ d ∈ w, d ∈ a.toList) → ListState.start.after w =
      ⟨false, none, 0 + (w.countP isOpener : Int) - (w.countP isCloser : Int)⟩ := by
    intro w hw
    exact after_of_plain (fun hd => h.unescaped (hw _ hd)) (fun d hd => h.unquoted d (hw d hd)) 0
  have hu := hstate u fun d hd => hmem d (by simp [hd])
  have huc := hstate (u ++ [c]) hmem
  have hnested := h.nested (u ++ [c]) ⟨v, by rw [hs]; simp⟩
  rw [after_append] at huc
  have hnext : (ListState.start.after u).next c = _ := huc
  refine ⟨⟨?_, by rw [hu], by rw [hu]⟩, ?_⟩
  · rw [hnext]
    show 0 ≤ 0 + ((u ++ [c]).countP isOpener : Int) - ((u ++ [c]).countP isCloser : Int)
    omega
  · rintro rfl
    exact h.unescaped (hmem _ (by simp))

theorem occurs_of_mem {s : List Char} (hesc : '\\' ∉ s) (h : '&' ∈ s) :
    Anchor.occurs s = true := by
  rw [Anchor.occurs_eq_occursFrom]
  induction s with
  | nil => cases h
  | cons c s ih =>
    have hbackslash : c ≠ '\\' := by
      rintro rfl
      exact hesc (by simp)
    rw [Anchor.occursFrom, Bool.or_eq_true]
    rcases List.mem_cons.mp h with rfl | h
    · exact .inl rfl
    · have hnext : Anchor.protectsNext false c = false := by simp [Anchor.protectsNext, hbackslash]
      rw [hnext]
      exact .inr (ih (fun hd => hesc (List.mem_cons_of_mem _ hd)) h)

theorem neutral_of_not_mem {s : List Char} (h : ∀ c ∈ s, c ≠ '\\') : Anchor.Neutral s := by
  induction s with
  | nil => rfl
  | cons c s ih =>
    have hnext : Anchor.protectsNext false c = false := by
      simp [Anchor.protectsNext, h c (by simp)]
    show Anchor.protectedAfter (Anchor.protectsNext false c) s = false
    rw [hnext]
    exact ih fun d hd => h d (by simp [hd])

theorem forall_of_along {P : ListState → Char → Prop} {Q : Char → Prop} (hPQ : ∀ st c, P st c → Q c)
    {st : ListState} {s : List Char} (h : Along P st s) : ∀ c ∈ s, Q c := by
  induction s generalizing st with
  | nil => simp
  | cons c s ih =>
    intro d hd
    rcases List.mem_cons.mp hd with rfl | hd
    · exact hPQ _ _ h.1
    · exact ih h.2 d hd

namespace Selector

/-- A selector that others can be put into. -/
structure Template (s : Selector) : Prop where
  normal : s.IsNormal
  anchorOutside : ∀ p ∈ s.parts, Along AnchorOutside ListState.start p.compound
  hasAnchor : s.hasAnchor = true

theorem IsPlainTemplate.template {a : String} (h : IsPlainTemplate a) :
    Anchor.occurs a.toList = true ∧ ∃ ss, parseList a = .ok ss ∧ ss ≠ [] ∧ ∀ s ∈ ss, s.Template := by
  obtain ⟨ss, hss⟩ := h.readable
  obtain ⟨hne, hread⟩ := mem_of_parseList hss
  have halong := h.along
  have hmembers : members a.toList ≠ [] := Text.splitBy_ne_nil _ _
  obtain ⟨m, hm⟩ := List.exists_mem_of_ne_nil _ hmembers
  refine ⟨occurs_of_mem h.unescaped ((along_member halong hm).2 _ (h.anchored m hm)), ss, hss, hne, ?_⟩
  intro s hs
  obtain ⟨m, hm, hsm⟩ := hread s hs
  have hplain : Along Plain ListState.start (Text.trim m) := along_trim (along_member halong hm).1
  have hneutral := neutral_of_not_mem (forall_of_along (Q := fun c => c ≠ '\\') (fun _ _ hc => hc.2)
    hplain)
  have hesc : (ListState.start.after (Text.trim m)).escaped = false := by
    rw [escaped_after]
    exact hneutral
  obtain ⟨hnormal, hout⟩ := isNormal_of_read hsm (hplain.imp fun _ _ => tame_of_plain) hesc
  refine ⟨hnormal, hout, ?_⟩
  -- the ampersand of the member stands in some compound, where nothing is escaped
  have hamp : ['&'] <:+: Text.trim m := by
    refine Text.isInfix_trim ⟨by simp [Text.isBlank], by simp [Text.isBlank]⟩ ?_
    obtain ⟨u, v, huv⟩ := List.append_of_mem (h.anchored m hm)
    exact ⟨u, v, by simp [huv]⟩
  have hsolid : ∀ st, Along Reader.Solid st ['&'] := fun st =>
    ⟨fun _ => by decide, trivial⟩
  obtain ⟨p, hp, hwithin⟩ := isInfix_compound_of_read hsm (by simp) hsolid hamp
  have hcompound := ((isReadFrom_of_read hsm hplain hesc).finished p hp).holds
  refine hasAnchor_iff.mpr ⟨p, hp, occurs_of_mem (fun hmem => ?_) (hwithin.subset (by simp))⟩
  exact forall_of_along (Q := fun c => c ≠ '\\') (fun _ _ hc => hc.1.2) hcompound _ hmem rfl

end Selector
end UtilityCss
