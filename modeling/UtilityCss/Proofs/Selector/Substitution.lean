import Mathlib.Data.List.Basic
import UtilityCss.Proofs.Selector.Anchors
import UtilityCss.Selector.Nesting
import UtilityCss.Text.Character

/-!
# Substitution of selectors

A selector is `Sound` if its compounds are closed texts and it does not end in a blank. Putting a sound
selector in place of the anchors of a sound template gives a sound selector (`Sound.substitute`), and
what stood in a compound of the outer selector stands in one of the new selector
(`isInfix_substitute`).
-/

namespace UtilityCss

open ListState

variable {esc stop : Char → Prop}

/-! ## Texts -/

theorem closed_mark (c : Combinator) : Closed esc (· = ',') c.mark := by
  cases c with
  | descendant => exact closed_nil
  | child => exact closed_singleton rfl (by decide)
  | nextSibling => exact closed_singleton rfl (by decide)
  | subsequentSibling => exact closed_singleton rfl (by decide)

theorem closed_space : Closed esc (· = ',') [' '] := closed_singleton rfl (by decide)

namespace Selector

theorem text_of_append {P : List Char → Prop} (hnil : P []) (happend : ∀ s t, P s → P t → P (s ++ t))
    (hspace : P [' ']) (hmark : ∀ c : Combinator, P c.mark) {s : Selector}
    (h : ∀ p ∈ s.parts, P p.compound) : P s.text := by
  have hbetween : ∀ c : Combinator, P c.between := by
    intro c
    have hwide : P ([' '] ++ (c.mark ++ [' '])) :=
      happend _ _ hspace (happend _ _ (hmark c) hspace)
    cases c with
    | descendant => exact hspace
    | child => exact hwide
    | nextSibling => exact hwide
    | subsequentSibling => exact hwide
  have hleading : ∀ p : Part, P p.compound → P p.leadingText := by
    rintro ⟨_ | c, w⟩ hw
    · exact hw
    · exact happend _ _ (hmark c) (happend _ _ hspace hw)
  unfold text
  split
  · exact hnil
  · next p ps hp =>
    rw [hp] at h
    refine happend _ _ (hleading p (h p (by simp))) ?_
    replace h : ∀ q ∈ ps, P q.compound := fun q hq => h q (by simp [hq])
    clear hp
    induction ps with
    | nil => exact hnil
    | cons q ps ih =>
      rw [List.flatMap_cons]
      have hq : P q.followingText := happend _ _ (hbetween _) (h q (by simp))
      exact happend _ _ hq (ih fun r hr => h r (by simp [hr]))

theorem intercalate_of_append {P : List Char → Prop} (hnil : P [])
    (happend : ∀ s t, P s → P t → P (s ++ t)) {sep : List Char} (hsep : P sep) {ts : List (List Char)}
    (hts : ∀ t ∈ ts, P t) : P (sep.intercalate ts) := by
  induction ts with
  | nil => exact hnil
  | cons t ts ih =>
    have ht := hts t (by simp)
    by_cases hne : ts = []
    · subst hne
      simpa using ht
    · rw [List.intercalate_cons_of_ne_nil hne]
      exact happend _ _ (happend _ _ ht hsep) (ih fun x hx => hts x (by simp [hx]))

theorem closed_text {s : Selector} (h : ∀ p ∈ s.parts, Closed esc (· = ',') p.compound) :
    Closed esc (· = ',') s.text :=
  text_of_append closed_nil (fun _ _ => Closed.append) closed_space closed_mark h

theorem isInfix_text {s : Selector} {p : Part} (hp : p ∈ s.parts) : p.compound <:+: s.text := by
  have hlead : ∀ q : Part, q.compound <:+: q.leadingText := by
    rintro ⟨_ | c, w⟩
    · exact List.infix_rfl
    · exact List.infix_append_of_infix_right (List.suffix_cons ' ' w).isInfix
  unfold text
  split
  · next h => simp [h] at hp
  · next q qs h =>
    rw [h] at hp
    rcases List.mem_cons.mp hp with rfl | hp
    · exact List.infix_append_of_infix_left (hlead p)
    · obtain ⟨l, r, rfl⟩ := List.append_of_mem hp
      rw [List.flatMap_append, List.flatMap_cons]
      refine List.infix_append_of_infix_right (List.infix_append_of_infix_right ?_)
      exact List.infix_append_of_infix_left List.infix_append_right

/-- A selector whose compounds are closed texts, and which does not end in a blank. -/
structure Sound (esc stop : Char → Prop) (s : Selector) : Prop where
  compounds : ∀ p ∈ s.parts, p.compound ≠ [] ∧ Closed esc stop p.compound
  last : ∃ ps p, s.parts = ps ++ [p] ∧ ∀ c, p.compound.getLast? = some c → Text.isBlank c = false

theorem isCompound_iff {s : Selector} : s.isCompound = true ↔ ∃ w, s.parts = [⟨none, w⟩] := by
  unfold isCompound
  split
  · next p h =>
    obtain ⟨c, w⟩ := p
    simp [h, Option.isNone_iff_eq_none]
  · next h => exact ⟨fun h' => absurd h' (by decide), fun ⟨w, hw⟩ => absurd hw (h _)⟩

theorem inlineText_of_isCompound {s : Selector} {w : List Char} (h : s.parts = [⟨none, w⟩]) :
    s.inlineText = w := by
  rw [inlineText, if_pos (isCompound_iff.mpr ⟨w, h⟩), h]
  simp

theorem Sound.closed_text {s : Selector} (hcomma : stop ',') (h : s.Sound esc stop) :
    Closed esc (· = ',') s.text :=
  Selector.closed_text fun p hp => (h.compounds p hp).2.imp (by rintro c rfl; exact hcomma)

theorem Sound.inlineText {s : Selector} (hcomma : stop ',')
    (hstop : ∀ c ∈ [':', 'i', 's', '('], ¬ stop c) (h : s.Sound esc stop) :
    Closed esc stop s.inlineText ∧ s.inlineText ≠ [] ∧
      ∀ c, s.inlineText.getLast? = some c → Text.isBlank c = false := by
  by_cases hc : s.isCompound = true
  · obtain ⟨w, hw⟩ := isCompound_iff.mp hc
    obtain ⟨ps, p, hp, hlast⟩ := h.last
    obtain rfl : p = ⟨none, w⟩ := by
      have := congrArg List.getLast? (hp.symm.trans hw)
      simpa using this
    have := h.compounds ⟨none, w⟩ (by simp [hw])
    rw [inlineText_of_isCompound hw]
    exact ⟨this.2, this.1, hlast⟩
  · rw [Selector.inlineText, if_neg hc]
    refine ⟨(h.closed_text hcomma).inIs hstop, by simp, fun c hc => ?_⟩
    rw [List.getLast?_concat] at hc
    obtain rfl := Option.some.inj hc
    decide

/-! ## The parts that are put in -/

theorem appendToLast_concat (t : List Char) (ps : List Part) (p : Part) :
    appendToLast t (ps ++ [p]) = ps ++ [{ p with compound := p.compound ++ t }] := by
  induction ps with
  | nil => rfl
  | cons q ps ih =>
    cases ps with
    | nil => rfl
    | cons r ps => simpa [appendToLast] using ih

theorem map_compound_replaceLead (lead : Option Combinator) (ps : List Part) :
    (replaceLead lead ps).map Part.compound = ps.map Part.compound := by
  cases ps <;> rfl

theorem map_compound_withLead (c : Combinator) (ps : List Part) :
    (withLead c ps).map Part.compound = ps.map Part.compound := by
  cases ps <;> rfl

theorem forall_compound {P : List Char → Prop} {ps qs : List Part}
    (h : ps.map Part.compound = qs.map Part.compound) (hq : ∀ q ∈ qs, P q.compound) :
    ∀ p ∈ ps, P p.compound := by
  intro p hp
  have hmem : p.compound ∈ qs.map Part.compound := h ▸ List.mem_map_of_mem hp
  obtain ⟨q, hq', heq⟩ := List.mem_map.mp hmem
  exact heq ▸ hq q hq'

theorem exists_concat_of_map {ps qs : List Part} {p : Part}
    (h : qs.map Part.compound = (ps ++ [p]).map Part.compound) :
    ∃ qs' q, qs = qs' ++ [q] ∧ q.compound = p.compound ∧
      qs'.map Part.compound = ps.map Part.compound := by
  rw [List.map_append, List.map_eq_append_iff] at h
  obtain ⟨qs', l, rfl, hqs, hl⟩ := h
  obtain ⟨q, rfl, hq⟩ := List.map_eq_singleton_iff.mp hl
  exact ⟨qs', q, rfl, hq, hqs⟩

theorem map_compound_opened (lead : Option Combinator) (ps : List Part) (p : Part) (t : List Char) :
    (appendToLast t (replaceLead lead (ps ++ [p]))).map Part.compound =
      ps.map Part.compound ++ [p.compound ++ t] := by
  obtain ⟨qs, q, hqs, hq, hmap⟩ := exists_concat_of_map (map_compound_replaceLead lead (ps ++ [p]))
  rw [hqs, appendToLast_concat, List.map_append, hmap]
  simp [hq]

theorem getLast?_replace {r s : List Char} (hr : r ≠ []) {c : Char}
    (h : (Anchor.replace r s).getLast? = some c) : r.getLast? = some c ∨ s.getLast? = some c := by
  rw [Anchor.replace_eq_replaceFrom] at h
  rcases List.eq_nil_or_concat s with rfl | ⟨s, d, rfl⟩
  · simp [Anchor.replaceFrom] at h
  · rw [List.concat_eq_append, Anchor.replaceFrom_append, Anchor.replaceFrom, Anchor.replaceFrom,
      List.append_nil] at h
    split at h
    · rw [List.getLast?_append_of_ne_nil _ hr] at h
      exact .inl h
    · exact .inr (by simpa using h)

theorem replace_ne_nil {r s : List Char} (hr : r ≠ []) (hs : s ≠ []) : Anchor.replace r s ≠ [] := by
  rw [Anchor.replace_eq_replaceFrom]
  obtain ⟨c, s, rfl⟩ := List.exists_cons_of_ne_nil hs
  rw [Anchor.replaceFrom]
  split <;> simp [hr]

theorem Sound.opened {outer : Selector} (ho : outer.Sound esc stop) (lead : Option Combinator)
    {t : List Char} (ht : Closed esc stop t) :
    (∀ q ∈ appendToLast t (replaceLead lead outer.parts),
      q.compound ≠ [] ∧ Closed esc stop q.compound) ∧
      ∃ qs q, appendToLast t (replaceLead lead outer.parts) = qs ++ [q] ∧
        ((∀ c, t.getLast? = some c → Text.isBlank c = false) →
          ∀ c, q.compound.getLast? = some c → Text.isBlank c = false) := by
  obtain ⟨ps, last, hps, hlast⟩ := ho.last
  have hlead : (replaceLead lead outer.parts).map Part.compound =
      (ps ++ [last]).map Part.compound := by rw [map_compound_replaceLead, hps]
  obtain ⟨qs, q, hqs, hq, hmap⟩ := exists_concat_of_map hlead
  have hcompounds := ho.compounds
  rw [hps] at hcompounds
  rw [hqs, appendToLast_concat]
  refine ⟨fun x hx => ?_, qs, _, rfl, fun hblank c hc => ?_⟩
  · rcases List.mem_append.mp hx with hx | hx
    · exact forall_compound (P := fun w => w ≠ [] ∧ Closed esc stop w) hmap
        (fun y hy => hcompounds y (List.mem_append_left _ hy)) x hx
    · obtain rfl := List.mem_singleton.mp hx
      have := hcompounds last (by simp)
      simp only [hq]
      exact ⟨by simp [this.1], this.2.append ht⟩
  · simp only [hq] at hc
    by_cases hnil : t = []
    · subst hnil
      exact hlast c (by simpa using hc)
    · rw [List.getLast?_append_of_ne_nil _ hnil] at hc
      exact hblank c hc

theorem Sound.expandPart {outer : Selector} (hcomma : stop ',')
    (hstop : ∀ c ∈ [':', 'i', 's', '('], ¬ stop c) (ho : outer.Sound esc stop) {p : Part}
    (hp : p.compound ≠ [] ∧ Closed esc stop p.compound) (hout : Along AnchorOutside start p.compound) :
    (∀ q ∈ expandPart outer p, q.compound ≠ [] ∧ Closed esc stop q.compound) ∧
      ∃ qs q, expandPart outer p = qs ++ [q] ∧
        ((∀ c, p.compound.getLast? = some c → Text.isBlank c = false) →
          ∀ c, q.compound.getLast? = some c → Text.isBlank c = false) := by
  unfold Selector.expandPart
  split
  · split
    · next t ht =>
      obtain ⟨hcomp, -⟩ := Anchor.eq_cons_and_not_occurs_of_suffix? ht
      have htclosed : Closed esc stop t :=
        Closed.of_append_left (s := ['&']) (by simpa [hcomp] using hp.2) rfl
      obtain ⟨hcompounds, qs, q, hqs, hq⟩ := ho.opened p.combinator htclosed
      refine ⟨hcompounds, qs, q, hqs, fun hblank => hq fun c hc => hblank c ?_⟩
      rw [hcomp, List.getLast?_cons, hc]
      rfl
    · obtain ⟨hclosed, hne, hlast⟩ := ho.inlineText hcomma hstop
      refine ⟨fun x hx => ?_, [], _, rfl, fun hblank c hc => ?_⟩
      · obtain rfl := List.mem_singleton.mp hx
        exact ⟨replace_ne_nil hne hp.1, hclosed.replace hp.2 hout⟩
      · rcases getLast?_replace hne hc with hc | hc
        · exact hlast c hc
        · exact hblank c hc
  · refine ⟨fun x hx => ?_, [], p, rfl, fun h => h⟩
    obtain rfl := List.mem_singleton.mp hx
    exact hp

/-- A sound selector in place of the anchors of a sound template gives a sound selector. -/
theorem Sound.substitute {inner outer : Selector} (hcomma : stop ',')
    (hstop : ∀ c ∈ [':', 'i', 's', '('], ¬ stop c) (hi : inner.Sound esc stop)
    (ho : outer.Sound esc stop) (hout : ∀ p ∈ inner.parts, Along AnchorOutside start p.compound) :
    (inner.substitute outer).Sound esc stop := by
  obtain ⟨ps, last, hps, hlast⟩ := hi.last
  unfold Selector.substitute
  split
  · have hexpand := fun p hp => ho.expandPart hcomma hstop (hi.compounds p hp) (hout p hp)
    refine ⟨fun q hq => ?_, ?_⟩
    · obtain ⟨p, hp, hq⟩ := List.mem_flatMap.mp hq
      exact (hexpand p hp).1 q hq
    · obtain ⟨qs, q, hqs, hq⟩ := (hexpand last (by simp [hps])).2
      exact ⟨ps.flatMap (Selector.expandPart outer) ++ qs, q, by simp [hps, hqs], hq hlast⟩
  · have hmap := map_compound_withLead .descendant inner.parts
    obtain ⟨qs, q, hqs, hq, -⟩ := exists_concat_of_map (hps ▸ hmap)
    refine ⟨fun p hp => ?_, outer.parts ++ qs, q, by simp [hps, hqs], hq ▸ hlast⟩
    rcases List.mem_append.mp hp with hp | hp
    · exact ho.compounds p hp
    · exact forall_compound (P := fun w => w ≠ [] ∧ Closed esc stop w) hmap hi.compounds p hp

/-! ## What stood in the outer selector -/

theorem isInfix_inlineText {k : List Char} {s : Selector} {p : Part} (hp : p ∈ s.parts)
    (hk : k <:+: p.compound) : k <:+: s.inlineText := by
  by_cases hc : s.isCompound = true
  · obtain ⟨w, hw⟩ := isCompound_iff.mp hc
    rw [hw, List.mem_singleton] at hp
    rw [inlineText_of_isCompound hw]
    rw [hp] at hk
    exact hk
  · rw [inlineText, if_neg hc]
    refine List.infix_append_of_infix_left (List.infix_append_of_infix_right ?_)
    exact hk.trans (isInfix_text hp)

theorem exists_mem_opened {P : List Char → Prop} (lead : Option Combinator) {t : List Char}
    {ps : List Part} {p : Part} (hp : p ∈ ps) (h : P p.compound) (ht : P (p.compound ++ t)) :
    ∃ q ∈ appendToLast t (replaceLead lead ps), P q.compound := by
  have hmem : p.compound ∈ (replaceLead lead ps).map Part.compound := by
    rw [map_compound_replaceLead]
    exact List.mem_map_of_mem hp
  obtain ⟨q, hq, heq⟩ := List.mem_map.mp hmem
  rw [← heq] at h ht
  obtain ⟨qs, r, hqs⟩ := (List.eq_nil_or_concat _).resolve_left (List.ne_nil_of_mem hq)
  rw [List.concat_eq_append] at hqs
  rw [hqs] at hq ⊢
  rw [appendToLast_concat]
  rcases List.mem_append.mp hq with hq | hq
  · exact ⟨q, List.mem_append_left _ hq, h⟩
  · obtain rfl := List.mem_singleton.mp hq
    exact ⟨{ q with compound := q.compound ++ t }, by simp, ht⟩

/-- What stands in a compound of the outer selector stands in the selector with it put in. -/
theorem isInfix_substitute {k : List Char} {inner outer : Selector} {p : Part}
    (hp : p ∈ outer.parts) (hk : k <:+: p.compound) : k <:+: (inner.substitute outer).text := by
  have hmem : ∃ q ∈ (inner.substitute outer).parts, k <:+: q.compound := by
    unfold substitute
    split
    · next hanchor =>
      obtain ⟨x, hx, hanchor⟩ := List.any_eq_true.mp hanchor
      have hexpand : ∃ q ∈ expandPart outer x, k <:+: q.compound := by
        rw [expandPart, if_pos hanchor]
        split
        · exact exists_mem_opened (P := fun w => k <:+: w) _ hp hk
            (List.infix_append_of_infix_left hk)
        · refine ⟨_, List.mem_singleton_self _, (isInfix_inlineText hp hk).trans ?_⟩
          rw [Part.hasAnchor, Anchor.occurs_eq_occursFrom] at hanchor
          rw [Anchor.replace_eq_replaceFrom]
          exact Anchor.isInfix_replaceFrom hanchor
      obtain ⟨q, hq, hk'⟩ := hexpand
      exact ⟨q, List.mem_flatMap.mpr ⟨x, hx, hq⟩, hk'⟩
    · exact ⟨p, List.mem_append_left _ hp, hk⟩
  obtain ⟨q, hq, hk'⟩ := hmem
  exact hk'.trans (isInfix_text hq)

end Selector
end UtilityCss
