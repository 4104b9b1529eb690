import UtilityCss.Proofs.Selector.Substitution

/-!
# Chains of compounds

A selector is a chain if it has a compound, none of its compounds is empty, a combinator stands before
each compound but the first, and no descendant combinator stands before the first. What a part of a
template becomes inside a chain is a chain again, but for the combinator of the part itself
(`exists_expandPart_eq`); so chains are closed under substitution (`IsChain.substitute`).
-/

namespace UtilityCss
namespace Selector

/-- Whether a selector has compounds, none of them empty, with the combinators between them and no blank
before them. -/
structure IsChain (s : Selector) : Prop where
  ne_nil : s.parts ≠ []
  compounds : ∀ p ∈ s.parts, p.compound ≠ []
  first : ∀ p ∈ s.parts.head?, p.combinator ≠ some .descendant
  later : ∀ p ∈ s.parts.tail, p.combinator.isSome = true

variable {outer inner : Selector}

theorem isChain_iff {p : Part} {ps : List Part} :
    IsChain ⟨p :: ps⟩ ↔ (∀ q ∈ p :: ps, q.compound ≠ []) ∧ p.combinator ≠ some .descendant ∧
      ∀ q ∈ ps, q.combinator.isSome = true :=
  ⟨fun h => ⟨h.compounds, h.first p rfl, h.later⟩,
    fun h => ⟨List.cons_ne_nil p ps, h.1, fun _ hq => Option.some.inj hq ▸ h.2.1, h.2.2⟩⟩

/-! ## Parts that are put in -/

theorem map_combinator_appendToLast (t : List Char) (ps : List Part) :
    (appendToLast t ps).map Part.combinator = ps.map Part.combinator := by
  rcases List.eq_nil_or_concat ps with rfl | ⟨ps, p, rfl⟩
  · rfl
  · rw [List.concat_eq_append, appendToLast_concat]
    simp

theorem forall_compound_opened {P : List Char → Prop} (lead : Option Combinator) {t : List Char}
    {ps : List Part} (hps : ∀ p ∈ ps, P p.compound) (ht : ∀ p ∈ ps, P (p.compound ++ t)) :
    ∀ q ∈ appendToLast t (replaceLead lead ps), P q.compound := by
  intro q hq
  rcases List.eq_nil_or_concat ps with rfl | ⟨ps, p, rfl⟩
  · cases hq
  · rw [List.concat_eq_append] at hps ht hq
    have hmem : q.compound ∈ ps.map Part.compound ++ [p.compound ++ t] := by
      rw [← map_compound_opened lead]
      exact List.mem_map_of_mem hq
    rcases List.mem_append.mp hmem with hmem | hmem
    · obtain ⟨x, hx, hxq⟩ := List.mem_map.mp hmem
      exact hxq ▸ hps x (by simp [hx])
    · rw [List.mem_singleton.mp hmem]
      exact ht p (by simp)

theorem IsChain.inlineText_ne_nil (ho : outer.IsChain) : outer.inlineText ≠ [] := by
  by_cases hc : outer.isCompound = true
  · obtain ⟨w, hw⟩ := isCompound_iff.mp hc
    rw [inlineText_of_isCompound hw]
    exact ho.compounds ⟨none, w⟩ (by simp [hw])
  · rw [inlineText, if_neg hc]
    simp

/-- A part becomes parts that are joined to each other. The first of them has the combinator of the part,
or else one with which it may stand first. -/
theorem IsChain.exists_expandPart_eq (ho : outer.IsChain) {p : Part} (hp : p.compound ≠ []) :
    ∃ q qs, expandPart outer p = q :: qs ∧ (∀ x ∈ q :: qs, x.compound ≠ []) ∧
      (q.combinator = p.combinator ∨ p.combinator = none ∧ q.combinator ≠ some .descendant) ∧
      ∀ x ∈ qs, x.combinator.isSome = true := by
  unfold expandPart
  split
  · split
    · next t _ =>
      obtain ⟨o, os, hparts⟩ := List.exists_cons_of_ne_nil ho.ne_nil
      have hcompounds := forall_compound_opened (P := (· ≠ [])) p.combinator (t := t) ho.compounds
        fun x hx => List.append_ne_nil_of_left_ne_nil (ho.compounds x hx) t
      have hcombinators : (appendToLast t (replaceLead p.combinator outer.parts)).map Part.combinator =
          p.combinator.or o.combinator :: os.map Part.combinator := by
        rw [map_combinator_appendToLast, hparts]
        rfl
      obtain ⟨q, qs, hq, hfirst, hlater⟩ := List.map_eq_cons_iff.mp hcombinators
      rw [hq] at hcompounds
      refine ⟨q, qs, hq, hcompounds, ?_, fun x hx => ?_⟩
      · rw [hfirst]
        cases hk : p.combinator with
        | none => exact .inr ⟨rfl, ho.first o (by simp [hparts])⟩
        | some k => exact .inl rfl
      · have hmem : x.combinator ∈ os.map Part.combinator := hlater ▸ List.mem_map_of_mem hx
        obtain ⟨y, hy, hyx⟩ := List.mem_map.mp hmem
        exact hyx ▸ ho.later y (by simp [hparts, hy])
    · refine ⟨_, [], rfl, fun x hx => ?_, .inl rfl, by simp⟩
      obtain rfl := List.mem_singleton.mp hx
      exact replace_ne_nil ho.inlineText_ne_nil hp
  · refine ⟨p, [], rfl, fun x hx => ?_, .inl rfl, by simp⟩
    obtain rfl := List.mem_singleton.mp hx
    exact hp

theorem IsChain.isSome_combinator_expandPart (ho : outer.IsChain) {p : Part} (hp : p.compound ≠ [])
    (hlead : p.combinator.isSome = true) : ∀ q ∈ expandPart outer p, q.combinator.isSome = true := by
  obtain ⟨q, qs, heq, -, hfirst, hlater⟩ := ho.exists_expandPart_eq hp
  rw [heq]
  intro x hx
  rcases List.mem_cons.mp hx with rfl | hx
  · rcases hfirst with hfirst | ⟨hnone, -⟩
    · rwa [hfirst]
    · rw [hnone] at hlead
      cases hlead
  · exact hlater x hx

/-! ## Whole selectors -/

/-- A chain in the anchors of another one, or before it, gives a chain. -/
theorem IsChain.substitute (hi : inner.IsChain) (ho : outer.IsChain) :
    (inner.substitute outer).IsChain := by
  obtain ⟨p, ps, hparts⟩ := List.exists_cons_of_ne_nil hi.ne_nil
  obtain ⟨⟩ := inner
  obtain rfl := hparts
  obtain ⟨hcompounds, hfirst, hlater⟩ := isChain_iff.mp hi
  unfold Selector.substitute
  split
  · obtain ⟨q, qs, heq, hne, hlead, hqs⟩ := ho.exists_expandPart_eq (hcompounds p (by simp))
    rw [List.flatMap_cons, heq, List.cons_append, isChain_iff]
    refine ⟨fun x hx => ?_, ?_, fun x hx => ?_⟩
    · rw [← List.cons_append] at hx
      rcases List.mem_append.mp hx with hx | hx
      · exact hne x hx
      · obtain ⟨y, hy, hx⟩ := List.mem_flatMap.mp hx
        obtain ⟨z, zs, hz, hne, -⟩ := ho.exists_expandPart_eq (hcompounds y (by simp [hy]))
        exact hne x (hz ▸ hx)
    · rcases hlead with hlead | ⟨-, hlead⟩
      · rwa [hlead]
      · exact hlead
    · rcases List.mem_append.mp hx with hx | hx
      · exact hqs x hx
      · obtain ⟨y, hy, hx⟩ := List.mem_flatMap.mp hx
        exact ho.isSome_combinator_expandPart (hcompounds y (by simp [hy])) (hlater y hy) x hx
  · obtain ⟨o, os, houter⟩ := List.exists_cons_of_ne_nil ho.ne_nil
    obtain ⟨⟩ := outer
    obtain rfl := houter
    obtain ⟨hcompounds', hfirst', hlater'⟩ := isChain_iff.mp ho
    have hinner : ∀ x ∈ withLead .descendant (p :: ps), x.compound ≠ [] :=
      forall_compound (P := (· ≠ [])) (map_compound_withLead _ _) hcompounds
    rw [List.cons_append, isChain_iff]
    refine ⟨fun x hx => ?_, hfirst', fun x hx => ?_⟩
    · rw [← List.cons_append] at hx
      exact (List.mem_append.mp hx).elim (hcompounds' x) (hinner x)
    · rcases List.mem_append.mp hx with hx | hx
      · exact hlater' x hx
      · rcases List.mem_cons.mp hx with rfl | hx
        · cases p.combinator <;> rfl
        · exact hlater x hx

end Selector
end UtilityCss
