import Mathlib.Algebra.Group.Nat.Even
import UtilityCss.Proofs.Selector.Substitution

/-!
# Substitution is associative

Putting one compound in place of the anchors replaces them by its text, in every compound of a
template (`substitute_ofCompound`). So it does not matter whether a compound is put into the outer of
two templates first, or into the two templates taken together (`substitute_assoc`): an opened anchor
takes the parts of the outer template with the compound already in them, and an anchor that is
replaced by a text takes a text in which the compound has been put (`inlineText_replace`).

The outer template must not end in a backslash anywhere where something is put behind it (`Neutral`).
-/

namespace UtilityCss

namespace Anchor

/-- A text behind which nothing is protected. -/
def Neutral (s : List Char) : Prop := protectedAfter false s = false

/-- The number of backslashes that a text ends in. -/
def trailingBackslashes (s : List Char) : Nat := (s.rtakeWhile (· == '\\')).length

theorem neutral_iff {s : List Char} : Neutral s ↔ Even (trailingBackslashes s) := by
  induction s using List.reverseRecOn with
  | nil => exact iff_of_true rfl ⟨0, rfl⟩
  | append_singleton s c ih =>
    have hafter : protectedAfter false (s ++ [c]) = protectsNext (protectedAfter false s) c := by
      simp [protectedAfter]
    rw [Neutral] at ih ⊢
    by_cases hc : c = '\\'
    · subst hc
      have hlength : trailingBackslashes (s ++ ['\\']) = trailingBackslashes s + 1 := by
        simp [trailingBackslashes]
      rw [hafter, hlength, Nat.even_add_one, ← ih]
      simp [protectsNext]
    · have hlength : trailingBackslashes (s ++ [c]) = 0 := by
        simp [trailingBackslashes, hc]
      rw [hafter, hlength]
      simp [protectsNext, hc]

theorem exists_of_not_neutral {s : List Char} (h : ¬ Neutral s) : ∃ u, s = u ++ ['\\'] ∧ Neutral u := by
  rcases List.eq_nil_or_concat s with rfl | ⟨u, c, rfl⟩
  · exact absurd rfl h
  · have hafter : protectedAfter false (u ++ [c]) = protectsNext (protectedAfter false u) c := by
      simp [protectedAfter]
    rw [List.concat_eq_append] at h ⊢
    rw [Neutral, hafter, Bool.not_eq_false, protectsNext] at h
    obtain ⟨hu, rfl⟩ : protectedAfter false u = false ∧ c = '\\' := by simpa using h
    exact ⟨u, rfl, hu⟩

theorem replace_append {s : List Char} (hs : Neutral s) (r t : List Char) :
    replace r (s ++ t) = replace r s ++ replace r t := by
  simp only [replace_eq_replaceFrom]
  rw [replaceFrom_append, hs]

theorem neutral_append {s t : List Char} (hs : Neutral s) (ht : Neutral t) : Neutral (s ++ t) := by
  have : protectedAfter false (s ++ t) = protectedAfter (protectedAfter false s) t := by
    simp [protectedAfter]
  rw [Neutral, this, hs, ht]

theorem occurs_append {s : List Char} (hs : Neutral s) (t : List Char) :
    occurs (s ++ t) = (occurs s || occurs t) := by
  simp only [occurs_eq_occursFrom]
  rw [occursFrom_append, hs]

theorem replace_of_not_occurs {r s : List Char} (h : occurs s = false) : replace r s = s := by
  rw [replace_eq_replaceFrom]
  rw [occurs_eq_occursFrom] at h
  exact replaceFrom_of_not_occurs h

theorem replace_replace {q : List Char} (hq : Neutral q) (r s : List Char) :
    replace r (replace q s) = replace (replace r q) s := by
  simp only [replace_eq_replaceFrom]
  exact replaceFrom_replaceFrom hq false s

theorem occursFrom_replaceFrom {q : List Char} (hq : occurs q = true) {p : Bool} {s : List Char}
    (h : occursFrom p s = true) : occursFrom p (replaceFrom q p s) = true := by
  induction s generalizing p with
  | nil => cases h
  | cons c s ih =>
    rw [replaceFrom]
    by_cases hc : (!p && c == '&') = true
    · obtain ⟨rfl, rfl⟩ : p = false ∧ c = '&' := by simpa using hc
      rw [occurs_eq_occursFrom] at hq
      rw [if_pos hc, occursFrom_append, hq, Bool.true_or]
    · rw [occursFrom, Bool.or_eq_true] at h
      rw [if_neg hc, List.singleton_append, occursFrom, ih (h.resolve_left hc), Bool.or_true]

theorem neutral_of_closed {esc stop : Char → Prop} {s : List Char}
    (h : ListState.Closed esc stop s) : Neutral s := by
  have := congrArg ListState.escaped h.ends
  rwa [ListState.escaped_after] at this

end Anchor

open Anchor

theorem neutral_mark (c : Combinator) : Neutral c.mark := by cases c <;> rfl

theorem replace_mark (r : List Char) (c : Combinator) : replace r c.mark = c.mark := by
  cases c <;> rfl

theorem neutral_between (c : Combinator) : Neutral c.between := by cases c <;> rfl

theorem replace_between (r : List Char) (c : Combinator) : replace r c.between = c.between := by
  cases c <;> rfl

namespace Part

/-- The part with another compound. -/
def mapCompound (f : List Char → List Char) (p : Part) : Part := { p with compound := f p.compound }

variable {p : Part} (r : List Char)

theorem leadingText_replace : (p.mapCompound (replace r)).leadingText = replace r p.leadingText := by
  obtain ⟨_ | c, w⟩ := p
  · rfl
  · have hspace : Neutral (c.mark ++ [' ']) := neutral_append (neutral_mark c) rfl
    have hsplit : leadingText ⟨some c, w⟩ = c.mark ++ [' '] ++ w := by simp [leadingText]
    rw [hsplit, replace_append hspace, replace_append (neutral_mark c), replace_mark]
    simp [leadingText, mapCompound, replace_eq_replaceFrom, replaceFrom]

theorem followingText_replace :
    (p.mapCompound (replace r)).followingText = replace r p.followingText := by
  show _ = replace r ((p.combinator.getD .descendant).between ++ p.compound)
  rw [replace_append (neutral_between _), replace_between]
  rfl

theorem occurs_leadingText : occurs p.leadingText = p.hasAnchor := by
  obtain ⟨_ | c, w⟩ := p
  · rfl
  · have hspace : Neutral (c.mark ++ [' ']) := neutral_append (neutral_mark c) rfl
    have hsplit : leadingText ⟨some c, w⟩ = c.mark ++ [' '] ++ w := by simp [leadingText]
    have hnone : occurs (c.mark ++ [' ']) = false := by cases c <;> rfl
    rw [hsplit, occurs_append hspace, hnone, Bool.false_or]
    rfl

theorem occurs_followingText : occurs p.followingText = p.hasAnchor := by
  have hnone : ∀ c : Combinator, occurs c.between = false := by intro c; cases c <;> rfl
  rw [followingText, occurs_append (neutral_between _), hnone, Bool.false_or]
  rfl

theorem neutral_leadingText (h : Neutral p.compound) : Neutral p.leadingText := by
  obtain ⟨_ | c, w⟩ := p
  · exact h
  · have hspace : Neutral (c.mark ++ [' ']) := neutral_append (neutral_mark c) rfl
    have := neutral_append hspace h
    simpa [leadingText] using this

theorem neutral_followingText (h : Neutral p.compound) : Neutral p.followingText :=
  neutral_append (neutral_between _) h

end Part

namespace Selector

/-- The selector with other compounds. -/
def mapCompounds (f : List Char → List Char) (s : Selector) : Selector :=
  ⟨s.parts.map (Part.mapCompound f)⟩

/-- The selector that is one compound. -/
def ofCompound (w : List Char) : Selector := ⟨[⟨none, w⟩]⟩

theorem text_replace {s : Selector} (r : List Char) (h : ∀ p ∈ s.parts, Neutral p.compound) :
    (s.mapCompounds (replace r)).text = replace r s.text := by
  obtain ⟨parts⟩ := s
  cases parts with
  | nil => rfl
  | cons p ps =>
    have hp := p.neutral_leadingText (h p (by simp))
    simp only [mapCompounds, text, List.map_cons]
    rw [replace_append hp, Part.leadingText_replace]
    congr 1
    replace h : ∀ p ∈ ps, Neutral p.compound := fun q hq => h q (by simp [hq])
    clear hp
    induction ps with
    | nil => rfl
    | cons q ps ih =>
      have hq := q.neutral_followingText (h q (by simp))
      rw [List.map_cons, List.flatMap_cons, List.flatMap_cons, replace_append hq,
        Part.followingText_replace, ih fun x hx => h x (by simp [hx])]

theorem neutral_text {s : Selector} (h : ∀ p ∈ s.parts, Neutral p.compound) : Neutral s.text :=
  text_of_append (P := Neutral) rfl (fun _ _ => neutral_append) rfl neutral_mark h

theorem neutral_inlineText {s : Selector} (h : ∀ p ∈ s.parts, Neutral p.compound) :
    Neutral s.inlineText := by
  by_cases hc : s.isCompound = true
  · obtain ⟨w, hw⟩ := isCompound_iff.mp hc
    rw [inlineText_of_isCompound hw]
    exact h ⟨none, w⟩ (by simp [hw])
  · rw [inlineText, if_neg hc]
    exact neutral_append (neutral_append rfl (neutral_text h)) rfl

theorem isCompound_mapCompounds (f : List Char → List Char) (s : Selector) :
    (s.mapCompounds f).isCompound = s.isCompound := by
  obtain ⟨parts⟩ := s
  match parts with
  | [] => rfl
  | [_] => rfl
  | _ :: _ :: _ => rfl

theorem inlineText_replace {s : Selector} (r : List Char) (h : ∀ p ∈ s.parts, Neutral p.compound) :
    (s.mapCompounds (replace r)).inlineText = replace r s.inlineText := by
  by_cases hc : s.isCompound = true
  · obtain ⟨w, hw⟩ := isCompound_iff.mp hc
    rw [inlineText_of_isCompound hw]
    exact inlineText_of_isCompound (by simp [mapCompounds, Part.mapCompound, hw])
  · rw [inlineText, inlineText, isCompound_mapCompounds, if_neg hc, if_neg hc, text_replace r h,
      replace_append (neutral_append (by rfl) (neutral_text h)), replace_append (by rfl)]
    rfl

theorem hasAnchor_iff {s : Selector} : s.hasAnchor = true ↔ ∃ p ∈ s.parts, p.hasAnchor = true := by
  simp [hasAnchor]

theorem occurs_text {s : Selector} (h : ∀ p ∈ s.parts, Neutral p.compound) :
    occurs s.text = s.hasAnchor := by
  unfold text hasAnchor
  split
  · next hnil => rw [hnil]; rfl
  · next p ps hp =>
    rw [hp] at h ⊢
    rw [occurs_append (p.neutral_leadingText (h p (by simp))), Part.occurs_leadingText,
      List.any_cons]
    congr 1
    replace h : ∀ p ∈ ps, Neutral p.compound := fun q hq => h q (by simp [hq])
    clear hp
    induction ps with
    | nil => rfl
    | cons q ps ih =>
      rw [List.flatMap_cons, occurs_append (q.neutral_followingText (h q (by simp))),
        Part.occurs_followingText, List.any_cons, ih fun x hx => h x (by simp [hx])]

theorem occurs_inlineText {s : Selector} (h : ∀ p ∈ s.parts, Neutral p.compound) :
    occurs s.inlineText = s.hasAnchor := by
  by_cases hc : s.isCompound = true
  · obtain ⟨w, hw⟩ := isCompound_iff.mp hc
    rw [inlineText_of_isCompound hw]
    simp [hasAnchor, Part.hasAnchor, hw]
  · rw [inlineText, if_neg hc, occurs_append (neutral_append (by rfl) (neutral_text h)),
      occurs_append (by rfl), occurs_text h, show occurs [':', 'i', 's', '('] = false from rfl,
      show occurs [')'] = false from rfl, Bool.false_or, Bool.or_false]

/-! ## The parts of an anchored template -/

theorem expandPart_ofCompound (k : List Char) (p : Part) :
    expandPart (ofCompound k) p = [p.mapCompound (replace k)] := by
  obtain ⟨c, w⟩ := p
  unfold expandPart
  split
  · split
    · next t ht =>
      have hreplace : replace k w = k ++ t := replace_of_suffix? ht k
      simp [ofCompound, replaceLead, appendToLast, Part.mapCompound, hreplace]
    · rw [inlineText_of_isCompound (s := ofCompound k) rfl]
      rfl
  · next h =>
    rw [Part.mapCompound, replace_of_not_occurs (by simpa [Part.hasAnchor] using h)]

/-- One compound in place of the anchors is put into every compound as a text. -/
theorem substitute_ofCompound {i : Selector} (hi : i.hasAnchor = true) (k : List Char) :
    i.substitute (ofCompound k) = i.mapCompounds (replace k) := by
  rw [substitute, if_pos hi, mapCompounds]
  congr 1
  rw [List.map_eq_flatMap]
  congr 1
  exact funext (expandPart_ofCompound k)

theorem replaceLead_map (f : List Char → List Char) (lead : Option Combinator) (ps : List Part) :
    replaceLead lead (ps.map (Part.mapCompound f)) =
      (replaceLead lead ps).map (Part.mapCompound f) := by
  cases ps <;> rfl

theorem appendToLast_map {t : List Char} (ht : occurs t = false) (k : List Char) {ps : List Part}
    (h : ∀ p ∈ ps, Neutral p.compound) :
    appendToLast t (ps.map (Part.mapCompound (replace k))) =
      (appendToLast t ps).map (Part.mapCompound (replace k)) := by
  rcases List.eq_nil_or_concat ps with rfl | ⟨ps, p, rfl⟩
  · rfl
  · have hp : Neutral p.compound := h p (by simp)
    rw [List.concat_eq_append, List.map_append, List.map_singleton, appendToLast_concat,
      appendToLast_concat, List.map_append, List.map_singleton]
    simp [Part.mapCompound, replace_append hp, replace_of_not_occurs ht]

theorem expandPart_mapCompounds {o : Selector} (h : ∀ p ∈ o.parts, Neutral p.compound)
    (k : List Char) (p : Part) :
    expandPart (o.mapCompounds (replace k)) p =
      (expandPart o p).map (Part.mapCompound (replace k)) := by
  unfold expandPart
  split
  · split
    · next t ht =>
      have hnone : occurs t = false := by
        rw [occurs_eq_occursFrom]
        exact (eq_cons_and_not_occurs_of_suffix? ht).2
      have hlead : ∀ q ∈ replaceLead p.combinator o.parts, Neutral q.compound :=
        forall_compound (P := Neutral) (map_compound_replaceLead _ _) h
      rw [mapCompounds, replaceLead_map, appendToLast_map hnone k hlead]
    · rw [inlineText_replace k h]
      simp [Part.mapCompound, replace_replace (neutral_inlineText h)]
  · next hp =>
    simp [Part.mapCompound, replace_of_not_occurs (show occurs p.compound = false by
      simpa [Part.hasAnchor] using hp)]

theorem hasAnchor_substitute {i o : Selector} (h : ∀ p ∈ o.parts, Neutral p.compound)
    (hi : i.hasAnchor = true) (ho : o.hasAnchor = true) : (i.substitute o).hasAnchor = true := by
  obtain ⟨p, hp, ha⟩ := hasAnchor_iff.mp hi
  have hexpand : ∃ q ∈ expandPart o p, q.hasAnchor = true := by
    rw [expandPart, if_pos ha]
    split
    · obtain ⟨q, hq, hqa⟩ := hasAnchor_iff.mp ho
      refine exists_mem_opened (P := fun w => occurs w = true) _ hq hqa ?_
      rw [occurs_append (h q hq), show occurs q.compound = true from hqa, Bool.true_or]
    · refine ⟨_, List.mem_singleton_self _, ?_⟩
      rw [Part.hasAnchor, occurs_eq_occursFrom] at ha ⊢
      rw [replace_eq_replaceFrom]
      exact occursFrom_replaceFrom ((occurs_inlineText h).trans ho) ha
  obtain ⟨q, hq, hqa⟩ := hexpand
  rw [substitute, if_pos hi]
  exact hasAnchor_iff.mpr ⟨q, List.mem_flatMap.mpr ⟨p, hp, hq⟩, hqa⟩

/-- **A compound can be put in before or after two templates are put together.** -/
theorem substitute_assoc {i o : Selector} (h : ∀ p ∈ o.parts, Neutral p.compound)
    (hi : i.hasAnchor = true) (ho : o.hasAnchor = true) (k : List Char) :
    i.substitute (o.substitute (ofCompound k)) = (i.substitute o).substitute (ofCompound k) := by
  rw [substitute_ofCompound (hasAnchor_substitute h hi ho), substitute_ofCompound ho]
  simp only [substitute, if_pos hi, mapCompounds, List.map_flatMap]
  congr 2
  exact funext (expandPart_mapCompounds h k)

end Selector
end UtilityCss
