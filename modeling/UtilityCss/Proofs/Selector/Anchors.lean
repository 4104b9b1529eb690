import UtilityCss.Proofs.Selector.Scan
import UtilityCss.Selector.Nesting

/-!
# Putting a text in place of the anchors

The pieces between anchors are good for running and bad for induction. `replaceFrom` and `occursFrom`
say the same by going through the template, with the flag whether the next character is protected; it
is the flag of the list splitter (`escaped_next`).

A closed text in place of the anchors changes nothing about the states met in the template, provided
that no anchor stands in a string (`along_replaceFrom`). So the replaced template has the same members,
each with its anchors replaced (`members_replace`).
-/

namespace UtilityCss.Anchor

/-- Whether an anchor occurs, when the first character is protected or not. -/
def occursFrom (isProtected : Bool) : List Char → Bool
  | [] => false
  | c :: s => (!isProtected && c == '&') || occursFrom (protectsNext isProtected c) s

/-- The template with `r` in place of every anchor, when the first character is protected or not. -/
def replaceFrom (r : List Char) (isProtected : Bool) : List Char → List Char
  | [] => []
  | c :: s =>
    (if !isProtected && c == '&' then r else [c]) ++
      replaceFrom r (protectsNext isProtected c) s

/-- Whether the character behind a text is protected. -/
def protectedAfter (isProtected : Bool) (s : List Char) : Bool := s.foldl protectsNext isProtected

/-! ## The pieces -/

theorem intercalate_pieces (r : List Char) (p : Bool) (s : List Char) :
    r.intercalate (Text.splitBy protectsNext (fun p c => !p && c == '&') p s) = replaceFrom r p s := by
  induction s generalizing p with
  | nil => simp [Text.splitBy, replaceFrom]
  | cons c s ih =>
    simp only [Text.splitBy, replaceFrom]
    split
    · rw [Text.intercalate_nil_cons _ (Text.splitBy_ne_nil _ _), ih]
    · rw [Text.intercalate_consHead _ _ (Text.splitBy_ne_nil _ _), ih]
      rfl

theorem replace_eq_replaceFrom (r s : List Char) : replace r s = replaceFrom r false s :=
  intercalate_pieces r false s

theorem one_lt_length_pieces (p : Bool) (s : List Char) :
    1 < (Text.splitBy protectsNext (fun p c => !p && c == '&') p s).length ↔
      occursFrom p s = true := by
  induction s generalizing p with
  | nil => simp [Text.splitBy, occursFrom]
  | cons c s ih =>
    have hne : Text.splitBy protectsNext (fun p c => !p && c == '&') (protectsNext p c) s ≠ [] :=
      Text.splitBy_ne_nil _ _
    have hih := ih (protectsNext p c)
    simp only [Text.splitBy, occursFrom]
    generalize Text.splitBy protectsNext (fun p c => !p && c == '&') (protectsNext p c) s = rest
      at hne hih
    split
    · next h =>
      have := List.length_pos_iff.mpr hne
      simp only [h, Bool.true_or, List.length_cons, iff_true]
      omega
    · next h =>
      cases rest with
      | nil => exact absurd rfl hne
      | cons piece pieces => simpa [h, Text.consHead] using hih

theorem occurs_eq_occursFrom (s : List Char) : occurs s = occursFrom false s := by
  rw [Bool.eq_iff_iff, ← one_lt_length_pieces]
  show decide (0 < count s) = true ↔ _
  rw [decide_eq_true_iff, count, pieces]
  omega

theorem pieces_of_not_occurs {w : List Char} (h : occurs w = false) : pieces w = [w] := by
  have hne : pieces w ≠ [] := Text.splitBy_ne_nil _ _
  have hself := replace_self w
  cases hpieces : pieces w with
  | nil => exact absurd hpieces hne
  | cons p ps =>
    cases ps with
    | nil =>
      rw [replace, hpieces] at hself
      rw [← hself]
      simp
    | cons q ps => simp [occurs, count, hpieces] at h

theorem pieces_of_suffix? {w t : List Char} (h : suffix? w = some t) : pieces w = [[], t] := by
  unfold suffix? at h
  split at h
  · next rest hrest => rw [hrest, Option.some.inj h]
  · cases h

theorem eq_cons_and_not_occurs_of_suffix? {s t : List Char} (h : suffix? s = some t) :
    s = '&' :: t ∧ occursFrom false t = false := by
  obtain rfl := eq_cons_of_suffix? h
  refine ⟨rfl, ?_⟩
  rw [Bool.eq_false_iff]
  intro hocc
  have hlen := (one_lt_length_pieces false t).mpr hocc
  have hpieces : pieces ('&' :: t) =
      [] :: Text.splitBy protectsNext (fun p c => !p && c == '&') false t := rfl
  unfold suffix? at h
  rw [hpieces] at h
  split at h
  · next heq =>
    rw [(List.cons.inj heq).2] at hlen
    simp at hlen
  · cases h

/-! ## Replacement -/

theorem replaceFrom_of_not_occurs {r : List Char} {p : Bool} {s : List Char}
    (h : occursFrom p s = false) : replaceFrom r p s = s := by
  induction s generalizing p with
  | nil => rfl
  | cons c s ih =>
    simp only [occursFrom, Bool.or_eq_false_iff] at h
    rw [replaceFrom, h.1, ih h.2]
    rfl

theorem replace_of_suffix? {s t : List Char} (h : suffix? s = some t) (r : List Char) :
    replace r s = r ++ t := by
  obtain ⟨rfl, hnone⟩ := eq_cons_and_not_occurs_of_suffix? h
  have hrest : replaceFrom r (protectsNext false '&') t = t := replaceFrom_of_not_occurs hnone
  rw [replace_eq_replaceFrom, replaceFrom, hrest]
  rfl

theorem replaceFrom_append (r : List Char) (p : Bool) (s t : List Char) :
    replaceFrom r p (s ++ t) = replaceFrom r p s ++ replaceFrom r (protectedAfter p s) t := by
  induction s generalizing p with
  | nil => rfl
  | cons c s ih => simp [replaceFrom, protectedAfter, ih]

theorem occursFrom_append (p : Bool) (s t : List Char) :
    occursFrom p (s ++ t) = (occursFrom p s || occursFrom (protectedAfter p s) t) := by
  induction s generalizing p with
  | nil => rfl
  | cons c s ih => simp [occursFrom, protectedAfter, ih, Bool.or_assoc]

theorem isInfix_replaceFrom {r : List Char} {p : Bool} {s : List Char}
    (h : occursFrom p s = true) : r <:+: replaceFrom r p s := by
  induction s generalizing p with
  | nil => simp [occursFrom] at h
  | cons c s ih =>
    rw [replaceFrom]
    by_cases hc : (!p && c == '&') = true
    · rw [if_pos hc]
      exact (List.prefix_append r _).isInfix
    · rw [occursFrom, Bool.or_eq_true] at h
      exact (ih (h.resolve_left hc)).trans (List.suffix_append _ _).isInfix

theorem replaceFrom_replaceFrom {r q : List Char} (hq : protectedAfter false q = false) (p : Bool)
    (s : List Char) :
    replaceFrom r p (replaceFrom q p s) = replaceFrom (replaceFrom r false q) p s := by
  induction s generalizing p with
  | nil => rfl
  | cons c s ih =>
    by_cases hc : (!p && c == '&') = true
    · obtain ⟨rfl, rfl⟩ : p = false ∧ c = '&' := by simpa using hc
      rw [replaceFrom, if_pos hc, replaceFrom_append, hq]
      have hnext : protectsNext false '&' = false := rfl
      rw [hnext, ih, replaceFrom, if_pos hc, hnext]
    · rw [replaceFrom, if_neg hc, replaceFrom, if_neg hc, List.singleton_append, replaceFrom,
        if_neg hc, ih, List.singleton_append]

/-! ## The states met -/

end UtilityCss.Anchor

namespace UtilityCss.ListState

open Anchor

theorem escaped_next (st : ListState) (c : Char) :
    (st.next c).escaped = protectsNext st.escaped c := by
  obtain ⟨escaped, quote, depth⟩ := st
  cases escaped with
  | true => rfl
  | false =>
    by_cases hc : c = '\\'
    · simp [next, protectsNext, hc]
    · cases quote <;> simp only [next, protectsNext, hc] <;> split_ifs <;> simp [hc]

theorem escaped_after (st : ListState) (s : List Char) :
    (st.after s).escaped = protectedAfter st.escaped s := by
  induction s generalizing st with
  | nil => rfl
  | cons c s ih => rw [after_cons, ih, escaped_next]; rfl

theorem along_of_not_occurs {st : ListState} {s : List Char}
    (h : Anchor.occursFrom st.escaped s = false) :
    Along (fun st c => st.escaped = false → c ≠ '&') st s := by
  induction s generalizing st with
  | nil => trivial
  | cons c s ih =>
    rw [Anchor.occursFrom, Bool.or_eq_false_iff, ← escaped_next] at h
    refine ⟨?_, ih h.2⟩
    rintro hesc rfl
    rw [hesc] at h
    exact absurd h.1 (by decide)

theorem not_occurs_of_along {st : ListState} {s : List Char}
    (h : Along (fun st c => st.escaped = false → c ≠ '&') st s) :
    Anchor.occursFrom st.escaped s = false := by
  induction s generalizing st with
  | nil => rfl
  | cons c s ih =>
    rw [Anchor.occursFrom, Bool.or_eq_false_iff, ← escaped_next]
    refine ⟨?_, ih h.2⟩
    rw [Bool.eq_false_iff]
    intro hc
    obtain ⟨hesc, rfl⟩ : st.escaped = false ∧ c = '&' := by simpa using hc
    exact h.1 hesc rfl

/-- A character that is an anchor stands outside strings. -/
def AnchorOutside (st : ListState) (c : Char) : Prop :=
  c = '&' → st.escaped = false → st.quote = none

instance (st : ListState) (c : Char) : Decidable (AnchorOutside st c) :=
  inferInstanceAs (Decidable (c = '&' → st.escaped = false → st.quote = none))

theorem next_anchor {st : ListState} (hesc : st.escaped = false) (hquote : st.quote = none) :
    st.next '&' = st := by
  obtain ⟨escaped, quote, depth⟩ := st
  subst hesc hquote
  rfl

variable {esc stop : Char → Prop}

/-- A closed text in place of the anchors leaves the states met as they were. -/
theorem along_replaceFrom {r : List Char} (hr : Closed esc stop r) {st : ListState} {s : List Char}
    (hdepth : 0 ≤ st.depth) (hs : Along (Fits esc stop) st s) (ho : Along AnchorOutside st s) :
    Along (Fits esc stop) st (replaceFrom r st.escaped s) ∧
      st.after (replaceFrom r st.escaped s) = st.after s := by
  induction s generalizing st with
  | nil => exact ⟨trivial, rfl⟩
  | cons c s ih =>
    obtain ⟨ihfits, ihends⟩ := ih hs.1.1 hs.2 ho.2
    rw [escaped_next] at ihfits ihends
    rw [replaceFrom, along_append, after_append]
    by_cases hc : (!st.escaped && c == '&') = true
    · obtain ⟨hesc, rfl⟩ : st.escaped = false ∧ c = '&' := by simpa using hc
      have hquote := ho.1 rfl hesc
      rw [if_pos hc, after_closed hr.ends hesc hquote]
      rw [next_anchor hesc hquote] at ihfits ihends
      exact ⟨⟨along_closed hr hesc hquote hdepth, ihfits⟩, by
        rw [ihends, after_cons, next_anchor hesc hquote]⟩
    · rw [if_neg hc]
      exact ⟨⟨⟨hs.1, trivial⟩, ihfits⟩, ihends⟩

theorem Closed.replace {r s : List Char} (hr : Closed esc stop r) (hs : Closed esc stop s)
    (ho : Along AnchorOutside start s) : Closed esc stop (Anchor.replace r s) := by
  obtain ⟨hfits, hends⟩ := along_replaceFrom hr (show 0 ≤ start.depth from Int.le_refl _) hs.fits ho
  rw [replace_eq_replaceFrom]
  exact ⟨by rw [show false = start.escaped from rfl, hends, hs.ends], hfits⟩

theorem splitBy_replaceFrom {r : List Char} (hstop : stop ',') (hr : Closed esc stop r)
    {esc' stop' : Char → Prop} {st : ListState} {s : List Char} (hdepth : 0 ≤ st.depth)
    (hs : Along (Fits esc' stop') st s) (ho : Along AnchorOutside st s) :
    Text.splitBy next separates st (replaceFrom r st.escaped s) =
      match Text.splitBy next separates st s with
      | [] => []
      | m :: ms => replaceFrom r st.escaped m :: ms.map (replaceFrom r false) := by
  induction s generalizing st with
  | nil => rfl
  | cons c s ih =>
    have hih := ih hs.1.1 hs.2 ho.2
    have hne : Text.splitBy next separates (st.next c) s ≠ [] := Text.splitBy_ne_nil _ _
    rw [escaped_next] at hih
    by_cases hc : (!st.escaped && c == '&') = true
    · obtain ⟨hesc, rfl⟩ : st.escaped = false ∧ c = '&' := by simpa using hc
      have hquote := ho.1 rfl hesc
      have hsep : st.separates '&' = false := by simp [separates]
      rw [replaceFrom, if_pos hc,
        Selector.splitBy_of_along hstop (along_closed hr hesc hquote hdepth),
        after_closed hr.ends hesc hquote, Text.splitBy, hsep]
      rw [next_anchor hesc hquote] at hih hne ⊢
      rw [hih]
      generalize Text.splitBy next separates st s = rest at hne
      cases rest with
      | nil => exact absurd rfl hne
      | cons m ms =>
        simp only [Bool.false_eq_true, if_false, Text.consHead, Text.appendHead_cons_head,
          replaceFrom, if_pos hc]
    · rw [replaceFrom, if_neg hc, List.singleton_append, Text.splitBy, Text.splitBy, hih]
      generalize Text.splitBy next separates (st.next c) s = rest at hne
      cases rest with
      | nil => exact absurd rfl hne
      | cons m ms =>
        by_cases hsep : st.separates c = true
        · obtain ⟨rfl, rfl⟩ := separates_iff.mp hsep
          rfl
        · simp only [hsep, Bool.false_eq_true, if_false, Text.consHead, replaceFrom, if_neg hc,
            List.singleton_append]

/-- The members of a template whose anchors are replaced are its members with their anchors
replaced. -/
theorem members_replace {r s : List Char} (hstop : stop ',') (hr : Closed esc stop r)
    {esc' stop' : Char → Prop} (hs : Along (Fits esc' stop') start s)
    (ho : Along AnchorOutside start s) :
    Selector.members (Anchor.replace r s) = (Selector.members s).map (Anchor.replace r) := by
  have h := splitBy_replaceFrom hstop hr (Int.le_refl _) hs ho
  have hne : Text.splitBy next separates start s ≠ [] := Text.splitBy_ne_nil _ _
  have hfun : Anchor.replace r = replaceFrom r false := funext (replace_eq_replaceFrom r)
  rw [hfun, Selector.members, Selector.members]
  refine h.trans ?_
  generalize Text.splitBy next separates start s = rest at hne
  cases rest with
  | nil => exact absurd rfl hne
  | cons m ms => rfl

end UtilityCss.ListState
