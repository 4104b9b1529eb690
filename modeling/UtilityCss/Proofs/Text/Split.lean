import UtilityCss.Text.Split

/-!
# Texts that stand in one piece

A text is `Uncut` from a state if none of its characters is a separator in the state it is met in.
Such a text stands in one piece whatever follows it, and a separator behind it ends that piece. So a
text that was joined from uncut pieces is cut into these pieces again (`splitBy_intercalate`). The other
way round, each piece is an uncut stretch between two separators, or a separator and an end of the text
(`splitBy_eq_append_cons_iff`).
-/

namespace UtilityCss.Text

variable {σ : Type} {next : σ → Char → σ} {cuts : σ → Char → Bool}

/-- Whether no character of a text is a separator in the state it is met in. -/
def Uncut (next : σ → Char → σ) (cuts : σ → Char → Bool) : σ → List Char → Prop
  | _, [] => True
  | st, c :: s => cuts st c = false ∧ Uncut next cuts (next st c) s

instance decidableUncut : ∀ st s, Decidable (Uncut next cuts st s)
  | _, [] => isTrue trivial
  | st, c :: s =>
    haveI : Decidable (Uncut next cuts (next st c) s) := decidableUncut (next st c) s
    inferInstanceAs (Decidable (cuts st c = false ∧ Uncut next cuts (next st c) s))

theorem uncut_append {st : σ} {s t : List Char} :
    Uncut next cuts st (s ++ t) ↔
      Uncut next cuts st s ∧ Uncut next cuts (s.foldl next st) t := by
  induction s generalizing st with
  | nil => simp [Uncut]
  | cons c s ih => simp [Uncut, ih, and_assoc]

theorem uncut_iff {st : σ} {s : List Char} :
    Uncut next cuts st s ↔ ∀ u c v, s = u ++ c :: v → cuts (u.foldl next st) c = false := by
  constructor
  · rintro h u c v rfl
    exact (uncut_append.mp h).2.1
  · intro h
    induction s generalizing st with
    | nil => trivial
    | cons c s ih => exact ⟨h [] c s rfl, ih fun u d v hs => h (c :: u) d v (by rw [hs]; rfl)⟩

theorem splitBy_append_of_uncut {st : σ} {s : List Char} (h : Uncut next cuts st s)
    (t : List Char) :
    splitBy next cuts st (s ++ t) = appendHead s (splitBy next cuts (s.foldl next st) t) := by
  induction s generalizing st with
  | nil => rfl
  | cons c s ih =>
    rw [List.cons_append, splitBy, h.1, ih h.2]
    rfl

theorem splitBy_of_uncut {st : σ} {s : List Char} (h : Uncut next cuts st s) :
    splitBy next cuts st s = [s] := by
  have hsplit := splitBy_append_of_uncut h []
  rwa [List.append_nil, splitBy, appendHead_cons_head, List.append_nil] at hsplit

theorem splitBy_append_of_cuts {st : σ} {s : List Char} {c : Char}
    (hc : cuts (s.foldl next st) c = true) (t : List Char) :
    splitBy next cuts st (s ++ c :: t) =
      splitBy next cuts st s ++ splitBy next cuts (next (s.foldl next st) c) t := by
  induction s generalizing st with
  | nil => exact if_pos hc
  | cons d s ih =>
    have hrest := ih hc
    have hne : splitBy next cuts (next st d) s ≠ [] := splitBy_ne_nil _ _
    obtain ⟨p, ps, hp⟩ := List.exists_cons_of_ne_nil hne
    rw [List.cons_append, splitBy, splitBy, hrest, hp]
    split <;> rfl

theorem splitBy_append_cons {st : σ} {s : List Char} (h : Uncut next cuts st s) {c : Char}
    (hc : cuts (s.foldl next st) c = true) (t : List Char) :
    splitBy next cuts st (s ++ c :: t) =
      s :: splitBy next cuts (next (s.foldl next st) c) t := by
  rw [splitBy_append_of_cuts hc, splitBy_of_uncut h, List.singleton_append]

/-- Pieces joined by a separator are cut apart again, if each of them is uncut and each but the last
leads back to the state it was begun in. -/
theorem splitBy_intercalate {st : σ} {c : Char} (hcut : cuts st c = true) (hnext : next st c = st)
    {pieces : List (List Char)} {last : List Char}
    (hpieces : ∀ p ∈ pieces, Uncut next cuts st p ∧ p.foldl next st = st)
    (hlast : Uncut next cuts st last) :
    splitBy next cuts st ([c].intercalate (pieces ++ [last])) = pieces ++ [last] := by
  induction pieces with
  | nil => simpa using splitBy_of_uncut hlast
  | cons p pieces ih =>
    obtain ⟨hp, hback⟩ := hpieces p (by simp)
    have hrest := ih fun q hq => hpieces q (by simp [hq])
    rw [List.cons_append, List.intercalate_cons_of_ne_nil (by simp), List.append_assoc,
      List.singleton_append, splitBy_append_cons hp (by rwa [hback]), hback, hnext, hrest]

theorem length_consHead (c : Char) {ps : List (List Char)} (h : ps ≠ []) :
    (consHead c ps).length = ps.length := by
  match ps, h with
  | p :: ps, _ => rfl

theorem length_splitBy_concat (st : σ) (s : List Char) (c : Char) :
    (splitBy next cuts st (s ++ [c])).length =
      (splitBy next cuts st s).length + if cuts (s.foldl next st) c then 1 else 0 := by
  induction s generalizing st with
  | nil =>
    show (splitBy next cuts st [c]).length = _
    by_cases hc : cuts st c = true <;> simp [splitBy, hc, consHead]
  | cons d s ih =>
    rw [List.cons_append, splitBy, splitBy]
    by_cases hd : cuts st d = true
    · rw [if_pos hd, if_pos hd, List.length_cons, List.length_cons, ih, Nat.add_right_comm]
      rfl
    · rw [if_neg hd, if_neg hd, length_consHead _ (splitBy_ne_nil _ _),
        length_consHead _ (splitBy_ne_nil _ _), ih]
      rfl

/-! ## Where the pieces stand -/

theorem splitBy_eq_cons {st : σ} {s p : List Char} {ps : List (List Char)}
    (h : splitBy next cuts st s = p :: ps) :
    Uncut next cuts st p ∧ (s = p ∧ ps = [] ∨ ∃ c t, s = p ++ c :: t ∧
      cuts (p.foldl next st) c = true ∧ splitBy next cuts (next (p.foldl next st) c) t = ps) := by
  induction s generalizing st p with
  | nil =>
    obtain ⟨rfl, rfl⟩ := List.cons.inj h
    exact ⟨trivial, .inl ⟨rfl, rfl⟩⟩
  | cons d s ih =>
    rw [splitBy] at h
    split at h
    · next hd =>
      obtain ⟨rfl, rfl⟩ := List.cons.inj h
      exact ⟨trivial, .inr ⟨d, s, rfl, hd, rfl⟩⟩
    · next hd =>
      have hne : splitBy next cuts (next st d) s ≠ [] := splitBy_ne_nil _ _
      obtain ⟨q, qs, hq⟩ := List.exists_cons_of_ne_nil hne
      rw [hq] at h
      obtain ⟨rfl, rfl⟩ := List.cons.inj h
      obtain ⟨huncut, hrest⟩ := ih hq
      refine ⟨⟨by simpa using hd, huncut⟩, hrest.imp ?_ ?_⟩
      · rintro ⟨rfl, hqs⟩
        exact ⟨rfl, hqs⟩
      · rintro ⟨c, t, rfl, hc, ht⟩
        exact ⟨c, t, rfl, hc, ht⟩

/-- Whether the pieces `ps` come from a text before another piece: from no text at all, or from one
that ends in a separator. -/
def PiecesBefore (next : σ → Char → σ) (cuts : σ → Char → Bool) (st : σ) (u : List Char)
    (ps : List (List Char)) : Prop :=
  u = [] ∧ ps = [] ∨
    ∃ t c, u = t ++ [c] ∧ cuts (t.foldl next st) c = true ∧ splitBy next cuts st t = ps

/-- Whether the pieces `ps` come from a text behind another piece: from no text at all, or from one
that begins with a separator. -/
def PiecesBehind (next : σ → Char → σ) (cuts : σ → Char → Bool) (st : σ) (w : List Char)
    (ps : List (List Char)) : Prop :=
  w = [] ∧ ps = [] ∨
    ∃ c t, w = c :: t ∧ cuts st c = true ∧ splitBy next cuts (next st c) t = ps

/-- A piece is a stretch without separators that is bounded on both sides by a separator or by the end
of the text. -/
theorem splitBy_eq_append_cons_iff {st : σ} {s v : List Char} {ps qs : List (List Char)} :
    splitBy next cuts st s = ps ++ v :: qs ↔
      ∃ u w, s = u ++ v ++ w ∧ PiecesBefore next cuts st u ps ∧
        Uncut next cuts (u.foldl next st) v ∧
        PiecesBehind next cuts (v.foldl next (u.foldl next st)) w qs := by
  constructor
  · intro h
    induction ps generalizing st s with
    | nil =>
      obtain ⟨hv, ⟨rfl, rfl⟩ | ⟨c, t, rfl, hc, ht⟩⟩ := splitBy_eq_cons h
      · exact ⟨[], [], by simp, .inl ⟨rfl, rfl⟩, hv, .inl ⟨rfl, rfl⟩⟩
      · exact ⟨[], c :: t, rfl, .inl ⟨rfl, rfl⟩, hv, .inr ⟨c, t, rfl, hc, ht⟩⟩
    | cons p ps ih =>
      obtain ⟨hp, ⟨rfl, hnil⟩ | ⟨c, t, rfl, hc, ht⟩⟩ := splitBy_eq_cons h
      · cases ps <;> cases hnil
      · obtain ⟨u, w, rfl, hu, hv, hw⟩ := ih ht
        refine ⟨p ++ c :: u, w, by simp, .inr ?_, by simpa using hv, by simpa using hw⟩
        rcases hu with ⟨rfl, rfl⟩ | ⟨t, d, rfl, hd, rfl⟩
        · exact ⟨p, c, rfl, hc, splitBy_of_uncut hp⟩
        · exact ⟨p ++ c :: t, d, by simp, by simpa using hd, splitBy_append_cons hp hc t⟩
  · rintro ⟨u, w, rfl, hu, hv, hw⟩
    have hbehind : splitBy next cuts (u.foldl next st) (v ++ w) = v :: qs := by
      rcases hw with ⟨rfl, rfl⟩ | ⟨c, t, rfl, hc, rfl⟩
      · rw [List.append_nil, splitBy_of_uncut hv]
      · exact splitBy_append_cons hv hc t
    rcases hu with ⟨rfl, rfl⟩ | ⟨t, c, rfl, hc, rfl⟩
    · exact hbehind
    · have hsplit := splitBy_append_of_cuts hc (v ++ w)
      rw [List.foldl_append] at hbehind
      rw [List.append_assoc, List.append_assoc, List.singleton_append, hsplit]
      exact congrArg _ hbehind

end UtilityCss.Text
