import UtilityCss.Proofs.Bytes.Loop

/-!
# Cutting a text by its bytes

A cutter goes over the bytes of a text and does something with the offsets of each piece between two
separators. Behind a backslash some cutters jump over one byte, which may be the first of several bytes of a
character, or no byte of the text at all. The offsets are those of the pieces into which the text is cut by
its characters all the same (`Cutter.run_eq_ok`): what is left of a wide character says nothing to a cutter.
-/

namespace UtilityCss.Bytes

open Token (byteLength byteLength_append)
open Text (splitBy appendHead consHead)

/-- How a text is cut: the automaton that finds the separators, and the characters behind which a byte is
jumped over. -/
structure Cutter (σ : Type) where
  start : σ
  next : σ → Char → σ
  cuts : σ → Char → Bool
  skips : Char → Bool

/-- Where a cutter stands. -/
structure Cut (σ α : Type) where
  state : σ
  /-- The offset behind the last separator. -/
  start : Nat
  found : List α

/-- What is found in the pieces of a text, the last of which may be handled in its own way, when the first
one starts at `start`. -/
def found {α : Type} (inner last : Nat → List Char → List α) : Nat → List (List Char) → List α
  | _, [] => []
  | start, [p] => last start p
  | start, p :: ps => inner start p ++ found inner last (start + byteLength p + 1) ps

namespace Cutter

variable {σ α : Type}

/-- The loop of a cutter, with what is done between two offsets and behind the last separator. -/
def loop (K : Cutter σ) (s : List Char) (emit : Nat → Nat → Except Trap (List α))
    (emitLast : Nat → Except Trap (List α)) : Loop (Cut σ α) (List α) where
  text := s
  step i b c :=
    if K.skips b then .ok (.goOn (i + 2) c)
    else if K.cuts c.state b then do
      let new ← emit c.start i
      .ok (.goOn (i + 1) ⟨K.next c.state b, i + 1, c.found ++ new⟩)
    else .ok (.goOn (i + 1) { c with state := K.next c.state b })
  finish c := do
    let new ← emitLast c.start
    .ok (c.found ++ new)

def run (K : Cutter σ) (s : List Char) (emit : Nat → Nat → Except Trap (List α))
    (emitLast : Nat → Except Trap (List α)) : Except Trap (List α) :=
  (K.loop s emit emitLast).run ⟨K.start, 0, []⟩

/-- Whether a cutter may go by bytes: in the states in which it meets a byte, a wide character means nothing
to it, and behind a character that it skips so does any character. -/
structure IsBytewise (K : Cutter σ) (plain : σ → Prop) : Prop where
  start : plain K.start
  wide : ∀ {st c}, plain st → IsWide c → K.skips c = false ∧ K.cuts st c = false ∧ K.next st c = st
  skipped : ∀ {st c}, plain st → K.skips c = true → K.cuts st c = false ∧
    ∀ d, K.cuts (K.next st c) d = false ∧ K.next (K.next st c) d = st
  next : ∀ {st c}, plain st → K.skips c = false → plain (K.next st c)

end Cutter

theorem found_cons {α : Type} (inner last : Nat → List Char → List α) (start : Nat) (p : List Char)
    {ps : List (List Char)} (h : ps ≠ []) :
    found inner last start (p :: ps) = inner start p ++ found inner last (start + byteLength p + 1) ps := by
  match ps, h with
  | q :: ps, _ => rfl

namespace Cutter

variable {σ α : Type} {K : Cutter σ} {plain : σ → Prop} {s : List Char}
  {emit : Nat → Nat → Except Trap (List α)} {emitLast : Nat → Except Trap (List α)}
  {inner last : Nat → List Char → List α}

theorem IsBytewise.not_isWide_of_cuts (hK : K.IsBytewise plain) {st : σ} {c : Char} (hst : plain st)
    (h : K.cuts st c = true) : ¬ IsWide c := fun hc => by
  rw [(hK.wide hst hc).2.1] at h
  cases h

theorem appendHead_splitBy_of_not_cuts {st : σ} {c : Char} (h : K.cuts st c = false) (w v : List Char) :
    appendHead w (splitBy K.next K.cuts st (c :: v)) =
      appendHead (w ++ [c]) (splitBy K.next K.cuts (K.next st c) v) := by
  have hcons : ∀ ps, appendHead w (consHead c ps) = appendHead (w ++ [c]) ps := fun ps => by
    simp [appendHead]
  rw [splitBy, if_neg (by simp [h]), hcons]

/-- Whether what is done with the offsets of a piece finds what is said of the piece. -/
structure Finds (s : List Char) (emit : Nat → Nat → Except Trap (List α))
    (emitLast : Nat → Except Trap (List α)) (inner last : Nat → List Char → List α) : Prop where
  inner : ∀ u p v, s = u ++ p ++ v →
    emit (byteLength u) (byteLength (u ++ p)) = .ok (inner (byteLength u) p)
  last : ∀ u p, s = u ++ p → emitLast (byteLength u) = .ok (last (byteLength u) p)

/-! ## One character -/

variable {x u w v : List Char} {c d : Char} {cut : Cut σ α} {r : Except Trap (List α)}

theorem gives_of_passed (hK : K.IsBytewise plain) (hx : s = x ++ c :: v) (hst : plain cut.state)
    (hskip : K.skips c = false) (hcut : K.cuts cut.state c = false)
    (h : (K.loop s emit emitLast).Gives (byteLength (x ++ [c])) { cut with state := K.next cut.state c } r) :
    (K.loop s emit emitLast).Gives (byteLength x) cut r := by
  have hpass : ∀ k b, K.skips b = false → K.cuts cut.state b = false →
      (K.loop s emit emitLast).step k b cut =
        .ok (.goOn (k + 1) { cut with state := K.next cut.state b }) := by
    intro k b hb hb'
    simp [loop, hb, hb']
  by_cases hc : IsWide c
  · have hsame : ∀ b, IsWide b → K.next cut.state b = cut.state := fun b hb => (hK.wide hst hb).2.2
    rw [hsame c hc] at h
    refine Loop.gives_of_wide hx hc (fun k b hb => ?_) h (Nat.le_refl _) ?_
    · rw [hpass k b (hK.wide hst hb).1 (hK.wide hst hb).2.1, hsame b hb]
    · rw [byteLength_concat]
      exact Nat.le_add_right _ _
  · exact Loop.gives_of_byte hx hc (hpass _ c hskip hcut) h

theorem gives_of_skipped (hK : K.IsBytewise plain) (hx : s = x ++ c :: v) (hst : plain cut.state)
    (hskip : K.skips c = true) (h : (K.loop s emit emitLast).Gives (byteLength (x ++ [c]) + 1) cut r) :
    (K.loop s emit emitLast).Gives (byteLength x) cut r := by
  have hc : ¬ IsWide c := fun hc => by
    rw [(hK.wide hst hc).1] at hskip
    cases hskip
  have hstep : (K.loop s emit emitLast).step (byteLength x) c cut = .ok (.goOn (byteLength x + 2) cut) := by
    simp [loop, hskip]
  rw [byteLength_concat_of_not_isWide hc] at h
  exact Loop.gives_of_goOn (Loop.getElem?_encode_of_not_isWide hx hc) hstep (by omega) h

theorem gives_of_begun (hK : K.IsBytewise plain) (hx : s = x ++ d :: v) (hst : plain cut.state)
    (h : (K.loop s emit emitLast).Gives (byteLength (x ++ [d])) cut r) :
    (K.loop s emit emitLast).Gives (byteLength x + 1) cut r := by
  by_cases hd : IsWide d
  · refine Loop.gives_of_wide hx hd (fun k b hb => ?_) h (Nat.le_succ _) ?_
    · have hb' := hK.wide hst hb
      simp [loop, hb'.1, hb'.2.1, hb'.2.2]
    · rw [byteLength_concat]
      exact Nat.add_le_add_left (Char.utf8Size_pos d) _
  · rwa [byteLength_concat_of_not_isWide hd] at h

theorem gives_of_skipped_pair (hK : K.IsBytewise plain) (hx : s = x ++ c :: d :: v) (hst : plain cut.state)
    (hskip : K.skips c = true) (h : (K.loop s emit emitLast).Gives (byteLength (x ++ [c] ++ [d])) cut r) :
    (K.loop s emit emitLast).Gives (byteLength x) cut r :=
  gives_of_skipped hK hx hst hskip (gives_of_begun hK (v := v) (by simp [hx]) hst h)

theorem gives_of_cut (hK : K.IsBytewise plain) (hf : Finds s emit emitLast inner last)
    (hx : s = u ++ w ++ c :: v) {st : σ} {o : List α} (hst : plain st) (hskip : K.skips c = false)
    (hcut : K.cuts st c = true)
    (h : (K.loop s emit emitLast).Gives (byteLength (u ++ w ++ [c]))
      ⟨K.next st c, byteLength (u ++ w ++ [c]), o ++ inner (byteLength u) w⟩ r) :
    (K.loop s emit emitLast).Gives (byteLength (u ++ w)) ⟨st, byteLength u, o⟩ r := by
  have hc : ¬ IsWide c := hK.not_isWide_of_cuts hst hcut
  have hstep : (K.loop s emit emitLast).step (byteLength (u ++ w)) c ⟨st, byteLength u, o⟩ =
      .ok (.goOn (byteLength (u ++ w) + 1)
        ⟨K.next st c, byteLength (u ++ w) + 1, o ++ inner (byteLength u) w⟩) := by
    simp only [loop, hskip, hcut, hf.inner u w _ hx]
    rfl
  rw [byteLength_concat_of_not_isWide hc] at h
  exact Loop.gives_of_goOn (Loop.getElem?_encode_of_not_isWide hx hc) hstep (Nat.lt_succ_self _) h

theorem gives_of_end (hf : Finds s emit emitLast inner last) (hs : s = u ++ w) {i : Nat}
    (hi : byteLength s ≤ i) (st : σ) (o : List α) :
    (K.loop s emit emitLast).Gives i ⟨st, byteLength u, o⟩ (.ok (o ++ last (byteLength u) w)) := by
  have hfinish : (K.loop s emit emitLast).finish ⟨st, byteLength u, o⟩ =
      .ok (o ++ last (byteLength u) w) := by
    simp only [loop, hf.last u w hs]
    rfl
  rw [← hfinish]
  exact Loop.gives_of_length_le (by rwa [length_encode])

/-! ## A whole text -/

theorem gives_found (hK : K.IsBytewise plain) (hf : Finds s emit emitLast inner last) {st : σ}
    {o : List α} (hs : s = u ++ w ++ v) (hst : plain st) :
    (K.loop s emit emitLast).Gives (byteLength (u ++ w)) ⟨st, byteLength u, o⟩
      (.ok (o ++ found inner last (byteLength u) (appendHead w (splitBy K.next K.cuts st v)))) := by
  -- a skipped character is read together with the next one, so the induction is on the length
  induction hn : v.length using Nat.strongRecOn generalizing u w v st o with
  | ind n ih =>
    have hend : ∀ {w' i}, s = u ++ w' → byteLength s ≤ i →
        (K.loop s emit emitLast).Gives i ⟨st, byteLength u, o⟩
          (.ok (o ++ found inner last (byteLength u) (appendHead w' [[]]))) := by
      intro w' i hs' hi
      rw [Text.appendHead_cons_head, List.append_nil]
      exact gives_of_end hf hs' hi st o
    cases v with
    | nil =>
      rw [List.append_nil] at hs
      exact hend hs (Nat.le_of_eq (congrArg byteLength hs))
    | cons c v =>
      have hbehind : s = u ++ (w ++ [c]) ++ v := by simp [hs]
      cases hskip : K.skips c with
      | true =>
        obtain ⟨hcut, hnext⟩ := hK.skipped hst hskip
        rw [appendHead_splitBy_of_not_cuts hcut]
        cases v with
        | nil =>
          rw [List.append_nil] at hbehind
          refine gives_of_skipped hK hs hst hskip (hend hbehind ?_)
          rw [congrArg byteLength hbehind, ← List.append_assoc]
          exact Nat.le_succ _
        | cons d v =>
          have hlt : v.length < n := by
            rw [← hn, List.length_cons, List.length_cons]
            omega
          have hrest := ih v.length hlt (u := u) (w := w ++ [c] ++ [d]) (o := o) (by simp [hs]) hst rfl
          rw [appendHead_splitBy_of_not_cuts (hnext d).1, (hnext d).2]
          rw [← List.append_assoc, ← List.append_assoc] at hrest
          exact gives_of_skipped_pair hK hs hst hskip hrest
      | false =>
        cases hcut : K.cuts st c with
        | true =>
          have hne : splitBy K.next K.cuts (K.next st c) v ≠ [] := Text.splitBy_ne_nil _ _
          have hrest := ih v.length (by simp [← hn]) (u := u ++ w ++ [c]) (w := [])
            (o := o ++ inner (byteLength u) w) (by simp [hs]) (hK.next hst hskip) rfl
          have hstart : byteLength u + byteLength w + 1 = byteLength (u ++ w ++ [c]) := by
            rw [byteLength_concat_of_not_isWide (hK.not_isWide_of_cuts hst hcut), byteLength_append]
          rw [splitBy, if_pos hcut, Text.appendHead_cons_head, List.append_nil, found_cons _ _ _ _ hne,
            hstart, ← List.append_assoc]
          rw [List.append_nil, Text.appendHead_nil] at hrest
          exact gives_of_cut hK hf hs hst hskip hcut hrest
        | false =>
          have hrest := ih v.length (by simp [← hn]) (o := o) hbehind (hK.next hst hskip) rfl
          rw [appendHead_splitBy_of_not_cuts hcut]
          rw [← List.append_assoc] at hrest
          exact gives_of_passed hK hs hst hskip hcut hrest

/-- A cutter finds the pieces of a text. -/
theorem run_eq_ok (hK : K.IsBytewise plain) (hf : Finds s emit emitLast inner last) :
    K.run s emit emitLast = .ok (found inner last 0 (splitBy K.next K.cuts K.start s)) :=
  Loop.run_eq_of_gives (gives_found hK hf (u := []) (w := []) (o := []) rfl hK.start)

end Cutter
end UtilityCss.Bytes
