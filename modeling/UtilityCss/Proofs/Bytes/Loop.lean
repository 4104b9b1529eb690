import UtilityCss.Proofs.Bytes.Slice

/-!
# Loops over the bytes of a text

A loop reads the byte at its offset and goes on at another offset, or stops; behind the last byte it
finishes. It has as many steps as the text has bytes, and is trapped if it needs more (`Loop.run`).

A loop `Gives` a result from an offset on if it gives it with any number of steps that is not less than the
number of bytes from there on. Every step goes forward, so what a loop gives is found step by step, with no
regard to their number (`gives_of_goOn`). A step over a character is a step over its byte, or several over
the bytes of a wide character, which a loop may also meet in the middle (`gives_of_wide`).
-/

namespace UtilityCss.Bytes

open Token (byteLength byteLength_append)

/-- What a loop does behind a step. -/
inductive Turn (σ ρ : Type) where
  | goOn (offset : Nat) (state : σ)
  | stop (result : ρ)

/-- A loop over the bytes of a text. -/
structure Loop (σ ρ : Type) where
  text : List Char
  /-- The step at an offset, with the byte that stands there. -/
  step : Nat → Char → σ → Except Trap (Turn σ ρ)
  /-- The result behind the last byte. -/
  finish : σ → Except Trap ρ

namespace Loop

variable {σ ρ : Type}

/-- The loop from an offset on, in so many steps. -/
def runFor (L : Loop σ ρ) : Nat → Nat → σ → Except Trap ρ
  | 0, i, st => if i < (encode L.text).length then .error .steps else L.finish st
  | steps + 1, i, st =>
    match (encode L.text)[i]? with
    | none => L.finish st
    | some b =>
      match L.step i b st with
      | .error trap => .error trap
      | .ok (.stop r) => .ok r
      | .ok (.goOn j st') => L.runFor steps j st'

/-- The loop over the whole text, in one step for each byte at most. -/
def run (L : Loop σ ρ) (st : σ) : Except Trap ρ := L.runFor (encode L.text).length 0 st

/-- Whether a loop gives a result from an offset on, if there are steps for all bytes from there on. -/
def Gives (L : Loop σ ρ) (i : Nat) (st : σ) (r : Except Trap ρ) : Prop :=
  ∀ steps, (encode L.text).length ≤ i + steps → L.runFor steps i st = r

variable {L : Loop σ ρ} {i j : Nat} {st st' : σ} {r : Except Trap ρ} {b c : Char} {u v : List Char}

theorem run_eq_of_gives (h : L.Gives 0 st r) : L.run st = r :=
  h _ (Nat.le_of_eq (Nat.zero_add _).symm)

theorem gives_of_length_le (h : (encode L.text).length ≤ i) : L.Gives i st (L.finish st) := by
  intro steps _
  cases steps with
  | zero => exact if_neg (Nat.not_lt.mpr h)
  | succ steps => rw [runFor, List.getElem?_eq_none h]

theorem gives_of_stop {x : ρ} (hb : (encode L.text)[i]? = some b) (hstep : L.step i b st = .ok (.stop x)) :
    L.Gives i st (.ok x) := by
  have hi := (List.getElem?_eq_some_iff.mp hb).1
  intro steps hsteps
  obtain ⟨n, rfl⟩ : ∃ n, steps = n + 1 := ⟨steps - 1, by omega⟩
  rw [runFor, hb]
  simp only [hstep]

theorem gives_of_goOn (hb : (encode L.text)[i]? = some b) (hstep : L.step i b st = .ok (.goOn j st'))
    (hij : i < j) (h : L.Gives j st' r) : L.Gives i st r := by
  have hi := (List.getElem?_eq_some_iff.mp hb).1
  intro steps hsteps
  obtain ⟨n, rfl⟩ : ∃ n, steps = n + 1 := ⟨steps - 1, by omega⟩
  rw [runFor, hb]
  simp only [hstep]
  exact h n (by omega)

/-! ## Steps over characters -/

theorem getElem?_encode_of_not_isWide (htext : L.text = u ++ c :: v) (hc : ¬ IsWide c) :
    (encode L.text)[byteLength u]? = some c := by
  rw [htext, ← List.singleton_append, encode_append, encode_append, encode_of_not_isWide hc,
    ← length_encode u]
  simp

theorem gives_of_byte (htext : L.text = u ++ c :: v) (hc : ¬ IsWide c)
    (hstep : L.step (byteLength u) c st = .ok (.goOn (byteLength u + 1) st'))
    (h : L.Gives (byteLength (u ++ [c])) st' r) : L.Gives (byteLength u) st r := by
  rw [byteLength_concat_of_not_isWide hc] at h
  exact gives_of_goOn (getElem?_encode_of_not_isWide htext hc) hstep (Nat.lt_succ_self _) h

theorem exists_getElem?_encode (htext : L.text = u ++ c :: v) (hi : byteLength u ≤ i)
    (hlt : i < byteLength (u ++ [c])) : ∃ b ∈ encode [c], (encode L.text)[i]? = some b := by
  rw [← length_encode] at hi hlt
  rw [encode_append, List.length_append] at hlt
  have hbound : i - (encode u).length < (encode [c]).length := by omega
  refine ⟨(encode [c])[i - (encode u).length], List.getElem_mem hbound, ?_⟩
  rw [htext, ← List.singleton_append, encode_append, encode_append, List.getElem?_append_right hi,
    List.getElem?_append_left hbound, List.getElem?_eq_getElem hbound]

/-- A loop that passes over the bytes of wide characters passes over the rest of one. -/
theorem gives_of_wide (htext : L.text = u ++ c :: v) (hc : IsWide c)
    (hstep : ∀ k b, IsWide b → L.step k b st = .ok (.goOn (k + 1) st))
    (h : L.Gives (byteLength (u ++ [c])) st r) (hi : byteLength u ≤ i) (hle : i ≤ byteLength (u ++ [c])) :
    L.Gives i st r := by
  induction hn : byteLength (u ++ [c]) - i generalizing i with
  | zero =>
    obtain rfl : i = byteLength (u ++ [c]) := by omega
    exact h
  | succ n ih =>
    obtain ⟨b, hmem, hb⟩ := exists_getElem?_encode htext hi (by omega)
    exact gives_of_goOn hb (hstep i b (isWide_of_mem_encode hc hmem)) (Nat.lt_succ_self i)
      (ih (Nat.le_succ_of_le hi) (by omega) (by omega))

theorem gives_of_unchanged (htext : L.text = u ++ c :: v)
    (hstep : ∀ k b, b = c ∨ IsWide c ∧ IsWide b → L.step k b st = .ok (.goOn (k + 1) st))
    (h : L.Gives (byteLength (u ++ [c])) st r) : L.Gives (byteLength u) st r := by
  by_cases hc : IsWide c
  · refine gives_of_wide htext hc (fun k b hb => hstep k b (.inr ⟨hc, hb⟩)) h (Nat.le_refl _) ?_
    rw [byteLength_append]
    exact Nat.le_add_right _ _
  · exact gives_of_byte htext hc (hstep _ c (.inl rfl)) h

end Loop
end UtilityCss.Bytes
