import Mathlib.Tactic.SplitIfs
import UtilityCss.Proofs.ClassName.Runs

/-!
# Bytes and slices of a text

A text is a list of characters here, and it can be scanned by its UTF-8 bytes. A byte is read as the
character of its code (`encode`), so that what is said of the characters that a scanner looks for is said of
bytes too. These characters have one byte, which is the character itself, and all bytes of any other
character have codes from 128 on (`isWide_of_mem_encode`): a scanner cannot take a byte inside a character
for one that it looks for.

A part of a text is asked for by two offsets in bytes. There is such a part only if the first offset is not
behind the second one, and both lie on boundaries of characters (`exists_slice_eq_ok_iff`).
-/

namespace UtilityCss.Bytes

open Token (byteLength byteLength_append byteLength_eq)

/-- What stops a scanner that is wrong about its offsets. -/
inductive Trap where
  /-- A slice was asked for that the text does not have. -/
  | slice
  /-- A loop was not done after as many steps as its text has bytes. -/
  | steps
  deriving DecidableEq, Repr

@[simp] theorem ok_bind {α β : Type} (a : α) (f : α → Except Trap β) : (Except.ok a >>= f) = f a := rfl

/-- The bytes of a text, each read as the character of its code. -/
def encode (s : List Char) : List Char := (s.flatMap String.utf8EncodeChar).map Char.ofUInt8

/-- Whether the UTF-8 form of a character has more than one byte. -/
def IsWide (c : Char) : Prop := 0x80 ≤ c.toNat

instance (c : Char) : Decidable (IsWide c) := inferInstanceAs (Decidable (0x80 ≤ c.toNat))

/-- Whether a byte offset of a text lies between two characters, or at an end. -/
def IsBoundary (s : List Char) (i : Nat) : Prop := String.Pos.Raw.IsValid (String.ofList s) ⟨i⟩

instance (s : List Char) (i : Nat) : Decidable (IsBoundary s i) :=
  inferInstanceAs (Decidable (String.Pos.Raw.IsValid (String.ofList s) ⟨i⟩))

/-- The text from one byte offset up to another one. -/
def slice (s : List Char) (i j : Nat) : Except Trap (List Char) :=
  if h : i ≤ j ∧ IsBoundary s i ∧ IsBoundary s j then
    .ok ((String.ofList s).extract (String.pos _ ⟨i⟩ h.2.1) (String.pos _ ⟨j⟩ h.2.2)).toList
  else .error .slice

/-! ## Bytes -/

@[simp] theorem encode_nil : encode [] = [] := rfl

theorem encode_append (s t : List Char) : encode (s ++ t) = encode s ++ encode t := by
  simp [encode]

theorem length_encode (s : List Char) : (encode s).length = byteLength s := by
  induction s with
  | nil => rfl
  | cons c s ih =>
    have hc : (encode [c]).length = c.utf8Size := by simp [encode]
    rw [← List.singleton_append, encode_append, List.length_append, ih, hc]
    rfl

theorem encode_ne_nil (c : Char) : encode [c] ≠ [] := by
  simp [encode]

theorem utf8Size_of_not_isWide {c : Char} (h : ¬ IsWide c) : c.utf8Size = 1 := by
  rw [Char.utf8Size_eq_one_iff, UInt32.le_iff_toNat_le]
  exact Nat.le_of_lt_succ (Nat.not_le.mp h)

theorem byteLength_concat (u : List Char) (c : Char) :
    byteLength (u ++ [c]) = byteLength u + c.utf8Size := by
  rw [byteLength_append]
  rfl

theorem byteLength_concat_of_not_isWide {c : Char} (h : ¬ IsWide c) (u : List Char) :
    byteLength (u ++ [c]) = byteLength u + 1 := by
  rw [byteLength_concat, utf8Size_of_not_isWide h]

theorem encode_of_not_isWide {c : Char} (h : ¬ IsWide c) : encode [c] = [c] := by
  have hlt : c.val.toNat < 0x80 := Nat.not_le.mp h
  have hc : Char.ofUInt8 c.val.toUInt8 = c := by
    apply Char.ext
    apply UInt32.toNat_inj.mp
    show c.val.toUInt8.toUInt32.toNat = c.val.toNat
    rw [UInt8.toNat_toUInt32, UInt32.toNat_toUInt8]
    omega
  rw [encode, List.flatMap_singleton, String.utf8EncodeChar_eq_singleton (utf8Size_of_not_isWide h),
    List.map_singleton, hc]

/-- All bytes of a wide character are wide. -/
theorem isWide_of_mem_encode {b c : Char} (h : IsWide c) (hb : b ∈ encode [c]) : IsWide b := by
  obtain ⟨x, hx, rfl⟩ : ∃ x ∈ String.utf8EncodeChar c, Char.ofUInt8 x = b := by
    simpa [encode] using hb
  have hcode : 0x80 ≤ x.toNat → IsWide (Char.ofUInt8 x) := id
  refine hcode ?_
  have hwide : ¬ c.val.toNat ≤ 0x7f := by
    have : 0x80 ≤ c.val.toNat := h
    omega
  have hbyte : ∀ n, 0x80 ≤ n → n < 0x100 → 0x80 ≤ (UInt8.ofNat n).toNat := by
    intro n hlow hhigh
    rw [UInt8.toNat_ofNat']
    omega
  rw [String.utf8EncodeChar, if_neg hwide] at hx
  split_ifs at hx <;> simp only [List.mem_cons, List.not_mem_nil, or_false] at hx
  · rcases hx with rfl | rfl <;> exact hbyte _ (by omega) (by omega)
  · rcases hx with rfl | rfl | rfl <;> exact hbyte _ (by omega) (by omega)
  · rcases hx with rfl | rfl | rfl | rfl <;> exact hbyte _ (by omega) (by omega)

theorem ne_of_isWide {c d : Char} (h : IsWide c) (hd : ¬ IsWide d) : c ≠ d := by
  rintro rfl
  exact hd h

theorem eq_false_of_isWide {p : Char → Bool} {l : List Char} (hl : ∀ d ∈ l, ¬ IsWide d)
    (hp : ∀ c, p c = true → c ∈ l) {c : Char} (h : IsWide c) : p c = false :=
  Bool.eq_false_iff.mpr fun hc => hl c (hp c hc) h

theorem any_encode {p : Char → Bool} (hp : ∀ c, IsWide c → p c = false) (s : List Char) :
    (encode s).any p = s.any p := by
  induction s with
  | nil => rfl
  | cons c s ih =>
    have hc : (encode [c]).any p = p c := by
      by_cases h : IsWide c
      · rw [hp c h, List.any_eq_false]
        exact fun b hb => by simp [hp b (isWide_of_mem_encode h hb)]
      · simp [encode_of_not_isWide h]
    rw [← List.singleton_append, encode_append, List.any_append, List.any_append, hc, ih]
    simp

/-! ## Slices -/

theorem isBoundary_iff {s : List Char} {i : Nat} :
    IsBoundary s i ↔ ∃ u v, s = u ++ v ∧ i = byteLength u := by
  rw [IsBoundary, String.Pos.Raw.isValid_iff_exists_append]
  constructor
  · rintro ⟨u, v, hs, hi⟩
    refine ⟨u.toList, v.toList, ?_, ?_⟩
    · rw [← String.toList_append, ← hs, String.toList_ofList]
    · rw [byteLength_eq, String.ofList_toList]
      exact congrArg String.Pos.Raw.byteIdx hi
  · rintro ⟨u, v, rfl, rfl⟩
    exact ⟨String.ofList u, String.ofList v, String.ofList_append, by rw [byteLength_eq]; rfl⟩

theorem exists_slice_eq_ok_iff {s : List Char} {i j : Nat} :
    (∃ w, slice s i j = .ok w) ↔ i ≤ j ∧ j ≤ byteLength s ∧ IsBoundary s i ∧ IsBoundary s j := by
  unfold slice
  split
  · next h =>
    obtain ⟨u, v, hs, hj⟩ := isBoundary_iff.mp h.2.2
    have hle : j ≤ byteLength s := by
      rw [hs, hj, byteLength_append]
      exact Nat.le_add_right _ _
    exact ⟨fun _ => ⟨h.1, hle, h.2⟩, fun _ => ⟨_, rfl⟩⟩
  · next h => exact ⟨fun ⟨w, hw⟩ => (by cases hw), fun h' => absurd ⟨h'.1, h'.2.2⟩ h⟩

theorem toList_extract {u w v : List Char} {b e : (String.ofList (u ++ w ++ v)).Pos}
    (hb : b.offset.byteIdx = byteLength u) (he : e.offset.byteIdx = byteLength (u ++ w)) :
    (String.extract b e).toList = w := by
  have hsize : ∀ s : List Char, s.utf8Encode.size = byteLength s := fun s => by
    rw [byteLength_eq, ← String.size_toByteArray, String.toByteArray_ofList]
  suffices hextract : String.extract b e = String.ofList w by rw [hextract, String.toList_ofList]
  rw [← String.toByteArray_inj, String.toByteArray_extract, hb, he]
  simp only [String.toByteArray_ofList, List.utf8Encode_append]
  rw [byteLength_append, ← hsize u, ← hsize w, ByteArray.append_assoc]
  have hbehind := ByteArray.extract_append_size_add (a := u.utf8Encode)
    (b := w.utf8Encode ++ v.utf8Encode) (i := 0) (j := w.utf8Encode.size)
  rw [Nat.add_zero] at hbehind
  rw [hbehind, ByteArray.extract_append_eq_left rfl]

theorem slice_append (u w v : List Char) :
    slice (u ++ w ++ v) (byteLength u) (byteLength (u ++ w)) = .ok w := by
  have hle : byteLength u ≤ byteLength (u ++ w) := by
    rw [byteLength_append]
    exact Nat.le_add_right _ _
  rw [slice, dif_pos ⟨hle, isBoundary_iff.mpr ⟨u, w ++ v, by simp, rfl⟩,
    isBoundary_iff.mpr ⟨u ++ w, v, rfl, rfl⟩⟩, toList_extract rfl rfl]

theorem slice_append_right (u v : List Char) :
    slice (u ++ v) (byteLength u) (byteLength (u ++ v)) = .ok v := by
  simpa using slice_append u v []

theorem slice_append_left (u v : List Char) : slice (u ++ v) 0 (byteLength u) = .ok u :=
  slice_append [] u v

end UtilityCss.Bytes
