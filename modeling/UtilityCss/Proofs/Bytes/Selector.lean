import UtilityCss.Proofs.Bytes.Template
import UtilityCss.Proofs.Selector.Escapes

/-!
# Reading a selector by its bytes

The reader looks at one byte, and where it puts something to a compound it takes a slice: a whole escape
behind a backslash, and else a whole character. So it is always on a boundary, and it does what the reader of
characters does, which goes through an escape character by character (`read_eq_ok`).
-/

namespace UtilityCss.Bytes

open Token (byteLength byteLength_append)

/-- The number of bytes of the escape at an offset. -/
def escapeLength (s : List Char) (i : Nat) : Except Trap Nat := do
  let rest ← slice s (i + 1) (byteLength s)
  let digits := (((encode rest).take 6).takeWhile isHexDigit).length
  if 0 < digits then do
    let behind ← slice rest digits (byteLength rest)
    .ok (1 + digits + if [' '].isPrefixOf behind then 1 else 0)
  else .ok (1 + (rest.head?.map Char.utf8Size).getD 0)

/-- The number of bytes of the character at an offset. -/
def charLength (s : List Char) (i : Nat) : Except Trap Nat := do
  let rest ← slice s i (byteLength s)
  .ok ((rest.head?.map Char.utf8Size).getD 1)

/-- The number of bytes that are read together with the byte at an offset. -/
def unitLength (s : List Char) (i : Nat) (b : Char) : Except Trap Nat :=
  if b = '\\' then escapeLength s i else charLength s i

/-- The loop of the reader. -/
def readerLoop (s : List Char) : Loop Reader (Except Fault Selector) where
  text := s
  step i b r :=
    if r.atTop && b == ',' then .ok (.stop (.error .topLevelComma))
    else if r.atTop && (isSelectorSpace b || (Combinator.ofChar? b).isSome) then
      .ok (.goOn (i + 1) (r.separate b))
    else do
      let length ← unitLength s i b
      let text ← slice s i (i + length)
      .ok (.goOn (i + length) ((r.putText text).track b))
  finish r := .ok r.finish

/-- A text read as one selector; blanks around it do not count. -/
def read (s : List Char) : Except Trap (Except Fault Selector) :=
  (readerLoop (Text.trim s)).run Reader.start

theorem isHexDigit_of_isWide {c : Char} (h : IsWide c) : isHexDigit c = false := by
  rw [Bool.eq_false_iff]
  intro hdigit
  have hle : c.val ≤ 0x66 := by
    simp only [isHexDigit, Char.isDigit, Bool.or_eq_true, Bool.and_eq_true, decide_eq_true_eq,
      Char.le_def] at hdigit
    rcases hdigit with (⟨-, h9⟩ | ⟨-, hf⟩) | ⟨-, hF⟩
    · exact UInt32.le_trans h9 (by decide)
    · exact hf
    · exact UInt32.le_trans hF (by decide)
  have hnat : c.val.toNat ≤ 0x66 := UInt32.le_iff_toNat_le.mp hle
  have hwide : 0x80 ≤ c.val.toNat := h
  omega

theorem takeWhile_take_encode {p : Char → Bool} (hp : ∀ c, IsWide c → p c = false) (n : Nat)
    (s : List Char) : ((encode s).take n).takeWhile p = (s.take n).takeWhile p := by
  induction s generalizing n with
  | nil => rfl
  | cons c s ih =>
    cases n with
    | zero => rfl
    | succ n =>
      rw [← List.singleton_append, encode_append]
      by_cases hc : IsWide c
      · obtain ⟨b, bs, hb⟩ := List.exists_cons_of_ne_nil (encode_ne_nil c)
        have hwide : IsWide b := isWide_of_mem_encode hc (by simp [hb])
        simp [hb, hp b hwide, hp c hc]
      · rw [encode_of_not_isWide hc, List.singleton_append, List.singleton_append, List.take_succ_cons,
          List.take_succ_cons, List.takeWhile_cons, List.takeWhile_cons, ih]

theorem byteLength_of_forall {s : List Char} (h : ∀ c ∈ s, ¬ IsWide c) : byteLength s = s.length := by
  induction s with
  | nil => rfl
  | cons c s ih =>
    have hc := utf8Size_of_not_isWide (h c (by simp))
    have hcons : byteLength (c :: s) = c.utf8Size + byteLength s := rfl
    rw [hcons, hc, ih fun d hd => h d (by simp [hd]), List.length_cons, Nat.add_comm]

theorem byteLength_leadingDigits (k : Nat) (v : List Char) :
    byteLength (leadingDigits k v) = (leadingDigits k v).length := by
  refine byteLength_of_forall fun c hc hwide => ?_
  have := List.mem_takeWhile_imp hc
  rw [isHexDigit_of_isWide hwide] at this
  cases this

theorem escapeLength_eq_ok (u v : List Char) :
    escapeLength (u ++ '\\' :: v) (byteLength u) = .ok (byteLength ('\\' :: escapeText v)) := by
  have hrest : slice (u ++ '\\' :: v) (byteLength u + 1) (byteLength (u ++ '\\' :: v)) = .ok v := by
    have hsplit : u ++ '\\' :: v = (u ++ ['\\']) ++ v := by simp
    rw [← byteLength_concat_of_not_isWide (c := '\\') (by decide), hsplit]
    exact slice_append_right _ v
  have hdigits : (((encode v).take 6).takeWhile isHexDigit).length = (leadingDigits 6 v).length :=
    congrArg List.length (takeWhile_take_encode (fun c => isHexDigit_of_isWide) 6 v)
  have hbehind : slice v (leadingDigits 6 v).length (byteLength v) =
      .ok (v.drop (leadingDigits 6 v).length) := by
    have := slice_append_right (leadingDigits 6 v) (v.drop (leadingDigits 6 v).length)
    rwa [leadingDigits_append_drop, byteLength_leadingDigits] at this
  have hcons : ∀ e, byteLength ('\\' :: e) = 1 + byteLength e := fun e => rfl
  rw [escapeLength, hrest, ok_bind, hdigits]
  dsimp only
  rw [hbehind, ok_bind, hcons, escapeText_eq]
  by_cases hnil : leadingDigits 6 v = []
  · rw [if_neg (by simp [hnil]), if_pos hnil]
    cases v <;> simp [byteLength]
  · rw [if_pos (List.length_pos_iff.mpr hnil), if_neg hnil, byteLength_append, byteLength_leadingDigits,
      leadingSpace, Nat.add_assoc]
    split_ifs <;> rfl

theorem charLength_eq_ok (u v : List Char) (c : Char) :
    charLength (u ++ c :: v) (byteLength u) = .ok c.utf8Size := by
  rw [charLength, slice_append_right, ok_bind]
  rfl

/-! ## The loop -/

theorem isSelectorSpace_of_isWide {c : Char} (h : IsWide c) : isSelectorSpace c = false :=
  eq_false_of_isWide (l := ['\t', '\n', '\x0c', '\r', ' ']) (by simp [IsWide])
    (by simp [isSelectorSpace, or_assoc]) h

theorem isSome_ofChar?_of_isWide {c : Char} (h : IsWide c) : (Combinator.ofChar? c).isSome = false := by
  refine eq_false_of_isWide (p := fun c => (Combinator.ofChar? c).isSome) (l := ['>', '+', '~'])
    (by simp [IsWide]) (fun c hc => ?_) h
  unfold Combinator.ofChar? at hc
  split_ifs at hc <;> simp_all

theorem not_isWide_of_isBreak {c : Char} (h : IsBreak c) : ¬ IsWide c := by
  intro hc
  rcases h with h | h
  · rw [isSelectorSpace_of_isWide hc] at h
    cases h
  · rw [isSome_ofChar?_of_isWide hc] at h
    cases h

theorem track_of_isWide {r : Reader} (hquote : ∀ q, r.quote = some q → isQuote q = true) {c : Char}
    (hc : IsWide c) : r.track c = r := by
  cases hq : r.quote with
  | none => simp [Reader.track, hq, isQuote_of_isWide hc, isOpener_of_isWide hc, isCloser_of_isWide hc]
  | some q =>
    have hne := ne_of_isWide hc (not_isWide_of_isQuote (hquote q hq))
    simp [Reader.track, hq, hne]

variable {s u v t : List Char} {r : Reader} {b c : Char} {x : Except Trap (Except Fault Selector)}

/-- Whether a byte is put to the compound, with what belongs to it. -/
def IsPut (r : Reader) (b : Char) : Prop := r.atTop = true → b ≠ ',' ∧ ¬ IsBreak b

theorem IsPut.not_comma (h : IsPut r b) : (r.atTop && b == ',') = false := by
  cases htop : r.atTop with
  | false => rfl
  | true => exact beq_eq_false_iff_ne.mpr (h htop).1

theorem IsPut.not_break (h : IsPut r b) :
    (r.atTop && (isSelectorSpace b || (Combinator.ofChar? b).isSome)) = false := by
  cases htop : r.atTop with
  | false => rfl
  | true => exact Bool.eq_false_iff.mpr fun hb => (h htop).2 (by simpa [IsBreak] using hb)

theorem gives_of_isPut (hs : s = u ++ t ++ v) (ht : t ≠ []) (hb : (encode s)[byteLength u]? = some b)
    (hput : IsPut r b)
    (hlength : unitLength s (byteLength u) b = .ok (byteLength t))
    (h : (readerLoop s).Gives (byteLength (u ++ t)) ((r.putText t).track b) x) :
    (readerLoop s).Gives (byteLength u) r x := by
  have hslice : slice s (byteLength u) (byteLength u + byteLength t) = .ok t := by
    rw [← byteLength_append, hs]
    exact slice_append u t v
  have hpos : 0 < byteLength t := by
    cases t with
    | nil => exact absurd rfl ht
    | cons c t => exact Nat.add_pos_left (Char.utf8Size_pos c) _
  have hstep : (readerLoop s).step (byteLength u) b r =
      .ok (.goOn (byteLength u + byteLength t) ((r.putText t).track b)) := by
    simp only [readerLoop, hput.not_comma, hput.not_break, hlength, hslice, ok_bind, Bool.false_eq_true,
      if_false]
  rw [byteLength_append] at h
  exact Loop.gives_of_goOn hb hstep (by omega) h

theorem gives_complete_comma (hs : s = u ++ ',' :: v) (he : r.escape = .outside) (htop : r.atTop = true) :
    (readerLoop s).Gives (byteLength u) r (.ok (r.complete (',' :: v))) := by
  have hfault : r.complete (',' :: v) = .error .topLevelComma := by
    rw [Reader.complete_cons, Reader.step, he]
    simp [Reader.plain, htop]
    rfl
  rw [hfault]
  refine Loop.gives_of_stop (Loop.getElem?_encode_of_not_isWide (L := readerLoop s) hs (by decide)) ?_
  simp [readerLoop, htop]

theorem gives_complete_break (hs : s = u ++ c :: v) (he : r.escape = .outside) (htop : r.atTop = true)
    (hc : IsBreak c)
    (h : (readerLoop s).Gives (byteLength (u ++ [c])) (r.separate c) (.ok ((r.separate c).complete v))) :
    (readerLoop s).Gives (byteLength u) r (.ok (r.complete (c :: v))) := by
  have hcomma : c ≠ ',' := Reader.ne_comma_of_isBreak hc
  have hbreak : (isSelectorSpace c || (Combinator.ofChar? c).isSome) = true := by simpa [IsBreak] using hc
  have hstep : r.step c = .ok (r.separate c) := by
    simp [Reader.step, he, Reader.plain, htop, hcomma, hbreak]
  rw [Reader.complete_of_step hstep]
  refine Loop.gives_of_byte (L := readerLoop s) hs (not_isWide_of_isBreak hc) ?_ h
  simp only [readerLoop, htop, hbreak, beq_eq_false_iff_ne.mpr hcomma, Bool.and_true, Bool.and_false,
    Bool.false_eq_true, if_false, if_true]

section

variable (hquote : ∀ q, r.quote = some q → isQuote q = true)

include hquote

theorem gives_complete_escape (hs : s = u ++ '\\' :: v) (he : r.escape = .outside) (hput : IsPut r '\\')
    (h : (readerLoop s).Gives (byteLength (u ++ '\\' :: escapeText v)) (r.putText ('\\' :: escapeText v))
      (.ok ((r.putText ('\\' :: escapeText v)).complete (v.drop (escapeText v).length)))) :
    (readerLoop s).Gives (byteLength u) r (.ok (r.complete ('\\' :: v))) := by
  have hs' : s = u ++ '\\' :: escapeText v ++ v.drop (escapeText v).length := by
    rw [hs, List.append_assoc, List.cons_append, escapeText_append_drop]
  have hlength : unitLength s (byteLength u) '\\' = .ok (byteLength ('\\' :: escapeText v)) := by
    rw [hs]
    exact escapeLength_eq_ok u v
  rw [Reader.complete_escape he]
  refine gives_of_isPut hs' (List.cons_ne_nil _ _)
    (Loop.getElem?_encode_of_not_isWide (L := readerLoop s) hs (by decide)) hput hlength ?_
  rwa [Reader.track_backslash (by simpa using hquote)]

theorem gives_complete_char (hs : s = u ++ c :: v) (he : r.escape = .outside) (hput : IsPut r c)
    (hslash : c ≠ '\\')
    (h : (readerLoop s).Gives (byteLength (u ++ [c])) ((r.put c).track c)
      (.ok (((r.put c).track c).complete v))) :
    (readerLoop s).Gives (byteLength u) r (.ok (r.complete (c :: v))) := by
  have hstep : r.step c = .ok ((r.put c).track c) := by
    simp only [Reader.step, he, Reader.plain, hput.not_comma, hput.not_break, hslash, Bool.false_eq_true,
      if_false]
  have hs' : s = u ++ [c] ++ v := by simp [hs]
  have hlength : ∀ b, b ≠ '\\' → unitLength s (byteLength u) b = .ok (byteLength [c]) := by
    intro b hb
    rw [unitLength, if_neg hb, hs]
    exact charLength_eq_ok u v c
  rw [Reader.complete_of_step hstep]
  by_cases hc : IsWide c
  · obtain ⟨b, hmem, hb⟩ := Loop.exists_getElem?_encode (L := readerLoop s) hs (Nat.le_refl _)
      (by rw [byteLength_concat]; exact Nat.lt_add_of_pos_right (Char.utf8Size_pos c))
    have hwide := isWide_of_mem_encode hc hmem
    have hput' : IsPut r b := fun _ =>
      ⟨ne_of_isWide hwide (by decide), fun hbreak => not_isWide_of_isBreak hbreak hwide⟩
    have hquote' : ∀ q, (r.put c).quote = some q → isQuote q = true := by simpa using hquote
    refine gives_of_isPut hs' (List.cons_ne_nil _ _) hb hput'
      (hlength b (ne_of_isWide hwide (by decide))) ?_
    rw [track_of_isWide hquote' hc] at h ⊢
    have hsame : (r.putText [c]).track b = r.put c := track_of_isWide hquote' hwide
    rwa [hsame]
  · exact gives_of_isPut hs' (List.cons_ne_nil _ _)
      (Loop.getElem?_encode_of_not_isWide (L := readerLoop s) hs hc) hput (hlength c hslash) h

theorem gives_complete (hs : s = u ++ v) (he : r.escape = .outside) :
    (readerLoop s).Gives (byteLength u) r (.ok (r.complete v)) := by
  induction hn : v.length using Nat.strongRecOn generalizing u v r with
  | ind n ih =>
    cases v with
    | nil =>
      have hend : byteLength (readerLoop s).text ≤ byteLength u :=
        Nat.le_of_eq (congrArg byteLength (hs.trans (List.append_nil u)))
      have hfinish : (readerLoop s).Gives (byteLength u) r ((readerLoop s).finish r) :=
        Loop.gives_of_length_le (by rwa [length_encode])
      exact hfinish
    | cons c v =>
      have hshorter : ∀ k, (v.drop k).length < (c :: v).length := fun k => by
        rw [List.length_drop, List.length_cons]
        omega
      by_cases hput : IsPut r c
      · by_cases hslash : c = '\\'
        · subst hslash
          exact gives_complete_escape hquote hs he hput (ih _ (hn ▸ hshorter (escapeText v).length)
            (by simpa using hquote) (by rw [hs, List.append_assoc, List.cons_append, escapeText_append_drop])
            (by rw [Reader.escape_putText, he]) rfl)
        · exact gives_complete_char hquote hs he hput hslash (ih _ (by simp [← hn])
            (Reader.isQuote_of_quote_track (by simpa using hquote)) (by simp [hs])
            (by rw [Reader.escape_track, Reader.escape_put, he]) rfl)
      · simp only [IsPut, Classical.not_imp] at hput
        obtain ⟨htop, hc⟩ := hput
        by_cases hcomma : c = ','
        · subst hcomma
          exact gives_complete_comma hs he htop
        · exact gives_complete_break hs he htop (by_contra fun hbreak => hc ⟨hcomma, hbreak⟩)
            (ih _ (by simp [← hn]) hquote (by simp [hs]) he rfl)

end

/-- **A selector can be read by its bytes.** -/
theorem read_eq_ok (s : List Char) : read s = .ok (Selector.read s) :=
  Loop.run_eq_of_gives (gives_complete (u := []) (by simp [Reader.start]) rfl rfl)

end UtilityCss.Bytes
