import UtilityCss.Proofs.ClassName.Tokens

/-!
# Runs between separators

A colon separates where the text before it has closed as many brackets of each kind as it has opened.
A run is a non-empty stretch without such a colon that is bounded on both sides by one, or by an end of
the text. The tokens of a text are its runs, in order, with the bytes that they begin and end at
(`scan_eq_runs`): the pieces that the scanner cuts a text into are found again in the text, each with the
text before it (`Text.splitBy_eq_append_cons_iff`), and the bytes of the pieces before it, with one more
for each separator, are those of that text (`offset_of_piecesBefore`).

Every run hides its colons, and each but the last closes what it opens. So the tokens of a text, joined
by colons, are read as the same tokens (`texts_scan_intercalate`).
-/

namespace UtilityCss

namespace Depths

/-- Whether a text has closed as many brackets of each kind as it has opened. -/
def IsLevel (s : List Char) : Prop := s.count '[' = s.count ']' ∧ s.count '(' = s.count ')'

instance (s : List Char) : Decidable (IsLevel s) :=
  inferInstanceAs (Decidable (s.count '[' = s.count ']' ∧ s.count '(' = s.count ')'))

theorem next_eq (d : Depths) (c : Char) :
    d.next c = ⟨d.square + ([c].count '[' - [c].count ']'),
      d.round + ([c].count '(' - [c].count ')')⟩ := by
  by_cases hc : isBracket c = true
  · simp only [isBracket, Bool.or_eq_true, beq_iff_eq] at hc
    rcases hc with ((rfl | rfl) | rfl) | rfl <;> simp [next] <;> omega
  · have hne : ∀ b, isBracket b = true → [c].count b = 0 := by
      intro b hb
      refine List.count_eq_zero.mpr fun hmem => ?_
      obtain rfl := List.mem_singleton.mp hmem
      exact hc hb
    rw [next_of_not_isBracket (by simpa using hc), hne '[' rfl, hne ']' rfl, hne '(' rfl, hne ')' rfl]
    simp

theorem after_eq (d : Depths) (s : List Char) :
    d.after s = ⟨d.square + (s.count '[' - s.count ']'), d.round + (s.count '(' - s.count ')')⟩ := by
  induction s generalizing d with
  | nil => simp [after]
  | cons c s ih =>
    have hcount : ∀ b : Char, (c :: s).count b = [c].count b + s.count b := by
      intro b
      rw [← List.count_append, List.singleton_append]
    rw [after_cons, ih, next_eq, mk.injEq, hcount, hcount, hcount, hcount]
    dsimp only
    omega

theorem zero_after_eq_zero_iff {s : List Char} : zero.after s = zero ↔ IsLevel s := by
  have hcounts : zero.after s =
      ⟨s.count '[' - s.count ']', s.count '(' - s.count ')'⟩ := by simp [after_eq, zero]
  rw [hcounts, zero, mk.injEq, IsLevel]
  omega

theorem separates_after_iff {s : List Char} {c : Char} :
    (zero.after s).separates c = true ↔ c = ':' ∧ IsLevel s := by
  rw [separates_iff, zero_after_eq_zero_iff]

end Depths

namespace Token

open Depths

/-- Whether `v` is a run of a text that goes on with `u` before it and with `w` behind it. -/
structure IsRun (u v w : List Char) : Prop where
  ne_nil : v ≠ []
  starts : u = [] ∨ ∃ t, u = t ++ [':'] ∧ IsLevel t
  inner : ∀ t r, v = t ++ ':' :: r → ¬ IsLevel (u ++ t)
  ends : w = [] ∨ ∃ r, w = ':' :: r ∧ IsLevel (u ++ v)

/-! ## Bytes -/

theorem byteLength_eq (s : List Char) : byteLength s = (String.ofList s).utf8ByteSize := by
  induction s with
  | nil => simp [byteLength]
  | cons c s ih =>
    have hsplit : String.ofList (c :: s) = String.singleton c ++ String.ofList s := by
      rw [String.singleton_eq_ofList, ← String.ofList_append]
      rfl
    have hcons : byteLength (c :: s) = c.utf8Size + byteLength s := rfl
    rw [hcons, ih, hsplit, String.utf8ByteSize_append, String.utf8ByteSize_singleton]

theorem byteLength_append (s t : List Char) : byteLength (s ++ t) = byteLength s + byteLength t := by
  rw [byteLength_eq, byteLength_eq, byteLength_eq, String.ofList_append, String.utf8ByteSize_append]

/-- The bytes that pieces take, each with a separator behind it. -/
def offset : List (List Char) → Nat
  | [] => 0
  | p :: pieces => byteLength p + 1 + offset pieces

theorem mem_locate {start : Nat} {pieces : List (List Char)} {t : Token} :
    t ∈ locate start pieces ↔ ∃ ps v qs, pieces = ps ++ v :: qs ∧ v ≠ [] ∧
      t = ⟨String.ofList v, start + offset ps, start + offset ps + byteLength v⟩ := by
  induction pieces generalizing start with
  | nil => simp [locate]
  | cons p pieces ih =>
    have hlater : t ∈ locate (start + byteLength p + 1) pieces ↔ ∃ ps v qs,
        p :: pieces = p :: ps ++ v :: qs ∧ v ≠ [] ∧
        t = ⟨String.ofList v, start + offset (p :: ps), start + offset (p :: ps) + byteLength v⟩ := by
      simp [ih, offset, Nat.add_assoc]
    have hhere : t ∈ locate start (p :: pieces) ↔
        p ≠ [] ∧ t = ⟨String.ofList p, start, start + byteLength p⟩ ∨
          t ∈ locate (start + byteLength p + 1) pieces := by
      cases p <;> simp [locate]
    rw [hhere, hlater]
    constructor
    · rintro (⟨hp, rfl⟩ | ⟨ps, v, qs, hpieces, hv, rfl⟩)
      · exact ⟨[], p, pieces, rfl, hp, rfl⟩
      · exact ⟨p :: ps, v, qs, hpieces, hv, rfl⟩
    · rintro ⟨ps, v, qs, hpieces, hv, rfl⟩
      cases ps with
      | nil =>
        obtain ⟨rfl, rfl⟩ := List.cons.inj hpieces
        exact .inl ⟨hv, rfl⟩
      | cons q ps =>
        obtain ⟨rfl, hrest⟩ := List.cons.inj hpieces
        exact .inr ⟨ps, v, qs, by rw [hrest]; rfl, hv, rfl⟩

theorem pairwise_locate (start : Nat) (pieces : List (List Char)) :
    (locate start pieces).Pairwise fun a b => a.stop < b.start := by
  induction pieces generalizing start with
  | nil => exact .nil
  | cons p pieces ih =>
    have hrest := ih (start + byteLength p + 1)
    cases p with
    | nil => exact hrest
    | cons c p =>
      refine .cons (fun t ht => ?_) hrest
      obtain ⟨ps, v, qs, -, -, rfl⟩ := mem_locate.mp ht
      show start + byteLength (c :: p) < start + byteLength (c :: p) + 1 + offset ps
      omega

/-- The pieces before a run take the bytes of the text before it. -/
theorem offset_of_piecesBefore {u : List Char} {ps : List (List Char)}
    (h : Text.PiecesBefore next separates zero u ps) : offset ps = byteLength u := by
  have hjoin : ∀ ps : List (List Char), ps ≠ [] →
      offset ps = byteLength ([':'].intercalate ps) + 1 := by
    intro ps hne
    induction ps with
    | nil => exact absurd rfl hne
    | cons p ps ih =>
      cases ps with
      | nil => simp [offset]
      | cons q ps =>
        have hstep : offset (p :: q :: ps) = byteLength p + 1 + offset (q :: ps) := rfl
        have hcolon : byteLength [':'] = 1 := by decide
        have hne : q :: ps ≠ [] := List.cons_ne_nil q ps
        rw [hstep, ih hne, List.intercalate_cons_of_ne_nil hne, byteLength_append,
          byteLength_append, hcolon]
        omega
  rcases h with ⟨rfl, rfl⟩ | ⟨t, c, rfl, hc, rfl⟩
  · rfl
  · have hsep : ∀ (d : Depths) (c : Char), d.separates c = true → c = ':' :=
      fun d c hc => (separates_iff.mp hc).1
    obtain rfl := hsep _ _ hc
    rw [hjoin _ (Text.splitBy_ne_nil _ _), Text.intercalate_splitBy hsep, byteLength_append]
    rfl

/-! ## Pieces and runs -/

theorem after_of_piecesBefore {u : List Char} {ps : List (List Char)}
    (h : Text.PiecesBefore next separates zero u ps) : zero.after u = zero := by
  rcases h with ⟨rfl, -⟩ | ⟨t, c, rfl, hc, -⟩
  · rfl
  · obtain ⟨rfl, hzero⟩ := separates_iff.mp hc
    have hcons : zero.after (t ++ [':']) = (t.foldl next zero).next ':' := by simp [after]
    rw [hcons, hzero]
    rfl

theorem exists_piecesBefore_iff {u : List Char} :
    (∃ ps, Text.PiecesBefore next separates zero u ps) ↔ u = [] ∨ ∃ t, u = t ++ [':'] ∧ IsLevel t := by
  constructor
  · rintro ⟨ps, ⟨rfl, -⟩ | ⟨t, c, rfl, hc, -⟩⟩
    · exact .inl rfl
    · obtain ⟨rfl, hlevel⟩ := separates_after_iff.mp hc
      exact .inr ⟨t, rfl, hlevel⟩
  · rintro (rfl | ⟨t, rfl, hlevel⟩)
    · exact ⟨[], .inl ⟨rfl, rfl⟩⟩
    · exact ⟨_, .inr ⟨t, ':', rfl, separates_after_iff.mpr ⟨rfl, hlevel⟩, rfl⟩⟩

theorem exists_piecesBehind_iff {u w : List Char} :
    (∃ qs, Text.PiecesBehind next separates (zero.after u) w qs) ↔
      w = [] ∨ ∃ r, w = ':' :: r ∧ IsLevel u := by
  constructor
  · rintro ⟨qs, ⟨rfl, -⟩ | ⟨c, r, rfl, hc, -⟩⟩
    · exact .inl rfl
    · obtain ⟨rfl, hlevel⟩ := separates_after_iff.mp hc
      exact .inr ⟨r, rfl, hlevel⟩
  · rintro (rfl | ⟨r, rfl, hlevel⟩)
    · exact ⟨[], .inl ⟨rfl, rfl⟩⟩
    · exact ⟨_, .inr ⟨':', r, rfl, separates_after_iff.mpr ⟨rfl, hlevel⟩, rfl⟩⟩

theorem uncut_after_iff {u v : List Char} :
    Text.Uncut next separates (zero.after u) v ↔ ∀ t r, v = t ++ ':' :: r → ¬ IsLevel (u ++ t) := by
  rw [Text.uncut_iff]
  have hafter : ∀ t : List Char, t.foldl next (zero.after u) = zero.after (u ++ t) := by
    intro t
    simp [after]
  constructor
  · intro h t r hv hlevel
    have hcut := h t ':' r hv
    rw [hafter, Bool.eq_false_iff] at hcut
    exact hcut (separates_after_iff.mpr ⟨rfl, hlevel⟩)
  · intro h t c r hv
    rw [hafter, Bool.eq_false_iff]
    intro hcut
    obtain ⟨rfl, hlevel⟩ := separates_after_iff.mp hcut
    exact h t r hv hlevel

theorem isRun_iff {u v w : List Char} :
    IsRun u v w ↔ v ≠ [] ∧ ∃ ps qs, Text.PiecesBefore next separates zero u ps ∧
      Text.Uncut next separates (zero.after u) v ∧
      Text.PiecesBehind next separates (zero.after (u ++ v)) w qs := by
  constructor
  · rintro ⟨hne, hstarts, hinner, hends⟩
    obtain ⟨ps, hps⟩ := exists_piecesBefore_iff.mpr hstarts
    obtain ⟨qs, hqs⟩ := exists_piecesBehind_iff.mpr hends
    exact ⟨hne, ps, qs, hps, uncut_after_iff.mpr hinner, hqs⟩
  · rintro ⟨hne, ps, qs, hps, huncut, hqs⟩
    exact ⟨hne, exists_piecesBefore_iff.mp ⟨ps, hps⟩, uncut_after_iff.mp huncut,
      exists_piecesBehind_iff.mp ⟨qs, hqs⟩⟩

/-! ## The tokens of a text -/

theorem scanFlat_eq_scanNested {s : List Char} (h : s.any isBracket = false) :
    scanFlat s = scanNested s := by
  rw [scanFlat, scanNested, splitOn_eq_splitBy]
  intro c hc
  rw [Bool.eq_false_iff]
  intro hb
  rw [List.any_eq_true.mpr ⟨c, hc, hb⟩] at h
  cases h

theorem scan_eq_scanNested (s : String) : scan s = scanNested s.toList := by
  unfold scan
  split
  · rfl
  · next h => exact scanFlat_eq_scanNested (by simpa using h)

theorem mem_scan_iff {s : String} {t : Token} :
    t ∈ scan s ↔ ∃ u v w, s.toList = u ++ v ++ w ∧ IsRun u v w ∧
      t = ⟨String.ofList v, byteLength u, byteLength (u ++ v)⟩ := by
  rw [scan_eq_scanNested, scanNested, mem_locate]
  constructor
  · rintro ⟨ps, v, qs, hsplit, hne, rfl⟩
    obtain ⟨u, w, hs, hps, huncut, hqs⟩ := Text.splitBy_eq_append_cons_iff.mp hsplit
    have hrun : IsRun u v w := isRun_iff.mpr ⟨hne, ps, qs, hps, huncut, by simpa [after] using hqs⟩
    refine ⟨u, v, w, hs, hrun, ?_⟩
    rw [offset_of_piecesBefore hps, Nat.zero_add, byteLength_append]
  · rintro ⟨u, v, w, hs, hrun, rfl⟩
    obtain ⟨hne, ps, qs, hps, huncut, hqs⟩ := isRun_iff.mp hrun
    refine ⟨ps, v, qs, ?_, hne, ?_⟩
    · exact Text.splitBy_eq_append_cons_iff.mpr ⟨u, w, hs, hps, huncut, by simpa [after] using hqs⟩
    · rw [offset_of_piecesBefore hps, Nat.zero_add, byteLength_append]

/-- **The tokens of a text are its runs.** They stand in order, and a token is exactly a run with the
number of bytes before it and up to its end. The scanner for texts without brackets, where it is used,
reads the same tokens as the one that counts them. -/
theorem scan_eq_runs (s : String) :
    ((scan s).Pairwise fun a b => a.stop < b.start) ∧
      (∀ t : Token, t ∈ scan s ↔ ∃ u w : String, s = u ++ t.text ++ w ∧
        IsRun u.toList t.text.toList w.toList ∧
        t.start = u.utf8ByteSize ∧ t.stop = (u ++ t.text).utf8ByteSize) ∧
      (s.toList.any isBracket = false → scanFlat s.toList = scanNested s.toList) := by
  refine ⟨?_, fun t => ?_, scanFlat_eq_scanNested⟩
  · rw [scan_eq_scanNested]
    exact pairwise_locate 0 _
  · rw [mem_scan_iff]
    constructor
    · rintro ⟨u, v, w, hs, hrun, rfl⟩
      refine ⟨String.ofList u, String.ofList w, ?_, by simpa using hrun, byteLength_eq u, ?_⟩
      · rw [← String.toList_inj, hs]
        simp
      · rw [← String.ofList_append]
        exact byteLength_eq (u ++ v)
    · rintro ⟨u, w, rfl, hrun, hstart, hstop⟩
      refine ⟨u.toList, t.text.toList, w.toList, by simp, hrun, ?_⟩
      obtain ⟨text, start, stop⟩ := t
      dsimp only at hstart hstop
      subst hstart hstop
      simp [byteLength_eq, String.ofList_append]

/-- Counts that fall below zero and come back, and a text without brackets. -/
theorem scan_eq_runs_surplusCloser :
    (⟨"c", 9, 10⟩ : Token) ∈ scan "é]:a:[b:c" ∧
      "é::c".toList.any isBracket = false ∧ scanFlat "é::c".toList = scanNested "é::c".toList := by
  have hrun : IsRun "é]:a:[b:".toList "c".toList "".toList := by
    refine ⟨by decide, .inr ⟨"é]:a:[b".toList, rfl, by decide⟩, fun t r h => ?_, .inl rfl⟩
    have hcolon : ':' ∈ "c".toList := h ▸ (by simp)
    exact absurd hcolon (by decide)
  have hflat : "é::c".toList.any isBracket = false := by decide
  refine ⟨((scan_eq_runs _).2.1 _).mpr ⟨"é]:a:[b:", "", rfl, hrun, rfl, rfl⟩, hflat, ?_⟩
  exact (scan_eq_runs _).2.2 hflat

example : scan "é]:a:[b:c" = [⟨"é]:a:[b", 0, 8⟩, ⟨"c", 9, 10⟩] := by decide

/-! ## Joining tokens -/

theorem hidesColons_of_piece {s v : List Char} (h : v ∈ Text.splitBy next separates zero s) :
    HidesColons (String.ofList v) := by
  obtain ⟨ps, qs, hsplit⟩ := List.append_of_mem h
  obtain ⟨u, w, -, hps, huncut, -⟩ := Text.splitBy_eq_append_cons_iff.mp hsplit
  have hzero : u.foldl next zero = zero := after_of_piecesBefore hps
  rw [hzero] at huncut
  rwa [hidesColons_iff, String.toList_ofList]

theorem after_of_piece {s v : List Char} (h : v ∈ (Text.splitBy next separates zero s).dropLast) :
    zero.after v = zero := by
  have hne : Text.splitBy next separates zero s ≠ [] := Text.splitBy_ne_nil _ _
  obtain ⟨init, last, hconcat⟩ := (List.eq_nil_or_concat _).resolve_left hne
  rw [hconcat, List.concat_eq_append, List.dropLast_concat] at h
  obtain ⟨ps, qs, rfl⟩ := List.append_of_mem h
  have hsplit : Text.splitBy next separates zero s = ps ++ v :: (qs ++ [last]) := by
    rw [hconcat, List.concat_eq_append, List.append_assoc, List.cons_append]
  obtain ⟨u, w, -, hps, -, hqs⟩ := Text.splitBy_eq_append_cons_iff.mp hsplit
  have hzero : u.foldl next zero = zero := after_of_piecesBefore hps
  rcases hqs with ⟨-, hnil⟩ | ⟨c, t, -, hc, -⟩
  · exact absurd hnil (by simp)
  · rw [hzero] at hc
    exact (separates_iff.mp hc).2

theorem dropLast_sublist_dropLast {α : Type} {l m : List α} (h : l.Sublist m) :
    l.dropLast.Sublist m.dropLast := by
  have htail := h.reverse.tail
  rw [List.tail_reverse, List.tail_reverse] at htail
  exact List.reverse_sublist.mp htail

theorem joins_scan (s : String) :
    (∀ t ∈ (scan s).map Token.text, t ≠ "" ∧ HidesColons t) ∧
      ∀ t ∈ ((scan s).map Token.text).dropLast, zero.after t.toList = zero := by
  rw [map_text_scan]
  constructor
  · intro t ht
    obtain ⟨v, hv, rfl⟩ := List.mem_map.mp ht
    obtain ⟨hmem, hne⟩ := List.mem_filter.mp hv
    refine ⟨?_, hidesColons_of_piece hmem⟩
    rw [ne_eq, ← String.toList_eq_nil_iff, String.toList_ofList]
    simpa using hne
  · intro t ht
    rw [← List.map_dropLast] at ht
    obtain ⟨v, hv, rfl⟩ := List.mem_map.mp ht
    rw [String.toList_ofList]
    exact after_of_piece ((dropLast_sublist_dropLast List.filter_sublist).subset hv)

theorem map_text_scan_join {ts : List String} (hts : ∀ t ∈ ts, t ≠ "" ∧ HidesColons t)
    (hends : ∀ t ∈ ts.dropLast, zero.after t.toList = zero) :
    (scan (":".intercalate ts)).map Token.text = ts := by
  rcases List.eq_nil_or_concat ts with rfl | ⟨init, last, rfl⟩
  · rfl
  · rw [List.concat_eq_append] at hts hends ⊢
    rw [List.dropLast_concat] at hends
    have hinit : ∀ t ∈ init, SelfContained t := by
      intro t ht
      obtain ⟨hne, hhides⟩ := hts t (by simp [ht])
      exact ⟨hne, hends t ht, hhides⟩
    obtain ⟨hne, hhides⟩ := hts last (by simp)
    exact map_text_scan_intercalate hinit hne hhides

/-- **A join is cut into its tokens.** Tokens that hide their colons, and all but the last of which close
what they open, are read again when they are joined by colons. The tokens of any text are such tokens. -/
theorem texts_scan_intercalate :
    (∀ ts : List String, (∀ t ∈ ts, t ≠ "" ∧ HidesColons t) →
      (∀ t ∈ ts.dropLast, zero.after t.toList = zero) →
      (scan (":".intercalate ts)).map Token.text = ts) ∧
      ∀ s : String, (scan (":".intercalate ((scan s).map Token.text))).map Token.text =
        (scan s).map Token.text :=
  ⟨fun _ => map_text_scan_join, fun s => map_text_scan_join (joins_scan s).1 (joins_scan s).2⟩

/-- Colons inside brackets, the last of which is never closed. -/
theorem texts_scan_intercalate_openBracket :
    (∀ t ∈ ["sm", "bg-[a:b]", "w-(x:y"], t ≠ "" ∧ HidesColons t) ∧
      (∀ t ∈ ["sm", "bg-[a:b]", "w-(x:y"].dropLast, zero.after t.toList = zero) ∧
      (scan (":".intercalate ["sm", "bg-[a:b]", "w-(x:y"])).map Token.text =
        ["sm", "bg-[a:b]", "w-(x:y"] := by
  have hts : ∀ t ∈ ["sm", "bg-[a:b]", "w-(x:y"], t ≠ "" ∧ HidesColons t := by decide
  have hends : ∀ t ∈ ["sm", "bg-[a:b]", "w-(x:y"].dropLast, zero.after t.toList = zero := by decide
  exact ⟨hts, hends, texts_scan_intercalate.1 _ hts hends⟩

end Token
end UtilityCss
