import UtilityCss.Proofs.Bytes.Cutting
import UtilityCss.Proofs.Selector.Anchors
import UtilityCss.Proofs.Selector.Reading

/-!
# Templates by their bytes

Anchors are found by their offsets, and a text is put in their place between slices of the template; a list
is cut into slices at its commas. Both scanners jump over the byte behind a backslash. The offsets of the
anchors are those of the ends of the pieces that a template is cut into (`anchorPositions_eq_ok`), and what is
made of them is what is said of the pieces.
-/

namespace UtilityCss.Bytes

open Token (byteLength byteLength_append)
open Text (splitBy)

/-! ## Marks of selectors -/

theorem not_isWide_of_isQuote {q : Char} (h : isQuote q = true) : ¬ IsWide q := by
  simp only [isQuote, Bool.or_eq_true, beq_iff_eq] at h
  rcases h with rfl | rfl <;> decide

theorem isQuote_of_isWide {c : Char} (h : IsWide c) : isQuote c = false :=
  Bool.eq_false_iff.mpr fun hc => not_isWide_of_isQuote hc h

theorem isOpener_of_isWide {c : Char} (h : IsWide c) : isOpener c = false :=
  eq_false_of_isWide (l := ['[', '(']) (by simp [IsWide]) (by simp [isOpener]) h

theorem isCloser_of_isWide {c : Char} (h : IsWide c) : isCloser c = false :=
  eq_false_of_isWide (l := [']', ')']) (by simp [IsWide]) (by simp [isCloser]) h

/-! ## Anchors -/

/-- An ampersand is an anchor unless it is jumped over behind a backslash. -/
def anchors : Cutter Bool :=
  ⟨false, Anchor.protectsNext, fun isProtected c => !isProtected && c == '&', (· == '\\')⟩

/-- The offsets of the anchors. -/
def anchorPositions (s : List Char) : Except Trap (List Nat) :=
  anchors.run s (fun _ i => .ok [i]) fun _ => .ok []

/-- Whether there is an anchor. -/
def containsAnchor (s : List Char) : Except Trap Bool := do
  let positions ← anchorPositions s
  .ok (!positions.isEmpty)

/-- The text behind an anchor that is the only one and stands first. -/
def anchorSuffix? (s : List Char) : Except Trap (Option (List Char)) := do
  let positions ← anchorPositions s
  if positions = [0] then do
    let suffix ← slice s 1 (byteLength s)
    .ok (some suffix)
  else .ok none

/-- Put the text before an anchor and the replacement to what has been put together, which goes on behind
the anchor. -/
def replaceNext (r s : List Char) (done : List Char × Nat) (i : Nat) : Except Trap (List Char × Nat) := do
  let piece ← slice s done.2 i
  .ok (done.1 ++ piece ++ r, i + 1)

/-- The text with the rest behind the last anchor. -/
def replaceRest (s : List Char) (done : List Char × Nat) : Except Trap (List Char) := do
  let rest ← slice s done.2 (byteLength s)
  .ok (done.1 ++ rest)

/-- The template with `r` in place of every anchor. -/
def replaceAnchors (r s : List Char) : Except Trap (List Char) := do
  let positions ← anchorPositions s
  let done ← positions.foldlM (replaceNext r s) ([], 0)
  replaceRest s done

theorem anchors_isBytewise : anchors.IsBytewise fun st => st = false where
  start := rfl
  wide hst hc := by
    subst hst
    have h1 := ne_of_isWide hc (d := '\\') (by decide)
    have h2 := ne_of_isWide hc (d := '&') (by decide)
    simp [anchors, Anchor.protectsNext, h1, h2]
  skipped hst hc := by
    subst hst
    obtain rfl : _ = '\\' := beq_iff_eq.mp hc
    simp [anchors, Anchor.protectsNext]
  next hst hc := by
    subst hst
    simpa [anchors, Anchor.protectsNext] using hc

/-- The offsets of the separators behind all pieces but the last. -/
def offsets (start : Nat) (pieces : List (List Char)) : List Nat :=
  found (fun i p => [i + byteLength p]) (fun _ _ => []) start pieces

theorem offsets_cons (start : Nat) (p : List Char) {ps : List (List Char)} (h : ps ≠ []) :
    offsets start (p :: ps) = (start + byteLength p) :: offsets (start + byteLength p + 1) ps :=
  found_cons _ _ start p h

theorem length_offsets (start : Nat) (pieces : List (List Char)) :
    (offsets start pieces).length = pieces.length - 1 := by
  induction pieces generalizing start with
  | nil => rfl
  | cons p pieces ih =>
    cases pieces with
    | nil => rfl
    | cons q pieces =>
      rw [offsets_cons _ _ (List.cons_ne_nil q pieces), List.length_cons, ih]
      rfl

theorem anchorPositions_eq_ok (s : List Char) : anchorPositions s = .ok (offsets 0 (Anchor.pieces s)) := by
  refine Cutter.run_eq_ok anchors_isBytewise ⟨fun u p v hs => ?_, fun u p hs => rfl⟩
  rw [byteLength_append]

theorem containsAnchor_eq_ok (s : List Char) : containsAnchor s = .ok (Anchor.occurs s) := by
  rw [containsAnchor, anchorPositions_eq_ok, ok_bind, Anchor.occurs, Anchor.count,
    ← length_offsets 0 (Anchor.pieces s)]
  cases offsets 0 (Anchor.pieces s) <;> rfl

theorem anchorSuffix?_eq_ok (s : List Char) : anchorSuffix? s = .ok (Anchor.suffix? s) := by
  rw [anchorSuffix?, anchorPositions_eq_ok, ok_bind]
  cases h : Anchor.suffix? s with
  | some t =>
    have hpieces : Anchor.pieces s = [[], t] := Anchor.pieces_of_suffix? h
    have hslice : slice s 1 (byteLength s) = .ok t := by
      rw [Anchor.eq_cons_of_suffix? h]
      exact slice_append_right ['&'] t
    rw [hpieces]
    show (do let suffix ← slice s 1 (byteLength s); Except.ok (some suffix)) = _
    rw [hslice, ok_bind]
  | none =>
    refine if_neg fun hoffsets => ?_
    obtain ⟨p, t, hpieces⟩ : ∃ p t, Anchor.pieces s = [p, t] := by
      have hlength := congrArg List.length hoffsets
      rw [length_offsets, List.length_singleton] at hlength
      exact List.length_eq_two.mp (by omega)
    have hp : byteLength p = 0 := by
      rw [hpieces] at hoffsets
      simpa [offsets, found] using hoffsets
    cases p with
    | nil => simp [Anchor.suffix?, hpieces] at h
    | cons c p =>
      have hpos : 0 < byteLength (c :: p) := Nat.add_pos_left (Char.utf8Size_pos c) _
      omega

theorem foldlM_replaceNext {r s u o : List Char} {ps : List (List Char)} (hne : ps ≠ [])
    (hs : s = u ++ ['&'].intercalate ps) :
    (offsets (byteLength u) ps).foldlM (replaceNext r s) (o, byteLength u) >>= replaceRest s =
      .ok (o ++ r.intercalate ps) := by
  induction ps generalizing u o with
  | nil => exact absurd rfl hne
  | cons p ps ih =>
    cases ps with
    | nil =>
      have hslice : slice s (byteLength u) (byteLength s) = .ok p := by
        rw [hs]
        simpa using slice_append_right u p
      show replaceRest s (o, byteLength u) = _
      rw [replaceRest, hslice, ok_bind, List.intercalate_singleton]
    | cons q ps =>
      have hq : q :: ps ≠ [] := List.cons_ne_nil q ps
      have hs' : s = u ++ p ++ ['&'] ++ ['&'].intercalate (q :: ps) := by
        rw [hs, List.intercalate_cons_of_ne_nil hq]
        simp
      have hstep : replaceNext r s (o, byteLength u) (byteLength u + byteLength p) =
          .ok (o ++ p ++ r, byteLength (u ++ p ++ ['&'])) := by
        have hslice : slice s (byteLength u) (byteLength (u ++ p)) = .ok p := by
          rw [hs', List.append_assoc (u ++ p)]
          exact slice_append u p _
        rw [byteLength_concat_of_not_isWide (by decide), ← byteLength_append, replaceNext, hslice, ok_bind]
      have hrest := ih hq (u := u ++ p ++ ['&']) (o := o ++ p ++ r) hs'
      rw [offsets_cons _ _ hq, List.foldlM_cons, hstep, ok_bind, ← byteLength_append,
        ← byteLength_concat_of_not_isWide (c := '&') (by decide), hrest, List.intercalate_cons_of_ne_nil hq]
      simp

theorem replaceAnchors_eq_ok (r s : List Char) : replaceAnchors r s = .ok (Anchor.replace r s) := by
  rw [replaceAnchors, anchorPositions_eq_ok, ok_bind]
  exact foldlM_replaceNext (u := []) (o := []) (Text.splitBy_ne_nil _ _) (Anchor.replace_self s).symm

/-! ## Members of a list -/

/-- A comma in the open separates; the byte behind a backslash is jumped over. -/
def commas : Cutter ListState := ⟨.start, ListState.next, ListState.separates, (· == '\\')⟩

/-- The members of a selector list, as written. -/
def members (s : List Char) : Except Trap (List (List Char)) :=
  commas.run s
    (fun start i => do
      let member ← slice s start i
      .ok [member])
    fun start => do
      let member ← slice s (min start (byteLength s)) (byteLength s)
      .ok [member]

theorem next_of_isWide {st : ListState} (hesc : st.escaped = false)
    (hquote : ∀ q, st.quote = some q → isQuote q = true) {c : Char} (hc : IsWide c) : st.next c = st := by
  obtain ⟨escaped, quote, depth⟩ := st
  obtain rfl : escaped = false := hesc
  have hslash := ne_of_isWide hc (d := '\\') (by decide)
  cases quote with
  | none => simp [ListState.next, hslash, isQuote_of_isWide hc, isOpener_of_isWide hc, isCloser_of_isWide hc]
  | some q =>
    have hq := ne_of_isWide hc (not_isWide_of_isQuote (hquote q rfl))
    simp [ListState.next, hslash, hq]

theorem commas_isBytewise :
    commas.IsBytewise fun st => st.escaped = false ∧ ∀ q, st.quote = some q → isQuote q = true where
  start := ⟨rfl, by simp [commas, ListState.start]⟩
  wide {st c} hst hc := by
    refine ⟨beq_eq_false_iff_ne.mpr (ne_of_isWide hc (by decide)), ?_, next_of_isWide hst.1 hst.2 hc⟩
    rw [Bool.eq_false_iff]
    intro hcut
    exact ne_of_isWide hc (by decide) (ListState.separates_iff.mp hcut).1
  skipped {st c} hst hc := by
    obtain rfl : c = '\\' := beq_iff_eq.mp hc
    have hnext : commas.next st '\\' = { st with escaped := true } := Reader.next_backslash hst.1
    obtain ⟨escaped, quote, depth⟩ := st
    obtain rfl : escaped = false := hst.1
    rw [hnext]
    exact ⟨rfl, fun d => ⟨by simp [commas, ListState.separates], rfl⟩⟩
  next {st c} hst hc := by
    have hslash : c ≠ '\\' := beq_eq_false_iff_ne.mp hc
    refine ⟨?_, fun q => Reader.isQuote_of_quote_next hst.2⟩
    show (st.next c).escaped = false
    rw [ListState.escaped_next, hst.1]
    simp [Anchor.protectsNext, hslash]

theorem found_singletons (start : Nat) (pieces : List (List Char)) :
    found (fun _ p => [p]) (fun _ p => [p]) start pieces = pieces := by
  induction pieces generalizing start with
  | nil => rfl
  | cons p pieces ih =>
    cases pieces with
    | nil => rfl
    | cons q pieces => rw [found_cons _ _ _ _ (List.cons_ne_nil q pieces), ih, List.singleton_append]

theorem members_eq_ok (s : List Char) : members s = .ok (Selector.members s) := by
  have hfinds : Cutter.Finds s (fun start i => do .ok [← slice s start i])
      (fun start => do .ok [← slice s (min start (byteLength s)) (byteLength s)])
      (fun _ p => [p]) fun _ p => [p] := by
    refine ⟨fun u p v hs => ?_, fun u p hs => ?_⟩
    · rw [hs, slice_append, ok_bind]
    · have hmin : min (byteLength u) (byteLength s) = byteLength u := by
        rw [hs, byteLength_append]
        exact Nat.min_eq_left (Nat.le_add_right _ _)
      rw [hmin, hs, slice_append_right, ok_bind]
  rw [members, Cutter.run_eq_ok commas_isBytewise hfinds, found_singletons]
  rfl

end UtilityCss.Bytes
