import UtilityCss.ClassName.Parser
import UtilityCss.Proofs.Bytes.Cutting

/-!
# Class names by their bytes

The scanner of tokens and the reader of a utility, with the offsets that they count and the slices that they
take: a token from behind one separator up to the next one, a bracketed text from behind its opening bracket
up to the closing one. Both do what is said of characters (`tokenize_eq_ok`, `parseUtility?_eq_ok`): a
separator and a bracket are bytes of their own.
-/

namespace UtilityCss.Bytes

open Token (byteLength byteLength_append byteLength_eq)
open Text (splitBy)

/-! ## Tokens -/

/-- Every colon separates. -/
def flat : Cutter Unit := ⟨(), fun _ _ => (), fun _ c => c == ':', fun _ => false⟩

/-- A colon outside brackets separates. -/
def nested : Cutter Depths := ⟨.zero, Depths.next, Depths.separates, fun _ => false⟩

/-- The token between two offsets, if there is anything between them. -/
def tokenBetween (s : List Char) (i j : Nat) : Except Trap (List Token) :=
  if i < j then do
    let text ← slice s i j
    .ok [⟨String.ofList text, i, j⟩]
  else .ok []

/-- The tokens of a text. -/
def tokenize (s : String) : Except Trap (List Token) :=
  let text := s.toList
  let emitLast i := tokenBetween text i (byteLength text)
  if (encode text).any isBracket then nested.run text (tokenBetween text) emitLast
  else flat.run text (tokenBetween text) emitLast

theorem isBracket_of_isWide {c : Char} (h : IsWide c) : isBracket c = false :=
  eq_false_of_isWide (l := ['[', ']', '(', ')']) (by simp [IsWide]) (by simp [isBracket, or_assoc]) h

theorem flat_isBytewise : flat.IsBytewise fun _ => True where
  start := trivial
  wide _ hc := ⟨rfl, beq_eq_false_iff_ne.mpr (ne_of_isWide hc (by decide)), rfl⟩
  skipped _ h := by cases h
  next _ _ := trivial

theorem nested_isBytewise : nested.IsBytewise fun _ => True where
  start := trivial
  wide {d c} _ hc := by
    refine ⟨rfl, ?_, Depths.next_of_not_isBracket (isBracket_of_isWide hc) d⟩
    rw [Bool.eq_false_iff]
    intro hcut
    exact ne_of_isWide hc (by decide) (Depths.separates_iff.mp hcut).1
  skipped _ h := by cases h
  next _ _ := trivial

/-- The token of a piece that starts at an offset, if it is not empty. -/
def tokenAt (start : Nat) (p : List Char) : List Token :=
  if p.isEmpty then [] else [⟨String.ofList p, start, start + byteLength p⟩]

theorem found_tokenAt (start : Nat) (pieces : List (List Char)) :
    found tokenAt tokenAt start pieces = Token.locate start pieces := by
  induction pieces generalizing start with
  | nil => rfl
  | cons p pieces ih =>
    have hhere : Token.locate start (p :: pieces) =
        tokenAt start p ++ Token.locate (start + byteLength p + 1) pieces := by
      cases p <;> rfl
    rw [hhere]
    cases pieces with
    | nil => exact (List.append_nil _).symm
    | cons q pieces => rw [found_cons _ _ _ _ (List.cons_ne_nil q pieces), ih]

theorem tokenBetween_eq_ok (u p v : List Char) :
    tokenBetween (u ++ p ++ v) (byteLength u) (byteLength (u ++ p)) = .ok (tokenAt (byteLength u) p) := by
  rw [tokenBetween, slice_append, byteLength_append]
  cases p with
  | nil => exact if_neg (Nat.lt_irrefl _)
  | cons c p =>
    have hpos : 0 < byteLength (c :: p) := Nat.add_pos_left (Char.utf8Size_pos c) _
    rw [if_pos (Nat.lt_add_of_pos_right hpos)]
    rfl

theorem finds_tokens (s : List Char) :
    Cutter.Finds s (tokenBetween s) (fun i => tokenBetween s i (byteLength s)) tokenAt tokenAt where
  inner u p v hs := by rw [hs]; exact tokenBetween_eq_ok u p v
  last u p hs := by
    have := tokenBetween_eq_ok u p []
    rwa [List.append_nil, ← hs] at this

theorem splitOn_eq_splitBy_flat (s : List Char) :
    s.splitOn ':' = splitBy flat.next flat.cuts () s := by
  induction s with
  | nil => rfl
  | cons c s ih =>
    have hne : splitBy flat.next flat.cuts () s ≠ [] := Text.splitBy_ne_nil () s
    obtain ⟨p, ps, hp⟩ := List.exists_cons_of_ne_nil hne
    rw [List.splitOn_cons_eq_if_modifyHead, ih, splitBy, hp]
    rfl

/-- **The tokens of a text can be found by its bytes.** -/
theorem tokenize_eq_ok (s : String) : tokenize s = .ok (Token.scan s) := by
  unfold tokenize Token.scan Token.scanNested Token.scanFlat
  dsimp only
  rw [any_encode (p := isBracket) fun c hc => isBracket_of_isWide hc]
  split
  · rw [Cutter.run_eq_ok nested_isBytewise (finds_tokens _), found_tokenAt]
    rfl
  · rw [Cutter.run_eq_ok flat_isBytewise (finds_tokens _), found_tokenAt, splitOn_eq_splitBy_flat]

/-! ## Brackets -/

/-- The loop that looks for the end of a bracketed text, with the number of open brackets. -/
def bracketLoop (opener closer : Char) (s : List Char) : Loop Nat (List Char × List Char) where
  text := s
  step i b depth :=
    if b = opener then .ok (.goOn (i + 1) (depth + 1))
    else if b = closer then
      if depth - 1 = 0 then do
        let value ← slice s 1 i
        let behind ← slice s (i + 1) (byteLength s)
        .ok (.stop (value, (['/'].isPrefixOf? behind).getD []))
      else .ok (.goOn (i + 1) (depth - 1))
    else .ok (.goOn (i + 1) depth)
  finish _ := do
    let value ← slice s 1 (byteLength s)
    .ok (value, [])

/-- The value and the opacity in a text that begins with an opening bracket. -/
def splitBracketed (opener closer : Char) (s : List Char) : Except Trap (List Char × List Char) :=
  (bracketLoop opener closer s).run 0

/-- What is made of the two texts that a closing bracket parts, if there is one; `w` has been read. -/
def bracketed (w v : List Char) : Option (List Char × List Char) → List Char × List Char
  | some (value, behind) => (w ++ value, (['/'].isPrefixOf? behind).getD [])
  | none => (w ++ v, [])

theorem splitBracketed_eq (opener closer : Char) (s : List Char) :
    UtilityCss.splitBracketed opener closer s = bracketed [] s (closeBracket? opener closer 0 s) := by
  unfold UtilityCss.splitBracketed bracketed
  split
  · next value opacity h =>
    have hslash : ['/'].isPrefixOf? ('/' :: opacity) = some opacity := Text.isPrefixOf?_eq_some_iff.mpr rfl
    simp [h, hslash]
  · next value behind hne h =>
    have hslash : ['/'].isPrefixOf? behind = none := by
      refine Option.eq_none_iff_forall_ne_some.mpr fun rest hrest => ?_
      exact hne rest (Text.isPrefixOf?_eq_some_iff.mp hrest)
    simp [h, hslash]
  · next h => simp [h]

theorem bracketed_cons (w v : List Char) (c : Char) (o : Option (List Char × List Char)) :
    bracketed w (c :: v) (o.map fun (a, b) => (c :: a, b)) = bracketed (w ++ [c]) v o := by
  cases o <;> simp [bracketed]

section

variable {opener closer : Char} (ho : ¬ IsWide opener) (hc : ¬ IsWide closer) (hne : closer ≠ opener)

include ho in
theorem gives_unclosed {s w : List Char} (hs : s = opener :: w) (depth : Nat) :
    (bracketLoop opener closer s).Gives (byteLength (opener :: w)) depth (.ok (w, [])) := by
  have hone : byteLength [opener] = 1 := byteLength_concat_of_not_isWide ho []
  have hslice : slice s 1 (byteLength s) = .ok w := by
    rw [hs, ← hone]
    exact slice_append_right [opener] w
  have hfinish : (bracketLoop opener closer s).finish depth = .ok (w, []) := by
    simp only [bracketLoop, hslice]
    rfl
  rw [← hfinish]
  refine Loop.gives_of_length_le ?_
  rw [length_encode]
  exact Nat.le_of_eq (congrArg byteLength hs)

include ho hc hne in
theorem gives_closed {s w v : List Char} (hs : s = opener :: w ++ closer :: v) :
    (bracketLoop opener closer s).Gives (byteLength (opener :: w)) 1
      (.ok (w, (['/'].isPrefixOf? v).getD [])) := by
  have hone : byteLength [opener] = 1 := byteLength_concat_of_not_isWide ho []
  have hvalue : slice s 1 (byteLength (opener :: w)) = .ok w := by
    rw [hs, ← hone]
    exact slice_append [opener] w (closer :: v)
  have hbehind : slice s (byteLength (opener :: w) + 1) (byteLength s) = .ok v := by
    have hs' : s = (opener :: w ++ [closer]) ++ v := by simp [hs]
    rw [← byteLength_concat_of_not_isWide hc, hs']
    exact slice_append_right _ v
  refine Loop.gives_of_stop (Loop.getElem?_encode_of_not_isWide (L := bracketLoop opener closer s) hs hc) ?_
  simp only [bracketLoop, if_neg hne, if_pos, hvalue, hbehind]
  rfl

include ho hc hne in
theorem gives_bracketed {s w v : List Char} (hs : s = opener :: w ++ v) (depth : Nat) :
    (bracketLoop opener closer s).Gives (byteLength (opener :: w)) (depth + 1)
      (.ok (bracketed w v (closeBracket? opener closer depth v))) := by
  induction v generalizing w depth with
  | nil =>
    rw [closeBracket?, bracketed, List.append_nil]
    exact gives_unclosed ho (hs.trans (List.append_nil _)) (depth + 1)
  | cons c v ih =>
    have htext : (bracketLoop opener closer s).text = (opener :: w) ++ c :: v := hs
    have hrest : ∀ d, (bracketLoop opener closer s).Gives (byteLength ((opener :: w) ++ [c])) (d + 1)
        (.ok (bracketed w (c :: v) ((closeBracket? opener closer d v).map fun (a, b) => (c :: a, b)))) := by
      intro d
      rw [bracketed_cons]
      exact ih (by simp [hs]) d
    by_cases hcloser : c = closer
    · subst hcloser
      cases depth with
      | zero =>
        have hclose : closeBracket? opener c 0 (c :: v) = some ([], v) := by simp [closeBracket?]
        rw [hclose, bracketed, List.append_nil]
        exact gives_closed ho hc hne hs
      | succ depth =>
        have hclose : closeBracket? opener c (depth + 1) (c :: v) =
            (closeBracket? opener c depth v).map fun (a, b) => (c :: a, b) := by simp [closeBracket?]
        rw [hclose]
        exact Loop.gives_of_byte htext hc (by simp [bracketLoop, hne]) (hrest depth)
    · by_cases hopener : c = opener
      · subst hopener
        have hclose : closeBracket? c closer depth (c :: v) =
            (closeBracket? c closer (depth + 1) v).map fun (a, b) => (c :: a, b) := by
          simp [closeBracket?, hcloser]
        rw [hclose]
        exact Loop.gives_of_byte htext ho (if_pos rfl) (hrest (depth + 1))
      · have hclose : closeBracket? opener closer depth (c :: v) =
            (closeBracket? opener closer depth v).map fun (a, b) => (c :: a, b) := by
          simp [closeBracket?, hcloser, hopener]
        rw [hclose]
        refine Loop.gives_of_unchanged htext (fun k b hb => ?_) (hrest depth)
        have hb' : b ≠ opener ∧ b ≠ closer := by
          rcases hb with rfl | ⟨-, hb⟩
          · exact ⟨hopener, hcloser⟩
          · exact ⟨ne_of_isWide hb ho, ne_of_isWide hb hc⟩
        simp [bracketLoop, hb'.1, hb'.2]

include ho hc hne in
theorem splitBracketed_eq_ok (s : List Char) :
    splitBracketed opener closer (opener :: s) = .ok (UtilityCss.splitBracketed opener closer s) := by
  have hone : byteLength [opener] = 1 := byteLength_concat_of_not_isWide ho []
  have hgives := gives_bracketed ho hc hne (s := opener :: s) (w := []) rfl 0
  have hstep : (bracketLoop opener closer (opener :: s)).step 0 opener 0 = .ok (.goOn 1 1) := if_pos rfl
  rw [splitBracketed_eq]
  rw [hone] at hgives
  exact Loop.run_eq_of_gives (Loop.gives_of_goOn (Loop.getElem?_encode_of_not_isWide (u := []) rfl ho) hstep
    Nat.one_pos hgives)

end

/-! ## Utilities -/

/-- The offset of the first occurrence of a text in another one. -/
def offset? (sep s : List Char) : Option Nat := (Text.cutFirst? sep s).map fun cut => byteLength cut.1

/-- A token without its leading dash read as a utility. -/
def readUtility? (reg : Registry) (negative : Bool) (bare : String) : Except Trap (Option Utility) :=
  let text := bare.toList
  if bare = "" || Text.beginsWith "[" bare || Text.beginsWith "(" bare then .ok none
  else
    match offset? ['-', '['] text, offset? ['-', '('] text with
    | some i, _ => do
      let (value, opacity) ← splitBracketed '[' ']' (← slice text (i + 1) (byteLength text))
      let name ← slice text 0 i
      .ok (some (reg.withRegistration
        { name := String.ofList name, value := String.ofList value, arbitrary := true
          negative := negative, opacity := String.ofList opacity }))
    | none, some i => do
      let (value, opacity) ← splitBracketed '(' ')' (← slice text (i + 1) (byteLength text))
      let name ← slice text 0 i
      .ok (some (reg.withRegistration
        { name := String.ofList name, value := String.ofList value, customProperty := true
          negative := negative, opacity := String.ofList opacity }))
    | none, none =>
      match reg.longestUtility? bare with
      | some (r, value) =>
        .ok (some { name := r.name, value := value, negative := negative
                    category := r.category, priority := r.priority })
      | none =>
        let (name, value) := (Text.cutFirst? ['-'] text).getD (text, [])
        .ok (some { name := String.ofList name, value := String.ofList value, negative := negative })

/-- A token read as a utility. -/
def parseUtility? (reg : Registry) (token : String) : Except Trap (Option Utility) :=
  match Text.after? "-" token with
  | some bare => readUtility? reg true bare
  | none => readUtility? reg false token

theorem slices_of_cut {s a b : List Char} {opener : Char} (hs : s = a ++ ['-', opener] ++ b) :
    slice s (byteLength a + 1) (byteLength s) = .ok (opener :: b) ∧ slice s 0 (byteLength a) = .ok a := by
  have hdash : ¬ IsWide '-' := by decide
  constructor
  · have hsplit : s = (a ++ ['-']) ++ opener :: b := by simp [hs]
    rw [← byteLength_concat_of_not_isWide hdash, hsplit]
    exact slice_append_right _ _
  · rw [hs, List.append_assoc]
    exact slice_append_left a _

theorem readUtility?_eq_ok (reg : Registry) (negative : Bool) (bare : String) :
    readUtility? reg negative bare = .ok (reg.readUtility? negative bare) := by
  unfold readUtility? Registry.readUtility? offset?
  dsimp only
  split
  · rfl
  · cases hsquare : Text.cutFirst? ['-', '['] bare.toList with
    | some cut =>
      obtain ⟨hopen, hname⟩ := slices_of_cut (Text.eq_of_cutFirst? hsquare)
      have hsplit : splitBracketed '[' ']' ('[' :: cut.2) = .ok (UtilityCss.splitBracketed '[' ']' cut.2) :=
        splitBracketed_eq_ok (by decide) (by decide) (by decide) cut.2
      simp only [Option.map_some, hopen, hname, ok_bind, hsplit]
    | none =>
      cases hround : Text.cutFirst? ['-', '('] bare.toList with
      | some cut =>
        obtain ⟨hopen, hname⟩ := slices_of_cut (Text.eq_of_cutFirst? hround)
        have hsplit : splitBracketed '(' ')' ('(' :: cut.2) =
            .ok (UtilityCss.splitBracketed '(' ')' cut.2) :=
          splitBracketed_eq_ok (by decide) (by decide) (by decide) cut.2
        simp only [Option.map_some, Option.map_none, hopen, hname, ok_bind, hsplit]
      | none =>
        cases reg.longestUtility? bare <;> rfl

/-- **A utility can be read by the bytes of its token.** -/
theorem parseUtility?_eq_ok (reg : Registry) (token : String) :
    parseUtility? reg token = .ok (reg.parseUtility? token) := by
  unfold parseUtility? Registry.parseUtility?
  cases Text.after? "-" token with
  | some bare => exact readUtility?_eq_ok reg true bare
  | none => exact readUtility?_eq_ok reg false token

end UtilityCss.Bytes
