import UtilityCss.Proofs.Selector.RoundTrip

/-!
# Whole escapes

The reader goes through an escape character by character. In the end it has put the whole escape to the
compound, and is where it would be behind any other character (`Reader.complete_escape`). What belongs to an
escape can be told from the text behind the backslash: up to six hexadecimal digits and a space, or else one
character (`escapeText_eq`).
-/

namespace UtilityCss

/-- What belongs to an escape behind some hexadecimal digits, when it may have `k` more. -/
def hexTail (k : Nat) : List Char → List Char
  | [] => []
  | c :: v =>
    if 0 < k && isHexDigit c then c :: hexTail (k - 1) v else if c = ' ' then [' '] else []

/-- The hexadecimal digits at the start of a text, `k` of them at most. -/
def leadingDigits (k : Nat) (v : List Char) : List Char := (v.take k).takeWhile isHexDigit

/-- A space at the start of a text. -/
def leadingSpace (v : List Char) : List Char := if [' '].isPrefixOf v then [' '] else []

/-- What a backslash escapes in the text behind it. -/
def escapeText : List Char → List Char
  | [] => []
  | c :: v => if isHexDigit c then c :: hexTail 5 v else [c]

theorem leadingDigits_cons (k : Nat) (c : Char) (v : List Char) :
    leadingDigits k (c :: v) = if 0 < k && isHexDigit c then c :: leadingDigits (k - 1) v else [] := by
  cases k with
  | zero => rfl
  | succ k => cases h : isHexDigit c <;> simp [leadingDigits, h]

theorem leadingDigits_append_drop (k : Nat) (v : List Char) :
    leadingDigits k v ++ v.drop (leadingDigits k v).length = v :=
  List.prefix_iff_eq_append.mp ((List.takeWhile_prefix _).trans (List.take_prefix _ _))

theorem hexTail_eq (k : Nat) (v : List Char) :
    hexTail k v = leadingDigits k v ++ leadingSpace (v.drop (leadingDigits k v).length) := by
  induction v generalizing k with
  | nil => cases k <;> rfl
  | cons c v ih =>
    rw [hexTail, leadingDigits_cons]
    split_ifs with hdigit hspace
    · rw [ih]
      rfl
    · subst hspace
      rfl
    · have : [' '].isPrefixOf (c :: v) = false := by simp [List.isPrefixOf, Ne.symm hspace]
      simp [leadingSpace, this]

/-- An escape is either a number with the space behind it, or one character. -/
theorem escapeText_eq (v : List Char) :
    escapeText v = if leadingDigits 6 v = [] then v.take 1
      else leadingDigits 6 v ++ leadingSpace (v.drop (leadingDigits 6 v).length) := by
  cases v with
  | nil => rfl
  | cons c v =>
    rw [escapeText, leadingDigits_cons]
    cases h : isHexDigit c <;> simp [hexTail_eq]

theorem leadingSpace_isPrefix (v : List Char) : leadingSpace v <+: v := by
  unfold leadingSpace
  split
  · next h => exact List.isPrefixOf_iff_prefix.mp h
  · exact List.nil_prefix

theorem escapeText_append_drop (v : List Char) : escapeText v ++ v.drop (escapeText v).length = v := by
  refine List.prefix_iff_eq_append.mp ?_
  rw [escapeText_eq]
  split
  · exact List.take_prefix 1 v
  · have hspace := leadingSpace_isPrefix (v.drop (leadingDigits 6 v).length)
    rw [← List.prefix_append_right_inj (leadingDigits 6 v), leadingDigits_append_drop] at hspace
    exact hspace

namespace Reader

/-- What is read when a text goes on in some way. -/
def complete (r : Reader) (v : List Char) : Except Fault Selector := v.foldlM step r >>= finish

/-- Put a text to the compound; the first text takes the pending combinator. -/
def putText (r : Reader) (t : List Char) : Reader :=
  if r.compound.isEmpty then { r with compound := t, lead := r.pending, pending := none }
  else { r with compound := r.compound ++ t }

variable {r : Reader} {c : Char} {v t : List Char}

@[simp] theorem escape_putText (r : Reader) (t : List Char) : (r.putText t).escape = r.escape := by
  unfold putText
  split <;> rfl

@[simp] theorem quote_putText (r : Reader) (t : List Char) : (r.putText t).quote = r.quote := by
  unfold putText
  split <;> rfl

theorem track_backslash (hquote : ∀ q, r.quote = some q → isQuote q = true) : r.track '\\' = r := by
  cases hq : r.quote with
  | none => simp [track, hq, isQuote, isOpener, isCloser]
  | some q =>
    have hne : '\\' ≠ q := by
      rintro rfl
      exact absurd (hquote _ hq) (by decide)
    simp [track, hq, hne]

theorem isQuote_of_quote_track (hquote : ∀ q, r.quote = some q → isQuote q = true) :
    ∀ q, (r.track c).quote = some q → isQuote q = true := by
  intro q hq
  cases hr : r.quote with
  | none =>
    simp only [track, hr] at hq
    split_ifs at hq <;> simp_all
  | some q' =>
    simp only [track, hr] at hq
    split_ifs at hq
    simp_all

theorem complete_cons (r : Reader) (c : Char) (v : List Char) :
    complete r (c :: v) = r.step c >>= fun r' => complete r' v := by
  rw [complete, List.foldlM_cons, bind_assoc]
  rfl

theorem complete_of_step {r' : Reader} (h : r.step c = .ok r') : complete r (c :: v) = complete r' v := by
  rw [complete_cons, h]
  rfl

theorem put_with_escape (r : Reader) (e : Escape) (c : Char) :
    ({ r with escape := e } : Reader).put c = { r.put c with escape := e } := by
  unfold put
  split <;> rfl

theorem foldl_put (c : Char) (t : List Char) (r : Reader) : (c :: t).foldl put r = r.putText (c :: t) := by
  have hbehind : ∀ r : Reader, r.compound ≠ [] →
      t.foldl put r = { r with compound := r.compound ++ t } := by
    induction t with
    | nil => intro r _; simp
    | cons d t ih =>
      intro r hr
      have hput : r.put d = { r with compound := r.compound ++ [d] } := if_neg (by simpa using hr)
      rw [List.foldl_cons, hput, ih _ (by simp)]
      simp
  rw [List.foldl_cons]
  by_cases hr : r.compound.isEmpty = true
  · have hput : r.put c = { r with compound := [c], lead := r.pending, pending := none } := if_pos hr
    rw [hput, hbehind _ (by simp), putText, if_pos hr, List.singleton_append]
  · have hput : r.put c = { r with compound := r.compound ++ [c] } := if_neg hr
    rw [hput, hbehind _ (by simp), putText, if_neg hr, List.append_assoc, List.singleton_append]

theorem step_hex (he : r.escape = .outside) {k n : Nat} (hk : k + n = 6) :
    ({ r with escape := .hex n } : Reader).step c =
      if 0 < k && isHexDigit c then .ok { r.put c with escape := .hex (n + 1) }
      else if c = ' ' then .ok (r.put c) else r.plain c := by
  have hlt : decide (n < 6) = decide (0 < k) := decide_eq_decide.mpr (by omega)
  have hsame : ({ r with escape := .outside } : Reader) = r := by rw [← he]
  have hput : ({ r.put c with escape := .outside } : Reader) = r.put c := by rw [← put_with_escape, hsame]
  simp only [step, put_with_escape, hlt, hsame, hput]

theorem complete_hex (he : r.escape = .outside) {k n : Nat} (hk : k + n = 6) (v : List Char) :
    complete { r with escape := .hex n } v =
      complete ((hexTail k v).foldl put r) (v.drop (hexTail k v).length) := by
  induction v generalizing r k n with
  | nil => rfl
  | cons c v ih =>
    rw [complete_cons, step_hex he hk, hexTail]
    split_ifs with hdigit hspace
    · simp only [Bool.and_eq_true, decide_eq_true_eq] at hdigit
      exact ih (by rw [escape_put, he]) (by omega)
    · subst hspace
      rfl
    · have hplain : r.step c = r.plain c := by simp [step, he]
      rw [← hplain, ← complete_cons]
      rfl

/-- A whole escape is put to the compound. -/
theorem complete_escape (he : r.escape = .outside) (v : List Char) :
    complete r ('\\' :: v) =
      complete (r.putText ('\\' :: escapeText v)) (v.drop (escapeText v).length) := by
  have hopen : r.step '\\' = .ok { r.put '\\' with escape := .opened } := by
    simp [step, he, plain, isSelectorSpace, Combinator.ofChar?]
  have hput : (r.put '\\').escape = .outside := by rw [escape_put, he]
  rw [← foldl_put, List.foldl_cons, complete_cons, hopen]
  generalize r.put '\\' = r' at hput ⊢
  show complete { r' with escape := .opened } v = _
  cases v with
  | nil => rfl
  | cons c v =>
    have hstep : ({ r' with escape := .opened } : Reader).step c =
        .ok { r'.put c with escape := if isHexDigit c then .hex 1 else .outside } := by
      simp only [step, put_with_escape]
    rw [complete_cons, hstep, escapeText]
    show complete { r'.put c with escape := if isHexDigit c then .hex 1 else .outside } v = _
    split_ifs with hdigit
    · exact complete_hex (by rw [escape_put, hput]) rfl v
    · have hsame : ({ r'.put c with escape := .outside } : Reader) = r'.put c := by
        rw [← hput, ← escape_put r' c]
      rw [hsame]
      rfl

end Reader
end UtilityCss
