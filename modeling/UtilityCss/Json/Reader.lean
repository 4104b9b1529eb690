import UtilityCss.Json.Basic
import UtilityCss.Text.Split

/-!
# Reading JSON

A strict reader: one value, with nothing but blank space around it. It goes down into lists and
objects by recursion, and ends because whatever is read leaves a shorter text.
-/

namespace UtilityCss
namespace Json

/-- What was read from the start of `s`, and the rest of it. -/
structure Taken (α : Type) (s : List Char) where
  value : α
  rest : List Char
  shorter : rest.length < s.length

namespace Taken

variable {α β : Type} {s t : List Char}

def map (f : α → β) (x : Taken α s) : Taken β s := ⟨f x.value, x.rest, x.shorter⟩

/-- What was read from the end of a text was read from the text. -/
def widen (h : s.length ≤ t.length) (x : Taken α s) : Taken α t :=
  ⟨x.value, x.rest, Nat.lt_of_lt_of_le x.shorter h⟩

/-- What was read, if it left a shorter text. -/
def ofPair? (s : List Char) (p : α × List Char) : Option (Taken α s) :=
  if h : p.2.length < s.length then some ⟨p.1, p.2, h⟩ else none

end Taken

/-! ## Blank space, texts and numerals -/

def isSpace (c : Char) : Bool := c == ' ' || c == '\n' || c == '\t' || c == '\r'

def skipSpace (s : List Char) : List Char := s.dropWhile isSpace

theorem length_skipSpace_le (s : List Char) : (skipSpace s).length ≤ s.length := by
  induction s with
  | nil => simp [skipSpace]
  | cons c s ih =>
    rw [skipSpace, List.dropWhile_cons]
    split
    · exact Nat.le_succ_of_le ih
    · exact Nat.le_refl _

theorem length_lt_of_skipSpace {s r : List Char} {c : Char} (h : skipSpace s = c :: r) :
    r.length < s.length := by
  have := length_skipSpace_le s
  rw [h, List.length_cons] at this
  omega

/-- A piece of a text: a character, or a number in an escape. -/
inductive Piece where
  | char (c : Char)
  | code (n : Nat)
  deriving DecidableEq, Repr

/-- The value of a hexadecimal digit. -/
def hexValue? (c : Char) : Option Nat :=
  if c.isDigit then some (c.toNat - '0'.toNat)
  else if 'a' ≤ c && c ≤ 'f' then some (c.toNat - 'a'.toNat + 10)
  else if 'A' ≤ c && c ≤ 'F' then some (c.toNat - 'A'.toNat + 10)
  else none

/-- The value of four hexadecimal digits. -/
def hexCode? (a b c d : Char) : Option Nat := do
  return 0x1000 * (← hexValue? a) + 0x100 * (← hexValue? b) + 0x10 * (← hexValue? c)
    + (← hexValue? d)

/-- The character of a short escape. -/
def shortEscape? (c : Char) : Option Char :=
  if c = '"' || c = '\\' || c = '/' then some c
  else if c = 'b' then some '\x08'
  else if c = 'f' then some '\x0c'
  else if c = 'n' then some '\n'
  else if c = 'r' then some '\r'
  else if c = 't' then some '\t'
  else none

/-- The pieces of a text whose opening quote has been read. -/
def readPieces : (s : List Char) → Option (List Piece × List Char)
  | [] => none
  | '"' :: s => some ([], s)
  | '\\' :: 'u' :: a :: b :: c :: d :: s => do
    let n ← hexCode? a b c d
    let (pieces, rest) ← readPieces s
    return (.code n :: pieces, rest)
  | '\\' :: c :: s => do
    let e ← shortEscape? c
    let (pieces, rest) ← readPieces s
    return (.char e :: pieces, rest)
  | c :: s => do
    if c.toNat < 0x20 then none
    let (pieces, rest) ← readPieces s
    return (.char c :: pieces, rest)

def isHighSurrogate (n : Nat) : Bool := 0xd800 ≤ n && n ≤ 0xdbff

def isLowSurrogate (n : Nat) : Bool := 0xdc00 ≤ n && n ≤ 0xdfff

/-- The characters that pieces make up: surrogates must come in pairs. -/
def joinPieces? : List Piece → Option (List Char)
  | [] => some []
  | .char c :: ps => (joinPieces? ps).map (c :: ·)
  | .code n :: .code m :: ps =>
    if isHighSurrogate n && isLowSurrogate m then
      (joinPieces? ps).map (Char.ofNat (0x10000 + 0x400 * (n - 0xd800) + (m - 0xdc00)) :: ·)
    else if isHighSurrogate n || isLowSurrogate n then none
    else (joinPieces? (.code m :: ps)).map (Char.ofNat n :: ·)
  | .code n :: ps =>
    if isHighSurrogate n || isLowSurrogate n then none
    else (joinPieces? ps).map (Char.ofNat n :: ·)

/-- A text whose opening quote has been read. -/
def readText (s : List Char) : Option (Taken (Option String) s) := do
  let (pieces, rest) ← readPieces s
  Taken.ofPair? s ((joinPieces? pieces).map String.ofList, rest)

/-- Digits behind the sign of an exponent. -/
def readExponent (negative : Bool) (s : List Char) :
    Option (Option (Bool × List Char) × List Char) :=
  let digits := s.takeWhile Char.isDigit
  if digits = [] then none else some (some (negative, digits), s.dropWhile Char.isDigit)

/-- A numeral. A zero before further digits is refused, as are a point and an exponent without
digits. -/
def readNumeral (s : List Char) : Option (Taken Numeral s) := do
  let (negative, body) :=
    match s with
    | '-' :: r => (true, r)
    | _ => (false, s)
  let whole := body.takeWhile Char.isDigit
  if whole = [] || (whole.head? = some '0' && 1 < whole.length) then none
  let behind := body.dropWhile Char.isDigit
  let (fraction, behind) ←
    match behind with
    | '.' :: r =>
      let digits := r.takeWhile Char.isDigit
      if digits = [] then none else some (some digits, r.dropWhile Char.isDigit)
    | _ => some (none, behind)
  let (exponent, rest) ←
    match behind with
    | e :: r =>
      if e = 'e' || e = 'E' then
        match r with
        | '-' :: t => readExponent true t
        | '+' :: t => readExponent false t
        | _ => readExponent false r
      else some (none, behind)
    | [] => some (none, [])
  Taken.ofPair? s (⟨negative, whole, fraction, exponent⟩, rest)

/-- A word that is a value. -/
def readWord (word : List Char) (v : Json) (s : List Char) : Option (Taken Json s) := do
  let rest ← word.isPrefixOf? s
  Taken.ofPair? s (v, rest)

/-- A value that is no container and no text. -/
def readScalar (s : List Char) : Option (Taken Json s) :=
  readWord ['n', 'u', 'l', 'l'] .null s <|>
  readWord ['t', 'r', 'u', 'e'] (.flag true) s <|>
  readWord ['f', 'a', 'l', 's', 'e'] (.flag false) s <|>
  (readNumeral s).map (Taken.map .number)

/-! ## Values -/

mutual
/-- A value behind blank space. -/
def readValue (s : List Char) : Option (Taken Json s) :=
  match h : skipSpace s with
  | '"' :: r =>
    (readText r).map fun t =>
      (t.map Json.text).widen (Nat.le_of_lt (length_lt_of_skipSpace h))
  | '[' :: r =>
    have hr : r.length < s.length := length_lt_of_skipSpace h
    match h' : skipSpace r with
    | ']' :: t => some ⟨.list [], t, Nat.lt_trans (length_lt_of_skipSpace h') hr⟩
    | _ => (readItems r).map fun t => (t.map Json.list).widen (Nat.le_of_lt hr)
  | '\x7b' :: r =>
    have hr : r.length < s.length := length_lt_of_skipSpace h
    match h' : skipSpace r with
    | '\x7d' :: t => some ⟨.object [], t, Nat.lt_trans (length_lt_of_skipSpace h') hr⟩
    | _ => (readFields r).map fun t => (t.map Json.object).widen (Nat.le_of_lt hr)
  | r => (readScalar r).map (Taken.widen (h ▸ length_skipSpace_le s))
termination_by (s.length, 0)

/-- The items of a list, up to its closing bracket. -/
def readItems (s : List Char) : Option (Taken (List Json) s) :=
  match readValue s with
  | none => none
  | some v =>
    have hv := v.shorter
    match h : skipSpace v.rest with
    | ']' :: r => some ⟨[v.value], r, Nat.lt_trans (length_lt_of_skipSpace h) hv⟩
    | ',' :: r =>
      have hr : r.length < s.length := Nat.lt_trans (length_lt_of_skipSpace h) hv
      (readItems r).map fun t => (t.map (v.value :: ·)).widen (Nat.le_of_lt hr)
    | _ => none
termination_by (s.length, 1)

/-- The fields of an object, up to its closing brace. -/
def readFields (s : List Char) : Option (Taken (List (Option String × Json)) s) :=
  match h : skipSpace s with
  | '"' :: r =>
    have hr : r.length < s.length := length_lt_of_skipSpace h
    match readText r with
    | none => none
    | some key =>
      have hk := key.shorter
      match hc : skipSpace key.rest with
      | ':' :: q =>
        have hq : q.length < s.length :=
          Nat.lt_trans (Nat.lt_trans (length_lt_of_skipSpace hc) hk) hr
        match readValue q with
        | none => none
        | some v =>
          have hv := v.shorter
          match he : skipSpace v.rest with
          | '\x7d' :: t =>
            some ⟨[(key.value, v.value)], t,
              Nat.lt_trans (Nat.lt_trans (length_lt_of_skipSpace he) hv) hq⟩
          | ',' :: t =>
            have ht : t.length < s.length :=
              Nat.lt_trans (Nat.lt_trans (length_lt_of_skipSpace he) hv) hq
            (readFields t).map fun f =>
              (f.map ((key.value, v.value) :: ·)).widen (Nat.le_of_lt ht)
          | _ => none
      | _ => none
  | _ => none
termination_by (s.length, 1)
end

/-- A text read as one JSON value. -/
def read? (s : String) : Option Json :=
  match readValue s.toList with
  | some t => if skipSpace t.rest = [] then some t.value else none
  | none => none

end Json
end UtilityCss
