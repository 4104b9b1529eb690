import UtilityCss.Number.Double

/-!
# JSON values as they are written

A value keeps what its readers may ask about its writing: the digits of a numeral, the order and the
repetition of the keys of an object, and whether the escapes of a text make up characters.
-/

namespace UtilityCss

/-- A numeral by its parts. -/
structure Numeral where
  negative : Bool
  /-- The digits before the point. -/
  whole : List Char
  /-- The digits behind the point, if there is one. -/
  fraction : Option (List Char)
  /-- The sign of the exponent, negative if `true`, and its digits, if there is one. -/
  exponent : Option (Bool × List Char)
  deriving DecidableEq, Repr

inductive Json where
  | null
  | flag (b : Bool)
  | number (n : Numeral)
  /-- A text, or `none` if its escapes hold half of a surrogate pair. -/
  | text (s : Option String)
  | list (items : List Json)
  /-- The keys with their values, in the order of writing. -/
  | object (fields : List (Option String × Json))
  deriving Repr

/-- The value of decimal digits. -/
def digitsValue (digits : List Char) : Nat :=
  digits.foldl (fun n c => 10 * n + (c.toNat - '0'.toNat)) 0

namespace Numeral

/-- The number that a plain numeral without sign stands for, if a machine word holds it. -/
def word? (n : Numeral) : Option Nat :=
  if n.negative || n.fraction.isSome || n.exponent.isSome then none
  else if digitsValue n.whole < Nat.pow 2 64 then some (digitsValue n.whole)
  else none

/-- The significand with digits put behind it as long as a machine word holds it, and the digits
that are left. -/
def extend (significand : Nat) : List Char → Nat × List Char
  | [] => (significand, [])
  | c :: digits =>
    let longer := 10 * significand + (c.toNat - '0'.toNat)
    if longer < Nat.pow 2 64 then extend longer digits else (significand, c :: digits)

/-- The exponent as it is written; zero if there is none. -/
def writtenExponent (n : Numeral) : Int :=
  match n.exponent with
  | none => 0
  | some (true, digits) => -(digitsValue digits : Int)
  | some (false, digits) => digitsValue digits

/-- A significand that a machine word holds, and the power of ten that it is scaled by. The first
digits before the point make it up, and then the first ones behind it; what does not fit is dropped,
and the dropped digits before the point count for the scale alone. -/
def parts (n : Numeral) : Nat × Int :=
  let (significand, dropped) := extend 0 n.whole
  let fraction := n.fraction.getD []
  let (significand, ignored) := extend significand fraction
  (significand, n.writtenExponent + dropped.length - (fraction.length - ignored.length : Nat))

/-- Whether the number is finite in double precision. The significand and the power of ten are
rounded first, and their product is rounded then. -/
def isFinite (n : Numeral) : Bool :=
  let (significand, scale) := n.parts
  significand = 0 || scale < 0 ||
    (scale ≤ 308 && (Double.ofNat significand).mul (.ofNat (Nat.pow 10 scale.toNat)) != .infinite)

end Numeral

namespace Json

/-- The text of a value that is a text. -/
def text? : Json → Option String
  | .text s => s
  | _ => none

def word? : Json → Option Nat
  | .number n => n.word?
  | _ => none

def flag? : Json → Option Bool
  | .flag b => some b
  | _ => none

mutual
/-- The number of containers around the innermost value, itself included. -/
def depth : Json → Nat
  | .list items => 1 + depthAll items
  | .object fields => 1 + depthFields fields
  | _ => 0
def depthAll : List Json → Nat
  | [] => 0
  | v :: vs => max (depth v) (depthAll vs)
def depthFields : List (Option String × Json) → Nat
  | [] => 0
  | (_, v) :: fs => max (depth v) (depthFields fs)
end

mutual
/-- Whether every numeral in a value is finite and every text and key is made of characters. -/
def isSound : Json → Bool
  | .number n => n.isFinite
  | .text s => s.isSome
  | .list items => isSoundAll items
  | .object fields => isSoundFields fields
  | _ => true
def isSoundAll : List Json → Bool
  | [] => true
  | v :: vs => isSound v && isSoundAll vs
def isSoundFields : List (Option String × Json) → Bool
  | [] => true
  | (k, v) :: fs => k.isSome && isSound v && isSoundFields fs
end

end Json
end UtilityCss
