/-!
# Double precision

The non-negative numbers of double precision, as a significand times a power of two, and the one of
them that is nearest to a fraction. All of it is exact arithmetic on natural numbers; a tie goes to
the even significand, and what is too large becomes infinite.

A number is written with so many places behind the point, rounded from its exact value, or as the same
text without the zeros that end it.
-/

namespace UtilityCss

/-- The integer nearest to `num / den`; a tie goes to the even one. -/
def roundHalfEven (num den : Nat) : Nat :=
  let q := num / den
  let r := num % den
  if 2 * r < den then q else if den < 2 * r then q + 1 else q + q % 2

theorem roundHalfEven_one (n : Nat) : roundHalfEven n 1 = n := by
  simp [roundHalfEven, Nat.mod_one]

/-- The integer is at most half a unit away from the fraction. -/
theorem roundHalfEven_near {num den : Nat} (h : 0 < den) :
    2 * num ≤ 2 * (roundHalfEven num den * den) + den ∧
      2 * (roundHalfEven num den * den) ≤ 2 * num + den := by
  have hq := Nat.div_add_mod num den
  have hr := Nat.mod_lt num h
  have hcomm : den * (num / den) = num / den * den := Nat.mul_comm _ _
  unfold roundHalfEven
  dsimp only
  split
  · omega
  · split
    · rw [Nat.add_mul]
      omega
    · rcases Nat.mod_two_eq_zero_or_one (num / den) with h2 | h2 <;> rw [h2]
      · rw [Nat.add_zero]
        omega
      · rw [Nat.add_mul]
        omega

inductive Double where
  /-- The number `significand * 2 ^ exponent`. -/
  | finite (significand : Nat) (exponent : Int)
  | infinite
  deriving DecidableEq, Repr

namespace Double

/-- The least exponent of a significand. -/
def minExponent : Int := -1074

/-- Whether `2 ^ k` is at most `num / den`. -/
def reaches (num den : Nat) (k : Int) : Bool :=
  if 0 ≤ k then den * Nat.pow 2 k.toNat ≤ num else den ≤ num * Nat.pow 2 (-k).toNat

/-- The exponent of the leading bit of `num / den`. -/
def leadingExponent (num den : Nat) : Int :=
  let k : Int := (num.log2 : Int) - (den.log2 : Int)
  if reaches num den k then k else k - 1

/-- The integer nearest to `num / den / 2 ^ e`. -/
def significandAt (num den : Nat) (e : Int) : Nat :=
  if 0 ≤ e then roundHalfEven num (den * Nat.pow 2 e.toNat)
  else roundHalfEven (num * Nat.pow 2 (-e).toNat) den

/-- The bits of `m * 2 ^ e`, for a significand of at most 53 bits that has as many of them as the
exponent allows. A carry out of the significand runs into the exponent. -/
def bitsAt (m : Nat) (e : Int) : Nat := (e - minExponent).toNat * Nat.pow 2 52 + m

/-- The bits of infinity. -/
def infiniteBits : Nat := 2047 * Nat.pow 2 52

/-- The number nearest to `num / den`; zero if both are zero. -/
def nearest (num den : Nat) : Double :=
  if num = 0 then finite 0 minExponent
  else
    let e := max (leadingExponent num den - 52) minExponent
    let m := significandAt num den e
    if bitsAt m e < infiniteBits then finite m e else infinite

/-- The number in its interchange format. -/
def bits : Double → Nat
  | finite m e => bitsAt m e
  | infinite => infiniteBits

/-- The number nearest to a natural number. -/
def ofNat (n : Nat) : Double := nearest n 1

/-- The number nearest to the product; an infinite factor makes it infinite. -/
def mul : Double → Double → Double
  | finite m e, finite n f =>
    if 0 ≤ e + f then nearest (m * n * Nat.pow 2 (e + f).toNat) 1
    else nearest (m * n) (Nat.pow 2 (-(e + f)).toNat)
  | _, _ => infinite

/-! ## Decimals with a fixed number of places -/

/-- The nearest integer to the number times `10 ^ places`. -/
def scaledDecimal (places m : Nat) (e : Int) : Nat :=
  if 0 ≤ e then m * Nat.pow 2 e.toNat * Nat.pow 10 places
  else roundHalfEven (m * Nat.pow 10 places) (Nat.pow 2 (-e).toNat)

/-- Decimal digits, with zeros in front up to a length. -/
def paddedDigits (length n : Nat) : List Char :=
  let digits := Nat.toDigits 10 n
  List.replicate (length - digits.length) '0' ++ digits

/-- The number with a fixed number of places. -/
def fixedText (places : Nat) : Double → List Char
  | finite m e =>
    let n := scaledDecimal places m e
    let unit := Nat.pow 10 places
    Nat.toDigits 10 (n / unit) ++ '.' :: paddedDigits places (n % unit)
  | infinite => ['i', 'n', 'f']

/-- The number with at most so many places: no zero ends them, nor a point. -/
def shortFixedText (places : Nat) (x : Double) : List Char :=
  ((x.fixedText places).reverse.dropWhile (· == '0') |>.dropWhile (· == '.')).reverse

end Double
end UtilityCss
