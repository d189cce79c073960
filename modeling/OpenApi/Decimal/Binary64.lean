/-!
# Doubles

The 64-bit binary floating point numbers, by their bits. A finite double is
`± significand · 2 ^ exponent`; `ofRatio` rounds a ratio of naturals to the nearest double, ties to
the even significand, and products and quotients are rounded from their exact values.
-/

namespace OpenApi

/-- A double, given by the bits of its interchange format. -/
structure Binary64 where
  bits : UInt64
deriving DecidableEq, Inhabited

namespace Binary64

/-! ## Parts -/

/-- Whether the sign bit is set. -/
def isNegative (x : Binary64) : Bool := x.bits.toNat / Nat.pow 2 63 == 1

/-- The eleven bits of the biased exponent. -/
def exponentBits (x : Binary64) : Nat := x.bits.toNat / Nat.pow 2 52 % Nat.pow 2 11

/-- The fifty-two bits of the fraction. -/
def fractionBits (x : Binary64) : Nat := x.bits.toNat % Nat.pow 2 52

/-- Whether the double is neither an infinity nor a NaN. -/
def isFinite (x : Binary64) : Bool := x.exponentBits != 2047

/-- The integer significand of a finite double. -/
def significand (x : Binary64) : Nat :=
  if x.exponentBits = 0 then x.fractionBits else Nat.pow 2 52 + x.fractionBits

/-- The power of two that the significand of a finite double is multiplied with. -/
def exponent (x : Binary64) : Int :=
  if x.exponentBits = 0 then -1074 else (x.exponentBits : Int) - 1075

/-- Whether the double is `0.0` or `-0.0`. -/
def isZero (x : Binary64) : Bool := x.bits.toNat % Nat.pow 2 63 == 0

/-- The magnitude of a finite double as a ratio of naturals. -/
def ratio (x : Binary64) : Nat × Nat :=
  if 0 ≤ x.exponent then (x.significand * Nat.pow 2 x.exponent.toNat, 1)
  else (x.significand, Nat.pow 2 (-x.exponent).toNat)

/-! ## Rounding -/

/-- The double with the given sign and the given bits below the sign. -/
def withSign (negative : Bool) (magnitude : Nat) : Binary64 :=
  ⟨UInt64.ofNat ((if negative then Nat.pow 2 63 else 0) + magnitude)⟩

/-- The natural nearest to `num / den`, a tie going to the even one. -/
def roundHalfEven (num den : Nat) : Nat :=
  let q := num / den
  let twice := 2 * (num % den)
  if twice > den ∨ (twice = den ∧ q % 2 = 1) then q + 1 else q

/-- `num / den` divided by a power of two, as a ratio. -/
def scaleDown (num den : Nat) (power : Int) : Nat × Nat :=
  if 0 ≤ power then (num, den * Nat.pow 2 power.toNat)
  else (num * Nat.pow 2 (-power).toNat, den)

/-- The bits below the sign of the double nearest to `num / den`. A significand that is rounded up
to the next power of two carries into the exponent bits. -/
def magnitudeOfRatio (num den : Nat) : Nat :=
  let estimate : Int := (Nat.log2 num : Int) - Nat.log2 den - 52
  let wide := scaleDown num den estimate
  let fitted := if wide.1 / wide.2 < Nat.pow 2 52 then estimate - 1 else estimate
  let power := max fitted (-1074)
  let scaled := scaleDown num den power
  let m := roundHalfEven scaled.1 scaled.2
  if m < Nat.pow 2 52 then m else (power + 1074).toNat * Nat.pow 2 52 + m

/-- The double nearest to `± num / den`, unless that is beyond the largest finite one. -/
def ofRatio? (negative : Bool) (num den : Nat) : Option Binary64 :=
  if num = 0 then some (withSign negative 0)
  else
    let magnitude := magnitudeOfRatio num den
    if magnitude < 2047 * Nat.pow 2 52 then some (withSign negative magnitude) else none

/-- The double nearest to `± digits · 10 ^ power`, unless beyond the largest finite one. Powers far
outside the range of doubles are not computed. -/
def ofDecimal? (negative : Bool) (digits : Nat) (power : Int) : Option Binary64 :=
  let width : Int := Nat.log2 digits
  if digits = 0 then some (withSign negative 0)
  else if power > 400 then none
  else if power < -(400 + width) then some (withSign negative 0)
  else if 0 ≤ power then ofRatio? negative (digits * Nat.pow 10 power.toNat) 1
  else ofRatio? negative digits (Nat.pow 10 (-power).toNat)

/-! ## Arithmetic -/

/-- The double nearest to the product of two finite doubles' magnitudes. -/
def mul? (x y : Binary64) : Option Binary64 :=
  ofRatio? false (x.ratio.1 * y.ratio.1) (x.ratio.2 * y.ratio.2)

/-- The double nearest to the quotient of two finite doubles' magnitudes, the second not zero. -/
def div? (x y : Binary64) : Option Binary64 :=
  ofRatio? false (x.ratio.1 * y.ratio.2) (x.ratio.2 * y.ratio.1)

/-- The double with the opposite sign. -/
def neg (x : Binary64) : Binary64 :=
  withSign (!x.isNegative) (x.bits.toNat % Nat.pow 2 63)

/-! ## Zeros -/

example : (withSign false 0).isZero = true := by decide
example : (withSign true 0).isZero = true ∧ (withSign true 0).isNegative = true := by decide

end Binary64

end OpenApi
