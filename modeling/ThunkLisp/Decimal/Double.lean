/-!
Double precision numbers as exact rationals: the parts of a double, and the double nearest to a
quotient, ties going to the even neighbour.
-/

-- powers are those of the core library, whatever else defines some
attribute [instance (20000), default_instance 20000] instPowNat

namespace ThunkLisp.Decimal

/-- The magnitude of a finite double: `mantissa * 2 ^ exponent`. -/
structure Parts where
  mantissa : Nat
  exponent : Int
  deriving DecidableEq, Repr

def mantissaBits : Nat := 52
def lowestExponent : Int := -1074
def hiddenBit : Nat := 2 ^ mantissaBits

def isNegative (x : Float) : Bool := x.toBits.toNat / 2 ^ 63 = 1

/-- The magnitude of a double; infinities and NaN have none. -/
def parts? (x : Float) : Option Parts :=
  let fraction := x.toBits.toNat % hiddenBit
  match x.toBits.toNat / hiddenBit % 2048 with
  | 2047 => none
  | 0 => some ⟨fraction, lowestExponent⟩
  | field + 1 => some ⟨hiddenBit + fraction, field + lowestExponent⟩

def Parts.ratio (p : Parts) : Nat × Nat :=
  (p.mantissa * 2 ^ p.exponent.toNat, 2 ^ (-p.exponent).toNat)

/-- The quotient rounded to a whole number, a half to the even neighbour. -/
def roundHalfEven (num den : Nat) : Nat :=
  let floor := num / den
  let twice := 2 * (num % den)
  if twice > den ∨ (twice = den ∧ floor % 2 = 1) then floor + 1 else floor

/-- The exponent of the grid of doubles around `num / den`. -/
def gridExponent (num den : Nat) : Int :=
  let guess := max ((num.log2 : Int) - den.log2 - mantissaBits - 1) lowestExponent
  -- the guess is exact or one too low
  if num * 2 ^ (-guess).toNat / (den * 2 ^ guess.toNat) < 2 * hiddenBit then guess else guess + 1

/-- The bits of the double nearest to `num / den`; none if it is beyond the largest double. -/
def nearestBits? (num den : Nat) : Option Nat :=
  let exponent := gridExponent num den
  let mantissa := roundHalfEven (num * 2 ^ (-exponent).toNat) (den * 2 ^ exponent.toNat)
  -- a mantissa below the hidden bit stands on the lowest grid only, and a carry out of it
  -- moves into the exponent field by itself
  let bits := if mantissa < hiddenBit then mantissa
    else ((exponent - lowestExponent).toNat + 1) * hiddenBit + (mantissa - hiddenBit)
  if bits < 2047 * hiddenBit then some bits else none

def nearest? (negative : Bool) (num den : Nat) : Option Float :=
  (nearestBits? num den).map fun bits =>
    Float.ofBits ((if negative then 2 ^ 63 + bits else bits).toUInt64)

def infinity (negative : Bool) : Float :=
  Float.ofBits ((if negative then 2 ^ 63 + 2047 * hiddenBit else 2047 * hiddenBit).toUInt64)

def ofInt? (n : Int) : Option Float := nearest? (n < 0) n.natAbs 1

/-- The double nearest to `digits * 10 ^ exponent`, an infinity if that is too large. -/
def ofDecimal (negative : Bool) (digits : Nat) (exponent : Int) : Float :=
  -- so far from one that the answer is zero or infinite, whatever the digits are
  let order := (Nat.toDigits 10 digits).length + exponent
  if digits = 0 ∨ order < -400 then Float.ofBits ((if negative then 2 ^ 63 else 0).toUInt64)
  else if order > 400 then infinity negative
  else (nearest? negative (digits * 10 ^ exponent.toNat) (10 ^ (-exponent).toNat)).getD
    (infinity negative)

end ThunkLisp.Decimal
