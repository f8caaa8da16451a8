import ThunkLisp.Decimal.Double

/-!
The shortest decimal that reads back as a given double: of the fewest digits that fall between
the halfway points to its neighbours, the ones nearest to it, and of two equally near ones the
one with the even last digit. All of it is exact arithmetic on natural numbers.
-/

namespace ThunkLisp.Decimal

structure Scaled where
  digits : Nat
  exponent : Int
  deriving DecidableEq, Repr

/-- The decimals that read back as `value / unit`: those between `low / unit` and `high / unit`,
the ends among them if `closed`. -/
structure Interval where
  low : Nat
  value : Nat
  high : Nat
  unit : Nat
  closed : Bool

/-- The interval between the halfway points to the two neighbouring doubles. The lower neighbour
of a power of two is nearer by half. -/
def Parts.interval (p : Parts) : Interval :=
  let scale := 2 ^ p.exponent.toNat
  let below := if p.mantissa = hiddenBit ∧ p.exponent > lowestExponent then 1 else 2
  { low := (4 * p.mantissa - below) * scale
    value := 4 * p.mantissa * scale
    high := (4 * p.mantissa + 2) * scale
    unit := 4 * 2 ^ (-p.exponent).toNat
    closed := p.mantissa % 2 = 0 }

def Interval.holds (i : Interval) (step den digits : Nat) : Bool :=
  let point := digits * step * i.unit
  if i.closed then i.low * den ≤ point && point ≤ i.high * den
  else i.low * den < point && point < i.high * den

/-- The best multiple of `step / den` in the interval: of the two around the value the nearer,
and the even one of two equally near. -/
def Interval.nearest? (i : Interval) (step den : Nat) : Option Nat :=
  let floor := i.value * den / (step * i.unit)
  match i.holds step den floor, i.holds step den (floor + 1) with
  | true, false => some floor
  | false, true => some (floor + 1)
  | false, false => none
  | true, true =>
      let under := i.value * den - floor * step * i.unit
      let beyond := (floor + 1) * step * i.unit - i.value * den
      if under < beyond ∨ (under = beyond ∧ floor % 2 = 0) then some floor else some (floor + 1)

/-- How many places a quotient below one has to be shifted to reach one. -/
def placesToOne (num den : Nat) : Nat → Nat
  | 0 => 0
  | fuel + 1 => if den ≤ num then 0 else placesToOne (10 * num) den fuel + 1

/-- The power of ten of the first digit of `num / den`. -/
def leadingPower (num den : Nat) : Int :=
  if den ≤ num then (Nat.toDigits 10 (num / den)).length - 1
  -- no double is below ten to the minus 324
  else -(placesToOne num den 330 : Int)

/-- The shortest decimal in the interval that has at most `fuel` more digits than `count`. -/
def Interval.shortestFrom (i : Interval) (power : Int) (count : Nat) : Nat → Scaled
  | 0 => ⟨0, 0⟩
  | fuel + 1 =>
      let exponent := power + 1 - count
      match i.nearest? (10 ^ exponent.toNat) (10 ^ (-exponent).toNat) with
      | some digits => ⟨digits, exponent⟩
      | none => i.shortestFrom power (count + 1) fuel

/-- The shortest decimal of a positive double; seventeen digits are always enough. -/
def Parts.shortest (p : Parts) : Scaled :=
  let i := p.interval
  i.shortestFrom (leadingPower i.value i.unit) 1 17

end ThunkLisp.Decimal
