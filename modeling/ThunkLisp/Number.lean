import ThunkLisp.Decimal.Double

/-!
Numbers: whole numbers of any size and doubles. A whole number beside a double becomes the
nearest double in arithmetic, but the two are compared exactly. Quotients of whole numbers are
whole where they can be.
-/

namespace ThunkLisp

inductive Number where
  | int (n : Int)
  | float (x : Float)

inductive ArithmeticFault where
  | divisionByZero
  | floatDivisionByZero
  | wholeTooLarge
  | quotientTooLarge
  | countTooLarge
  | textTooLong
  | outOfMemory
  deriving DecidableEq, Repr

def ArithmeticFault.message : ArithmeticFault → String
  | .divisionByZero => "division by zero"
  | .floatDivisionByZero => "float division by zero"
  | .wholeTooLarge => "int too large to convert to float"
  | .quotientTooLarge => "integer division result too large for a float"
  | .countTooLarge => "cannot fit 'int' into an index-sized integer"
  | .textTooLong => "repeated string is too long"
  | .outOfMemory => ""

namespace Number

/-- The number of digits that a whole number may have in a text, read or written. -/
def digitLimit : Nat := 4300

def toFloat : Number → Except ArithmeticFault Float
  | .int n =>
      match Decimal.ofInt? n with
      | some x => .ok x
      | none => .error .wholeTooLarge
  | .float x => .ok x

/-- An operation on whole numbers, or on doubles if either operand is one. -/
def lift (whole : Int → Int → Int) (real : Float → Float → Float) (a b : Number) :
    Except ArithmeticFault Number :=
  match a, b with
  | .int m, .int n => .ok (.int (whole m n))
  | a, b => do return .float (real (← a.toFloat) (← b.toFloat))

def add : Number → Number → Except ArithmeticFault Number := lift (· + ·) (· + ·)
def sub : Number → Number → Except ArithmeticFault Number := lift (· - ·) (· - ·)
def mul : Number → Number → Except ArithmeticFault Number := lift (· * ·) (· * ·)

def neg : Number → Number
  | .int n => .int (-n)
  | .float x => .float (-x)

/-- The quotient of whole numbers: whole if the divisor divides, else the nearest double. -/
def divInt (m n : Int) : Except ArithmeticFault Number :=
  if n = 0 then .error .divisionByZero
  else if m % n = 0 then .ok (.int (m / n))
  else match Decimal.nearest? ((m < 0) != (n < 0)) m.natAbs n.natAbs with
    | some x => .ok (.float x)
    | none => .error .quotientTooLarge

def div : Number → Number → Except ArithmeticFault Number
  | .int m, .int n => divInt m n
  | a, b => do
      let x ← a.toFloat
      let y ← b.toFloat
      if y == 0 then .error .floatDivisionByZero else .ok (.float (x / y))

/-- The exact order of a whole number and a double, which has none with NaN. -/
def compareMixed (n : Int) (x : Float) : Option Ordering :=
  match Decimal.parts? x with
  | some p =>
      let (num, den) := p.ratio
      some (compare (n * den) (if Decimal.isNegative x then -num else num))
  | none =>
      if x.isNaN then none else if Decimal.isNegative x then some .gt else some .lt

def compareFloats (x y : Float) : Option Ordering :=
  if x < y then some .lt else if x == y then some .eq else if x > y then some .gt else none

def compare? : Number → Number → Option Ordering
  | .int m, .int n => some (compare m n)
  | .int m, .float y => compareMixed m y
  | .float x, .int n => (compareMixed n x).map Ordering.swap
  | .float x, .float y => compareFloats x y

def equal (a b : Number) : Bool := a.compare? b = some .eq

theorem divInt_of_dvd (m n : Int) (positive : n ≠ 0) (divides : n ∣ m) :
    divInt m n = .ok (.int (m / n)) := by
  simp [divInt, positive, Int.emod_eq_zero_of_dvd divides]

theorem equal_int_iff (m n : Int) : equal (.int m) (.int n) = true ↔ m = n := by
  simp [equal, compare?]

end Number

end ThunkLisp
