import ThunkLisp.Decimal.Shortest

/-!
How a double is written down: where its decimal point goes and when it gets an exponent.
-/

namespace ThunkLisp.Decimal

/-- The choices of a way to write decimals: the powers of ten from `lowest` up to but not
including `highest` are written without exponent, and an exponent has at least `exponentDigits`
digits. A decimal without exponent always has a point. -/
structure Layout where
  lowest : Int
  highest : Int
  exponentDigits : Nat

def trimZeros (digits : List Char) : List Char := (digits.reverse.dropWhile (· = '0')).reverse

def pad (width : Nat) (digits : List Char) : List Char :=
  List.replicate (width - digits.length) '0' ++ digits

/-- A fraction part is never empty. -/
def fractionText (digits : List Char) : List Char := if digits = [] then ['0'] else digits

def positional (power : Int) (digits : List Char) : List Char :=
  if power < 0 then
    ['0', '.'] ++ List.replicate (-power - 1).toNat '0' ++ digits
  else
    let whole := power.toNat + 1
    digits.take whole ++ List.replicate (whole - digits.length) '0' ++ ['.'] ++
      fractionText (digits.drop whole)

def Layout.scientific (layout : Layout) (power : Int) (digits : List Char) : List Char :=
  let point := if digits.length = 1 then [] else ['.']
  let sign := if power < 0 then '-' else '+'
  digits.take 1 ++ point ++ digits.drop 1 ++ ['e', sign] ++
    pad layout.exponentDigits (Nat.toDigits 10 power.natAbs)

def Layout.write (layout : Layout) (x : Scaled) : List Char :=
  let all := Nat.toDigits 10 x.digits
  let power := x.exponent + all.length - 1
  let digits := trimZeros all
  if layout.lowest ≤ power ∧ power < layout.highest then positional power digits
  else layout.scientific power digits

def Layout.magnitude (layout : Layout) (p : Parts) : List Char :=
  if p.mantissa = 0 then ['0', '.', '0'] else layout.write p.shortest

def Layout.text (layout : Layout) (x : Float) : String :=
  if x.isNaN then "nan"
  else
    let sign := if isNegative x then ['-'] else []
    match parts? x with
    | none => String.ofList (sign ++ ['i', 'n', 'f'])
    | some p => String.ofList (sign ++ layout.magnitude p)

/-- Powers of ten from -4 to 15 have no exponent; others have one of at least two digits. -/
def standard : Layout := ⟨-4, 16, 2⟩

end ThunkLisp.Decimal
