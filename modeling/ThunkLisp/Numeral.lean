import ThunkLisp.Decimal.Double
import ThunkLisp.Number
import ThunkLisp.Text.DecimalDigit

/-!
Numerals: an optional sign and digits, of any script, for whole numbers; with a point, an exponent
or both for doubles. A point needs a digit on one side at least.
-/

namespace ThunkLisp

structure Numeral where
  negative : Bool
  whole : List Char
  /-- the digits after the point, if there is one -/
  fraction? : Option (List Char)
  /-- sign and digits after the exponent mark, if there is one -/
  exponent? : Option (Bool × List Char)

namespace Numeral

open Text

def splitSign : List Char → Bool × List Char
  | '-' :: rest => (true, rest)
  | '+' :: rest => (false, rest)
  | text => (false, text)

def splitFraction : List Char → Option (List Char) × List Char
  | '.' :: rest => (some (rest.takeWhile isDigit), rest.dropWhile isDigit)
  | text => (none, text)

/-- An exponent that takes up the whole text; none if the text is something else. -/
def parseExponent? (text : List Char) : Option (Option (Bool × List Char)) :=
  match text with
  | [] => some none
  | mark :: rest =>
      let (negative, digits) := splitSign rest
      if (mark = 'e' ∨ mark = 'E') ∧ digits ≠ [] ∧ digits.all isDigit then
        some (some (negative, digits))
      else none

def parse? (text : List Char) : Option Numeral :=
  let (negative, body) := splitSign text
  let whole := body.takeWhile isDigit
  let (fraction?, rest) := splitFraction (body.dropWhile isDigit)
  if whole = [] ∧ fraction?.getD [] = [] then none
  else (parseExponent? rest).map fun exponent? => ⟨negative, whole, fraction?, exponent?⟩

def isWhole (n : Numeral) : Bool := n.fraction?.isNone && n.exponent?.isNone

def signed (negative : Bool) (magnitude : Nat) : Int := if negative then -magnitude else magnitude

def toInt (n : Numeral) : Int := signed n.negative (digitsValue n.whole)

def exponent (n : Numeral) : Int :=
  match n.exponent? with
  | none => 0
  | some (negative, digits) => signed negative (digitsValue digits)

/-- The nearest double, an infinity if the numeral is too large. -/
def toFloat (n : Numeral) : Float :=
  let fraction := n.fraction?.getD []
  Decimal.ofDecimal n.negative (digitsValue (n.whole ++ fraction)) (n.exponent - fraction.length)

end Numeral

end ThunkLisp
