import ThunkLisp.Text.Printable

/-!
Quoted texts: between single quotes, or double ones if the text holds a single quote and no double
one. The quote in use, the backslash, line feeds, carriage returns and tabs are escaped by a
backslash, and other unprintable characters by their code point.
-/

namespace ThunkLisp.Text

/-- The code point in hexadecimal, with two, four or eight digits. -/
def escapeCode (code : Nat) : List Char :=
  let digits := Nat.toDigits 16 code
  let fill := fun width => List.replicate (width - digits.length) '0' ++ digits
  if code < 0x100 then '\\' :: 'x' :: fill 2
  else if code < 0x10000 then '\\' :: 'u' :: fill 4
  else '\\' :: 'U' :: fill 8

def escapeChar (quote c : Char) : List Char :=
  if c = quote ∨ c = '\\' then ['\\', c]
  else if c = '\n' then ['\\', 'n']
  else if c = '\r' then ['\\', 'r']
  else if c = '\t' then ['\\', 't']
  else if isPrintable c then [c]
  else escapeCode c.toNat

def chooseQuote (text : List Char) : Char :=
  if text.contains '\'' && !text.contains '"' then '"' else '\''

def quoted (text : String) : String :=
  let quote := chooseQuote text.toList
  String.ofList (quote :: text.toList.flatMap (escapeChar quote) ++ [quote])

end ThunkLisp.Text
