import ThunkLisp.Text.CaseTable

/-!
Lower-casing of whole texts by the Unicode rules: a character has one lower-case form, but for the
dotted capital I, which has two characters, and the capital sigma, whose form depends on whether
it ends a word.
-/

namespace ThunkLisp.Text

def LowerRow.lower? (row : LowerRow) (code : Nat) : Option Char :=
  if row.first ≤ code ∧ code ≤ row.last ∧ (code - row.first) % row.step = 0 then
    some (Char.ofNat (code + row.distance).toNat)
  else none

def lowerChar (c : Char) : Char :=
  (lowerRows.findSome? fun row => row.lower? c.toNat).getD c

/-- Whether the nearest character that is not passed over has case. -/
def casedNext (text : List Char) : Bool :=
  match text.dropWhile caseIgnorableRanges.contains with
  | [] => false
  | c :: _ => casedRanges.contains c

/-- The lower-case form of a text that stands after `before`, whose last character comes first. -/
def lowercaseAfter (before : List Char) : List Char → List Char
  | [] => []
  | c :: rest =>
      let lower :=
        if c = 'Σ' then
          -- a sigma after a letter and before none ends its word
          if casedNext before && !casedNext rest then ['ς'] else ['σ']
        else if c = 'İ' then ['i', '\u0307']
        else [lowerChar c]
      lower ++ lowercaseAfter (c :: before) rest

def lowercase (text : List Char) : List Char := lowercaseAfter [] text

end ThunkLisp.Text
