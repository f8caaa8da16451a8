import ThunkLisp.Text.CodeRange

/-!
White space: the characters that may stand between tokens and that settings are stripped of.
It is Unicode white space together with the four ASCII separators U+001C to U+001F.
-/

namespace ThunkLisp.Text

def blankRanges : CodeRanges :=
  [(0x9, 0xd), (0x1c, 0x20), (0x85, 0x85), (0xa0, 0xa0), (0x1680, 0x1680),
   (0x2000, 0x200a), (0x2028, 0x2029), (0x202f, 0x202f), (0x205f, 0x205f), (0x3000, 0x3000)]

def isBlank (c : Char) : Bool := blankRanges.contains c

def strip (text : List Char) : List Char :=
  ((text.dropWhile isBlank).reverse.dropWhile isBlank).reverse

end ThunkLisp.Text
