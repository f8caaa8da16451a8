import ThunkLisp.Text.Blank

/-!
Tokens of source text: quotes, parentheses, string literals and symbols. Blanks and comments, which
run from a semicolon to the end of the line, separate tokens and are dropped. The only text that
can not be split into tokens is one with a string literal that has no end.
-/

namespace ThunkLisp

open Text

/-- A string literal is kept without its double quotes but with its escapes. -/
inductive Token where
  | quote
  | opening
  | closing
  | string (body : List Char)
  | symbol (text : List Char)
  deriving DecidableEq, Repr

namespace Token

def text : Token → List Char
  | .quote => ['\'']
  | .opening => ['(']
  | .closing => [')']
  | .string body => '"' :: body ++ ['"']
  | .symbol text => text

/-- Characters of symbols and numbers: all but blanks, parentheses, quotes and semicolons. -/
def isSymbolChar (c : Char) : Bool :=
  !isBlank c && c != '(' && c != ')' && c != '\'' && c != '"' && c != ';'

/-- The body of a string literal after its opening quote, and what follows its closing quote. A
backslash takes the next character with it. -/
def stringBody? : List Char → Option (List Char × List Char)
  | [] => none
  | '"' :: rest => some ([], rest)
  | ['\\'] => none
  | '\\' :: c :: rest => (stringBody? rest).map fun (body, after) => ('\\' :: c :: body, after)
  | c :: rest => (stringBody? rest).map fun (body, after) => (c :: body, after)

theorem append_of_stringBody? (text body after : List Char)
    (found : stringBody? text = some (body, after)) : text = body ++ '"' :: after := by
  fun_induction stringBody? text generalizing body with
  | case1 => simp at found
  | case2 => simp at found; simp [found]
  | case3 => simp at found
  | case4 c rest ih =>
      simp only [Option.map_eq_some_iff, Prod.exists] at found
      obtain ⟨inner, behind, found, same⟩ := found
      simp only [Prod.mk.injEq] at same
      obtain ⟨rfl, rfl⟩ := same
      simp [ih inner found]
  | case5 c rest _ _ _ ih =>
      simp only [Option.map_eq_some_iff, Prod.exists] at found
      obtain ⟨inner, behind, found, same⟩ := found
      simp only [Prod.mk.injEq] at same
      obtain ⟨rfl, rfl⟩ := same
      simp [ih inner found]

end Token

/-- The tokens of a text, up to the first place where no token starts, and the text from there. -/
structure Lexed where
  tokens : List Token
  unread : List Char
  deriving DecidableEq, Repr

def Lexed.push (token : Token) (lexed : Lexed) : Lexed :=
  { lexed with tokens := token :: lexed.tokens }

theorem length_dropWhile_le (p : Char → Bool) (text : List Char) :
    (text.dropWhile p).length ≤ text.length := by
  induction text with
  | nil => simp
  | cons c rest ih =>
      rw [List.dropWhile_cons]
      split
      · simp only [List.length_cons]; omega
      · exact Nat.le_refl _

def lex (source : List Char) : Lexed :=
  match source with
  | [] => ⟨[], []⟩
  | c :: rest =>
      if isBlank c then lex rest
      else if c = ';' then lex (rest.dropWhile (· != '\n'))
      else if c = '\'' then (lex rest).push .quote
      else if c = '(' then (lex rest).push .opening
      else if c = ')' then (lex rest).push .closing
      else if c = '"' then
        match _found : Token.stringBody? rest with
        | none => ⟨[], source⟩
        | some (body, after) => (lex after).push (.string body)
      else
        (lex (rest.dropWhile Token.isSymbolChar)).push
          (.symbol (c :: rest.takeWhile Token.isSymbolChar))
termination_by source.length
decreasing_by
  all_goals simp only [List.length_cons]
  · omega
  · have := length_dropWhile_le (· != '\n') rest; omega
  · omega
  · omega
  · omega
  · have := congrArg List.length (Token.append_of_stringBody? rest body after _found)
    simp only [List.length_append, List.length_cons] at this
    omega
  · have := length_dropWhile_le Token.isSymbolChar rest; omega

end ThunkLisp
