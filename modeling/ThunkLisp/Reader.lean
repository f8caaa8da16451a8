import ThunkLisp.Numeral
import ThunkLisp.TokenStream

/-!
Reading: from tokens to values. A form is an atom, a quoted form or a list of forms, and reading
keeps a stack of the lists and quotes that are still open. A quote in front of a form stands for
the list of the symbol `quote` and the form.
-/

namespace ThunkLisp

/-- What a backslash and a character stand for in a string literal. A line feed is not escaped, so
the backslash before it stands for itself. -/
def escapedChar : Char → List Char
  | 'n' => ['\n']
  | 't' => ['\t']
  | 'r' => ['\r']
  | '\n' => ['\\', '\n']
  | c => [c]

def unescape : List Char → List Char
  | '\\' :: c :: rest => escapedChar c ++ unescape rest
  | c :: rest => c :: unescape rest
  | [] => []

/-- A numeral may have a line feed behind it. -/
def dropFinalLineFeed (text : List Char) : List Char :=
  if text.getLast? = some '\n' then text.dropLast else text

/-- The value of a token that is no string literal, quote or parenthesis: a constant, a number or
a symbol. -/
def readAtom (text : List Char) : Except Failure Value :=
  if text = ['n', 'i', 'l'] then .ok .nil
  else if text = ['t', 'r', 'u', 'e'] then .ok (.bool true)
  else if text = ['f', 'a', 'l', 's', 'e'] then .ok (.bool false)
  else match Numeral.parse? (dropFinalLineFeed text) with
    | none => .ok (.sym (String.ofList text))
    | some numeral =>
        if !numeral.isWhole then .ok (.float numeral.toFloat)
        else if numeral.whole.length ≤ Number.digitLimit then .ok (.int numeral.toInt)
        else .error (.tooManyDigits numeral.whole.length)

def quoteForm (value : Value) : Value := .list [.sym "quote", value]

/-- A list that is still open, with its items so far in reverse, or a quote that waits for its
form. -/
inductive Level where
  | list (items : List Value)
  | quote

/-- What a token leads to: a whole form, or more open levels around the next one. -/
inductive Progress where
  | complete (value : Value)
  | within (levels : List Level)

namespace Reader

/-- Puts a form into the innermost level. Quotes around it are complete then. -/
def place (value : Value) : List Level → Progress
  | [] => .complete value
  | .list items :: outer => .within (.list (value :: items) :: outer)
  | .quote :: outer => place (quoteForm value) outer

def start (levels : List Level) : Token → Except Failure Progress
  | .quote => .ok (.within (.quote :: levels))
  | .opening => .ok (.within (.list [] :: levels))
  | .closing => .error (.malformed .unexpectedClosing)
  | .string body => .ok (place (.str (String.ofList (unescape body))) levels)
  | .symbol text => (readAtom text).map fun value => place value levels

/-- Takes one token. Forms may be nested up to the limit. -/
def take (limit : Nat) (levels : List Level) (token : Token) : Except Failure Progress :=
  match token, levels with
  | .closing, .list items :: outer => .ok (place (.list items.reverse) outer)
  | token, levels => if levels.length < limit then start levels token else .error .recursion

def ending : List Level → Failure
  | .list _ :: _ => .malformed .unmatchedOpening
  | _ => .malformed .endOfInput

inductive Reading where
  | form (value : Value) (rest : List Token)
  | failed (failure : Failure) (rest : List Token)
  | ranOut (levels : List Level)

def readForm (limit : Nat) (levels : List Level) : List Token → Reading
  | [] => .ranOut levels
  | token :: rest =>
      match take limit levels token with
      | .error failure => .failed failure rest
      | .ok (.complete value) => .form value rest
      | .ok (.within inner) => readForm limit inner rest

inductive Readings where
  | failed (failure : Failure) (rest : List Token)
  | ranOut (forms : List Value) (levels : List Level)

def readForms (limit : Nat) (done : List Value) (levels : List Level) : List Token → Readings
  | [] => .ranOut done.reverse levels
  | token :: rest =>
      match take limit levels token with
      | .error failure => .failed failure rest
      | .ok (.complete value) => readForms limit (value :: done) [] rest
      | .ok (.within inner) => readForms limit done inner rest

end Reader

namespace TokenStream

open Reader

def parseForm (limit : Nat) (stream : TokenStream) : Except Failure Value × TokenStream :=
  match readForm limit [] stream.waiting with
  | .form value rest => (.ok value, stream.withTokens rest)
  | .failed failure rest => (.error failure, stream.withTokens rest)
  | .ranOut levels => (.error (stream.fault.getD (ending levels)), ended)

def parseAll (limit : Nat) (stream : TokenStream) : Except Failure (List Value) × TokenStream :=
  match readForms limit [] [] stream.waiting with
  | .failed failure rest => (.error failure, stream.withTokens rest)
  | .ranOut forms levels =>
      let answer := match stream.fault, levels with
        | some failure, _ => .error failure
        | none, [] => .ok forms
        | none, levels => .error (ending levels)
      (answer, ended)

end TokenStream

/-- How deep the forms of a source text may be nested. -/
def readLimit : Nat := 1000

def readAllWithin (limit : Nat) (source : String) : Except Failure (List Value) :=
  ((TokenStream.ofSource source.toList).parseAll limit).1

def readAll (source : String) : Except Failure (List Value) := readAllWithin readLimit source

def readOneWithin (limit : Nat) (source : String) : Except Failure Value := do
  match ← readAllWithin limit source with
  | [form] => return form
  | forms => throw (.malformed (.notOneForm forms.length))

def readOne (source : String) : Except Failure Value := readOneWithin readLimit source

end ThunkLisp
