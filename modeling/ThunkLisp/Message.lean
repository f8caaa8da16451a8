import ThunkLisp.Failure
import ThunkLisp.Written

/-!
The wording of failures: words and values in a row. Where a value can not be written, it is why
that is reported instead.
-/

namespace ThunkLisp

/-- Quoted names in a row; the last one follows an "and", after a comma if there are more than
two. -/
def listing (names : List String) : String :=
  match names.map fun name => "'" ++ name ++ "'" with
  | [first, second] => first ++ " and " ++ second
  | quoted =>
      match quoted.reverse with
      | last :: before :: rest => ", ".intercalate (before :: rest).reverse ++ ", and " ++ last
      | few => "".intercalate few

def plural (count : Nat) (noun : String) : String := if count = 1 then noun else noun ++ "s"

def OperandFault.message : OperandFault → String
  | .unsupported symbol left right =>
      "unsupported operand type(s) for " ++ symbol ++ ": '" ++ left ++ "' and '" ++ right ++ "'"
  | .notNegatable type => "bad operand type for unary -: '" ++ type ++ "'"
  | .repeatCount type => "can't multiply sequence by non-int of type '" ++ type ++ "'"
  | .unordered sides =>
      "'" ++ sides.relation.symbol ++ "' not supported between instances of '" ++ sides.left ++
        "' and '" ++ sides.right ++ "'"
  | .notIndexable type => "'" ++ type ++ "' object is not subscriptable"
  | .notAKey type => "unhashable type: '" ++ type ++ "'"
  | .missing function names =>
      function ++ "() missing " ++ intText names.length ++ " required positional " ++
        plural names.length "argument" ++ ": " ++ listing names
  | .tooMany function taken given =>
      function ++ "() takes " ++ intText taken ++ " positional " ++ plural taken "argument" ++
        " but " ++ intText given ++ " " ++ (if given = 1 then "was" else "were") ++ " given"

/-- A part of a message: words of its own, or a value in one of its two forms. -/
inductive Phrase where
  | words (text : String)
  | written (value : Value)
  | displayed (value : Value)

def Phrase.text (store : Store) : Phrase → Except Failure String
  | .words text => .ok text
  | .written value => store.written value
  | .displayed value => store.displayed value

def Malformed.phrases : Malformed → List Phrase
  | .unexpectedChar position c =>
      [.words ("Unexpected char at " ++ intText position ++ ": " ++
        Text.quoted (String.singleton c))]
  | .endOfInput => [.words "Unexpected end of input"]
  | .unmatchedOpening => [.words "Unmatched '('"]
  | .unexpectedClosing => [.words "Unexpected ')'"]
  | .notOneForm count => [.words ("Expected exactly one form, got " ++ intText count)]
  | .notASymbol name => [.words "Cannot define ", .written name, .words ": not a symbol"]
  | .paramMode mode name =>
      [.words "Unknown parameter mode ", .displayed mode, .words (" for " ++ name)]
  | .param spec => [.words "Malformed parameter: ", .written spec]
  | .paramList spec => [.words "Parameter list must be a list, got ", .written spec]
  | .duplicateParam spec => [.words "Duplicate parameter in ", .written spec]
  | .condClause clause => [.words "Malformed cond clause: ", .written clause]
  | .unlessOperands => [.words "unless requires a condition and one or two branches"]
  | .missingBindings form => [.words (form ++ " requires a binding list")]
  | .bindingList bindings => [.words "Bindings must be a list, got ", .written bindings]
  | .binding entry => [.words "Malformed binding: ", .written entry]
  | .quoteOperands => [.words "quote expects exactly 1 argument"]
  | .setOperands => [.words "set! requires exactly 2 arguments: (set! var value)"]
  | .setTarget target => [.words "set! first argument must be a Symbol, got ", .written target]
  | .defineOperands => [.words "define requires a name"]
  | .defineValue => [.words "define requires exactly 2 arguments"]
  | .defineTarget target => [.words "Cannot define ", .written target]
  | .ifOperands =>
      [.words "if requires a condition, a then-expression and an optional else"]
  | .lambdaOperands => [.words "lambda requires at least a parameter list"]
  | .notAnExpression code => [.words "Cannot evaluate ", .written code]

def Failure.phrases : Failure → List Phrase
  | .recursion => [.words "recursion too deep"]
  | .unbound name => [.words "Unbound variable: ", .displayed name]
  | .unboundTarget name => [.words "Cannot set unbound variable: ", .displayed name]
  | .unassigned name => [.words "Unassigned variable: ", .displayed name]
  | .misplacedElse clauses => [.words "ELSE clause isn't last: ", .written (.list clauses)]
  | .malformed fault => fault.phrases
  | .argumentCount params given =>
      [.words (procedureText params ++ " expects " ++ intText params.length ++
        " argument(s), got " ++ intText given)]
  | .nothingToCompare => [.words "comparison requires at least 1 argument"]
  | .notApplicable value => [.words "Cannot apply non-procedure ", .written value]
  | .unorderedBooleans left right =>
      [.words "Cannot order booleans: ", .written left, .words ", ", .written right]
  | .operand fault => [.words fault.message]
  | .arithmetic fault => [.words fault.message]
  | .tooManyDigits count =>
      [.words ("Exceeds the limit (4300 digits) for integer string conversion: value has " ++
        intText count ++ " digits; use sys.set_int_max_str_digits() to increase the limit")]
  | .notWritable =>
      [.words ("Exceeds the limit (4300 digits) for integer string conversion; " ++
        "use sys.set_int_max_str_digits() to increase the limit")]
  | .unknownStrategy name => [.words ("Unknown evaluation strategy " ++ Text.quoted name)]
  | .notAFlag setting value =>
      [.words (setting ++ " must be a boolean flag, got " ++ Text.quoted value)]
  | .raised text => [.words text]

/-- The message of a failure, or why there is none. -/
def Failure.message (store : Store) (failure : Failure) : Except Failure String :=
  (failure.phrases.mapM (Phrase.text store)).map String.join

def Failure.message? (store : Store) (failure : Failure) : Option String :=
  (failure.message store).toOption

/-- What is reported for a failure. -/
def Failure.reported (store : Store) (failure : Failure) : Failure :=
  match failure.message store with
  | .ok _ => failure
  | .error cause => cause

end ThunkLisp
