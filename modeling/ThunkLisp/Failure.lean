import ThunkLisp.Equality

/-!
Why an evaluation ends without a value, as causes. What is said about them depends on the store,
since the text of a suspended computation does; `Message` has the wording.
-/

namespace ThunkLisp

/-- Faults in the shape of source text or code. -/
inductive Malformed where
  | unexpectedChar (position : Nat) (c : Char)
  | endOfInput
  | unmatchedOpening
  | unexpectedClosing
  | notOneForm (count : Nat)
  | notASymbol (name : Value)
  | paramMode (mode : Value) (name : String)
  | param (spec : Value)
  | paramList (spec : Value)
  | duplicateParam (spec : Value)
  | condClause (clause : Value)
  | unlessOperands
  | missingBindings (form : String)
  | bindingList (bindings : Value)
  | binding (binding : Value)
  | quoteOperands
  | setOperands
  | setTarget (target : Value)
  | defineOperands
  | defineValue
  | defineTarget (target : Value)
  | ifOperands
  | lambdaOperands
  | notAnExpression (code : Value)

inductive OperandFault where
  | unsupported (symbol left right : String)
  | notNegatable (type : String)
  | repeatCount (type : String)
  | unordered (sides : Unordered)
  | notIndexable (type : String)
  | notAKey (type : String)
  | missing (function : String) (names : List String)
  | tooMany (function : String) (taken given : Nat)

inductive Failure where
  /-- calls, comparisons, or forms or lists that are read or written are nested too deep -/
  | recursion
  | unbound (name : Value)
  | unboundTarget (name : Value)
  | unassigned (name : Value)
  | misplacedElse (clauses : List Value)
  | malformed (fault : Malformed)
  | argumentCount (params : List Param) (given : Nat)
  | nothingToCompare
  | notApplicable (value : Value)
  | unorderedBooleans (left right : Value)
  | operand (fault : OperandFault)
  | arithmetic (fault : ArithmeticFault)
  /-- a whole number in a source text has too many digits -/
  | tooManyDigits (count : Nat)
  /-- a whole number that is to be shown has too many digits -/
  | notWritable
  | unknownStrategy (name : String)
  | notAFlag (setting value : String)
  /-- raised by an added primitive in its own words -/
  | raised (text : String)

end ThunkLisp
