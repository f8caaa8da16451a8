import ThunkLisp.Arithmetic
import ThunkLisp.Run
import ThunkLisp.Written

/-!
The primitives: what they do with their arguments, how many they take, and the names under which
a new session finds them.
-/

namespace ThunkLisp

/-! The number of arguments. -/

def nullary (function : String) (action : Run Value) : List Value → Run Value
  | [] => action
  | given => throw (.operand (.tooMany function 0 given.length))

def unary (function name : String) (action : Value → Run Value) : List Value → Run Value
  | [a] => action a
  | [] => throw (.operand (.missing function [name]))
  | given => throw (.operand (.tooMany function 1 given.length))

def binary (function left right : String) (action : Value → Value → Run Value) :
    List Value → Run Value
  | [a, b] => action a b
  | [] => throw (.operand (.missing function [left, right]))
  | [_] => throw (.operand (.missing function [right]))
  | given => throw (.operand (.tooMany function 2 given.length))

def oneOrMore (function name : String) (action : Value → List Value → Run Value) :
    List Value → Run Value
  | [] => throw (.operand (.missing function [name]))
  | a :: rest => action a rest

/-! Lists and texts. -/

/-- The first item of a list or character of a text; nil for what is empty or zero. -/
def firstOf (sequence : Value) : Except Failure Value :=
  if sequence.isEmptyOrZero then .ok .nil
  else match sequence with
    | .list (item :: _) => .ok item
    | .str text => .ok (.str (String.ofList (text.toList.take 1)))
    | other => .error (.operand (.notIndexable other.typeName))

/-- What follows the first item; the empty list for what is empty or zero. -/
def restOf (sequence : Value) : Except Failure Value :=
  if sequence.isEmptyOrZero then .ok (.list [])
  else match sequence with
    | .list (_ :: rest) => .ok (.list rest)
    | .str text => .ok (.str (String.ofList (text.toList.drop 1)))
    | other => .error (.operand (.notIndexable other.typeName))

/-- A list with a new first item. A tail that is no list becomes the second item, unless it is
nil. -/
def pairOf (head tail : Value) : Value :=
  match tail with
  | .list items => .list (head :: items)
  | tail => if tail.isNil then .list [head] else .list [head, tail]

def isEmptyList : Value → Bool
  | .list items => items.isEmpty
  | value => value.isNil

/-! Comparisons. -/

/-- Equality that keeps booleans apart from numbers. -/
def equalApart : Value → Value → Bool
  | .bool a, .bool b => a == b
  | .bool _, _ => false
  | _, .bool _ => false
  | a, b => a.equal b

def ordered (relation : Comparison) (a b : Value) : Except Failure Bool :=
  match a, b with
  | .bool _, _ => .error (.unorderedBooleans a b)
  | _, .bool _ => .error (.unorderedBooleans a b)
  | a, b =>
      match relation.holds a b with
      | .ok result => .ok result
      | .error sides => .error (.operand (.unordered sides))

/-- What a comparison comes to, if there is room for those inside it. -/
def comparing (nesting : Nat) (outcome : Except Failure Bool) : Except Failure Bool :=
  if nesting ≤ comparisonLimit then outcome else .error .recursion

theorem comparing_of_le {nesting : Nat} (within : nesting ≤ comparisonLimit)
    (outcome : Except Failure Bool) : comparing nesting outcome = outcome := if_pos within

theorem comparing_of_lt {nesting : Nat} (beyond : comparisonLimit < nesting)
    (outcome : Except Failure Bool) : comparing nesting outcome = .error .recursion :=
  if_neg (Nat.not_le_of_lt beyond)

def decideEqual (a b : Value) : Except Failure Bool :=
  comparing (a.equalNesting b) (.ok (equalApart a b))

def decideOrder (relation : Comparison) (a b : Value) : Except Failure Bool :=
  comparing (a.orderNesting b) (ordered relation a b)

/-- Whether every two neighbours are related. The first that are not end the search. -/
def chained (relation : Value → Value → Except Failure Bool) : List Value → Except Failure Bool
  | [] => .error .nothingToCompare
  | [_] => .ok true
  | a :: b :: rest => do if ← relation a b then chained relation (b :: rest) else return false

/-! Effects. -/

/-- Gives a computed NaN an identity of its own. -/
def renewed : Value → Run Value
  | .nan _ => do return .nan (← Run.make Store.takeIdentity)
  | value => return value

def displayOne (value : Value) : Run Unit := do
  let text ← Run.ofExcept (← Run.read fun store => store.displayed value)
  Run.change fun store => store.print text

/-- Prints the displayed values with blanks between them, up to the first that can not be
written. -/
def displayRow : List Value → Run Unit
  | [] => return
  | [value] => displayOne value
  | value :: rest => do
      displayOne value
      Run.change fun store => store.print " "
      displayRow rest

def displayAll (values : List Value) : Run Value := do
  displayRow values
  Run.change fun store => store.print "\n"
  return .nil

abbrev AddedActions := String → List Value → Run Value

def Arithmetic.run : Arithmetic → List Value → Run Value
  | .sum => fun given => do renewed (← Run.ofExcept (sumOf given))
  | .product => fun given => do renewed (← Run.ofExcept (productOf given))
  | .difference => oneOrMore "sub" "first" fun a rest => do
      renewed (← Run.ofExcept (differenceOf a rest))
  | .quotient => oneOrMore "div" "first" fun a rest => do
      renewed (← Run.ofExcept (quotientOf a rest))

def Operation.run (added : AddedActions) : Operation → List Value → Run Value
  | .first => unary "car" "xs" fun a => Run.ofExcept (firstOf a)
  | .rest => unary "cdr" "xs" fun a => Run.ofExcept (restOf a)
  | .pair => binary "cons" "head" "tail" fun a b => return pairOf a b
  | .isEmpty => unary "is_null" "xs" fun a => return .bool (isEmptyList a)
  | .arithmetic kind => kind.run
  | .equal => fun given => do
      return .bool (← Run.ofExcept (chained decideEqual given))
  | .compare relation => fun given => do
      return .bool (← Run.ofExcept (chained (decideOrder relation) given))
  | .negation => unary "logical_not" "value" fun a => return .bool (!a.isTrue)
  | .list => fun given => return .list given
  | .display => displayAll
  | .added name => added name

/-! The names of the primitives. -/

def defaultOperations : List (String × Operation) :=
  [("car", .first), ("cdr", .rest), ("cons", .pair), ("null?", .isEmpty),
   ("+", .arithmetic .sum), ("-", .arithmetic .difference),
   ("*", .arithmetic .product), ("/", .arithmetic .quotient),
   ("=", .equal), ("<", .compare .less), (">", .compare .greater),
   ("<=", .compare .atMost), (">=", .compare .atLeast),
   ("not", .negation), ("list", .list), ("display", .display)]

def defaultPrimitive (name : String) (operation : Operation) : Value :=
  .primitive ⟨name, operation, 0⟩

def defaultPrimitives : Bindings :=
  defaultOperations.map fun entry => (.sym entry.1, defaultPrimitive entry.1 entry.2)

end ThunkLisp
