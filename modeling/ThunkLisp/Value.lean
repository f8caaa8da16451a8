import ThunkLisp.Number

/-!
Values, which are also the code: a program is a tree of values, and quoting one makes it data.
Procedures name the frame they were made in, and suspended computations their place in the store,
so a value means nothing without its store.
-/

namespace ThunkLisp

abbrev FrameId := Nat
abbrev ThunkId := Nat

/-- How the mixed strategy passes an argument: evaluated, suspended, or suspended with its value
kept after the first use. -/
inductive ParamMode where
  | strict
  | lazy
  | lazyMemo
  deriving DecidableEq, Repr

structure Param where
  name : String
  mode : ParamMode
  deriving DecidableEq, Repr

inductive Comparison where
  | less
  | greater
  | atMost
  | atLeast
  deriving DecidableEq, Repr

inductive Arithmetic where
  | sum
  | difference
  | product
  | quotient
  deriving DecidableEq, Repr

/-- What a primitive does. The program that embeds the evaluator may add operations of its own,
known by name. -/
inductive Operation where
  | first
  | rest
  | pair
  | isEmpty
  | arithmetic (kind : Arithmetic)
  | equal
  | compare (relation : Comparison)
  | negation
  | list
  | display
  | added (name : String)
  deriving DecidableEq, Repr

structure Primitive where
  name : String
  operation : Operation
  /-- tells apart primitives that were made separately; the default ones have zero -/
  identity : Nat
  deriving DecidableEq, Repr

/-- An object of the embedding program that is no expression: what messages say of its type and
of itself. -/
structure Foreign where
  type : String
  text : String
  identity : Nat
  deriving DecidableEq, Repr

inductive Value where
  /-- the empty value -/
  | nil
  /-- the missing value that a host function may return: it counts as nil but is another value -/
  | absent
  | bool (b : Bool)
  | int (n : Int)
  /-- a double that is a number -/
  | float (x : Float)
  /-- NaN, which equals nothing; each computed one is a value of its own, so that a list that
  holds it still equals itself -/
  | nan (identity : Nat)
  | str (text : String)
  | sym (name : String)
  | list (items : List Value)
  /-- what a variable holds before its initial value has been computed -/
  | unassigned
  | foreign (object : Foreign)
  | primitive (p : Primitive)
  | procedure (identity : Nat) (params : List Param) (body : List Value) (frame : FrameId)
  | thunk (id : ThunkId)

instance : Inhabited Value := ⟨.nil⟩

namespace Value

/-- A missing host value counts as nil. -/
def isNil : Value → Bool
  | .nil | .absent => true
  | _ => false

/-- Everything but nil and false is true, also zero and the empty text. -/
def isTrue : Value → Bool
  | .nil | .absent | .bool false => false
  | _ => true

/-- Whether the host takes the value as false: besides what is not true, zero and what is empty. -/
def isEmptyOrZero : Value → Bool
  | .nil | .absent => true
  | .bool b => !b
  | .int n => n == 0
  | .float x => x == 0
  | .str text => text.isEmpty
  | .list items => items.isEmpty
  | _ => false

def isSelfEvaluating : Value → Bool
  | .nil | .absent | .bool _ | .int _ | .float _ | .nan _ | .str _ => true
  | .primitive _ | .procedure .. => true
  | .list items => items.isEmpty
  | _ => false

def isSymbol : Value → Bool
  | .sym _ => true
  | _ => false

def isCombination : Value → Bool
  | .list (_ :: _) => true
  | _ => false

/-- The number that a value stands for in arithmetic; booleans stand for one and zero. -/
def number? : Value → Option Number
  | .bool b => some (.int (if b then 1 else 0))
  | .int n => some (.int n)
  | .float x => some (.float x)
  | .nan _ => some (.float (0 / 0))
  | _ => none

def typeName : Value → String
  | .nil => "NilType"
  | .absent => "NoneType"
  | .bool _ => "bool"
  | .int _ => "int"
  | .float _ | .nan _ => "float"
  | .str _ => "str"
  | .sym _ => "Symbol"
  | .list _ => "list"
  | .unassigned => "_Unassigned"
  | .foreign object => object.type
  | .primitive _ => "Primitive"
  | .procedure .. => "Procedure"
  | .thunk _ => "Thunk"

end Value

end ThunkLisp
