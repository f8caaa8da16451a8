import ThunkLisp.Failure

/-!
Arithmetic on values: booleans stand for one and zero, and a text or a list can be repeated.
-/

namespace ThunkLisp

/-- A double that is NaN has no identity yet. -/
def Number.toValue : Number → Value
  | .int n => .int n
  | .float x => if x.isNaN then .nan 0 else .float x

namespace Arithmetic

def combine (symbol : String) (op : Number → Number → Except ArithmeticFault Number)
    (a b : Value) : Except Failure Value :=
  match a.number?, b.number? with
  | some m, some n =>
      match op m n with
      | .ok result => .ok result.toValue
      | .error fault => .error (.arithmetic fault)
  | _, _ => .error (.operand (.unsupported symbol a.typeName b.typeName))

def negate (a : Value) : Except Failure Value :=
  match a.number? with
  | some n => .ok n.neg.toValue
  | none => .error (.operand (.notNegatable a.typeName))

/-- How often something is to be repeated, if the value can say so. Counts have 64 bits. -/
def repeatCount (count : Value) : Except Failure Nat :=
  match count.number? with
  | some (.int n) =>
      if -2 ^ 63 ≤ n ∧ n < 2 ^ 63 then .ok n.toNat else .error (.arithmetic .countTooLarge)
  | _ => .error (.operand (.repeatCount count.typeName))

/-- More items than this have no room anywhere. -/
def itemLimit : Nat := 2 ^ 40

def repeatList (items : List α) (count : Nat) : Except Failure (List α) :=
  if items.isEmpty then .ok []
  else if items.length * count ≤ itemLimit then .ok (List.replicate count items).flatten
  else .error (.arithmetic .outOfMemory)

/-- The length of a text has 64 bits too. -/
def repeatText (text : List Char) (count : Nat) : Except Failure (List Char) :=
  if text.length * count < 2 ^ 63 then repeatList text count
  else .error (.arithmetic .textTooLong)

/-- A text or a list, repeated; none for other values. -/
def repeat? (sequence count : Value) : Option (Except Failure Value) :=
  match sequence with
  | .str text => some do
      return .str (String.ofList (← repeatText text.toList (← repeatCount count)))
  | .list items => some do return .list (← repeatList items (← repeatCount count))
  | _ => none

def multiply (a b : Value) : Except Failure Value :=
  match repeat? a b with
  | some result => result
  | none =>
      match repeat? b a with
      | some result => result
      | none => combine "*" Number.mul a b

def sumOf (operands : List Value) : Except Failure Value :=
  operands.foldlM (combine "+" Number.add) (.int 0)

def productOf (operands : List Value) : Except Failure Value := operands.foldlM multiply (.int 1)

/-- The first operand less the others; one operand alone is negated. -/
def differenceOf (first : Value) : List Value → Except Failure Value
  | [] => negate first
  | rest => rest.foldlM (combine "-" Number.sub) first

/-- The first operand divided by the others in turn; the reciprocal of one operand alone. -/
def quotientOf (first : Value) : List Value → Except Failure Value
  | [] => combine "/=" Number.div (.int 1) first
  | rest => rest.foldlM (combine "/=" Number.div) first

end Arithmetic

end ThunkLisp
