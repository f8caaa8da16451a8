import ThunkLisp.Value

/-!
Equality and order of values. Numbers are equal by value, booleans being one and zero; texts and
symbols by content; lists element by element; everything else only to itself. Texts are ordered by
code point and lists by their first unequal elements. To compare lists takes comparisons inside
each other.
-/

namespace ThunkLisp

/-- Values with nothing inside: equality of two values of which at most one is a list. -/
def Value.equalAtoms : Value → Value → Bool
  | .nil, .nil => true
  | .absent, .absent => true
  | .unassigned, .unassigned => true
  | .str s, .str t => s == t
  | .sym a, .sym b => a == b
  | .foreign a, .foreign b => a.identity == b.identity
  | .primitive p, .primitive q => p == q
  | .procedure i .., .procedure j .. => i == j
  | .thunk i, .thunk j => i == j
  | a, b =>
      match a.number?, b.number? with
      | some m, some n => m.equal n
      | _, _ => false

/-- One and the same NaN, which is the same element of two lists although it equals nothing. -/
def Value.sameNaN : Value → Value → Bool
  | .nan i, .nan j => i == j
  | _, _ => false

mutual

def Value.equal : Value → Value → Bool
  | .list xs, .list ys => Value.equalLists xs ys
  | a, b => Value.equalAtoms a b

def Value.equalLists : List Value → List Value → Bool
  | [], [] => true
  | x :: xs, y :: ys => (Value.sameNaN x y || Value.equal x y) && Value.equalLists xs ys
  | _, _ => false

end

/-- Equality of the elements of lists and of the keys of bindings. -/
def Value.same (a b : Value) : Bool := Value.sameNaN a b || Value.equal a b

/-- Whether a value can be a key of bindings: lists can not. -/
def Value.isKey : Value → Bool
  | .list _ => false
  | _ => true

def Comparison.symbol : Comparison → String
  | .less => "<"
  | .greater => ">"
  | .atMost => "<="
  | .atLeast => ">="

/-- Whether the relation holds between things that stand in this order; it never does between
things that have none. -/
def Comparison.admits : Comparison → Option Ordering → Bool
  | _, none => false
  | .less, some o => o == .lt
  | .greater, some o => o == .gt
  | .atMost, some o => o != .gt
  | .atLeast, some o => o != .lt

/-- Two values without an order, by the names of their types. -/
structure Unordered where
  relation : Comparison
  left : String
  right : String
  deriving DecidableEq, Repr

def Comparison.holdsAtoms (relation : Comparison) (a b : Value) : Except Unordered Bool :=
  match a, b with
  | .str s, .str t => .ok (relation.admits (some (compare s t)))
  | a, b =>
      match a.number?, b.number? with
      | some m, some n => .ok (relation.admits (m.compare? n))
      | _, _ => .error ⟨relation, a.typeName, b.typeName⟩

mutual

def Comparison.holds (relation : Comparison) : Value → Value → Except Unordered Bool
  | .list xs, .list ys => relation.holdsLists xs ys
  | a, b => relation.holdsAtoms a b

/-- The first elements that are not the same decide; if there are none, the lengths do. -/
def Comparison.holdsLists (relation : Comparison) :
    List Value → List Value → Except Unordered Bool
  | [], [] => .ok (relation.admits (some .eq))
  | [], _ :: _ => .ok (relation.admits (some .lt))
  | _ :: _, [] => .ok (relation.admits (some .gt))
  | x :: xs, y :: ys => if x.same y then relation.holdsLists xs ys else relation.holds x y

end

/-! How many comparisons stand inside each other, the outermost one counted. -/

namespace Value

mutual

/-- Lists of different lengths are not equal at once. -/
def equalNesting : Value → Value → Nat
  | .list xs, .list ys => if xs.length = ys.length then equalNestingLists xs ys + 1 else 1
  | _, _ => 1

/-- Elements are compared up to the first that are not the same. -/
def equalNestingLists : List Value → List Value → Nat
  | x :: xs, y :: ys => max (x.equalNesting y) (if x.same y then equalNestingLists xs ys else 0)
  | _, _ => 0

end

mutual

def orderNesting : Value → Value → Nat
  | .list xs, .list ys => orderNestingLists xs ys + 1
  | _, _ => 1

/-- The first elements that are not the same are compared once more, for their order. -/
def orderNestingLists : List Value → List Value → Nat
  | x :: xs, y :: ys =>
      max (x.equalNesting y) (if x.same y then orderNestingLists xs ys else x.orderNesting y)
  | _, _ => 0

end

end Value

/-- How many comparisons the stack has room for. Parts that two values share count as any
others. -/
def comparisonLimit : Nat := 1000

namespace Value

theorem same_sym_right (name : String) (v : Value) :
    same v (.sym name) = true ↔ v = .sym name := by
  cases v <;> simp [same, sameNaN, equal, equalAtoms, number?]

end Value

end ThunkLisp
