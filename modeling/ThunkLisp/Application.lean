import ThunkLisp.Primitives
import ThunkLisp.Strategy
import ThunkLisp.Task

/-!
Application: how operands become arguments under each strategy, and how procedures and primitives
are applied to arguments. Only the arguments of procedures are ever suspended.
-/

namespace ThunkLisp

open Machine (effect)

variable {m : Type → Type} [Monad m] [Machine m]

def suspend (code : Value) (frame : FrameId) (kept : Bool) : Run Value := do
  return .thunk (← Run.make fun store => store.addThunk code frame kept)

def suspendAll (frame : FrameId) : List Value → Run (List Value)
  | [] => return []
  | code :: rest => do
      let first ← suspend code frame false
      return first :: (← suspendAll frame rest)

def argumentFor (inner : Inner m) (frame : FrameId) (mode : ParamMode) (code : Value) : m Value :=
  match mode with
  | .strict => inner.evaluate code frame
  | .lazy => effect (suspend code frame false)
  | .lazyMemo => effect (suspend code frame true)

def argumentsFor (inner : Inner m) (frame : FrameId) :
    List Param → List Value → m (List Value)
  | param :: params, code :: codes => do
      let first ← argumentFor inner frame param.mode code
      return first :: (← argumentsFor inner frame params codes)
  | _, _ => return []

/-- The arguments for a function. With a wrong number of operands the mixed strategy evaluates
them all, and the application fails. -/
def Strategy.arguments (strategy : Strategy) (inner : Inner m) (fn : Value) (frame : FrameId)
    (operands : List Value) : m (List Value) :=
  match strategy, fn with
  | .lazy, .procedure .. => effect (suspendAll frame operands)
  | .mixed, .procedure _ params _ _ =>
      if operands.length = params.length then argumentsFor inner frame params operands
      else inner.evaluateAll frame operands
  | _, _ => inner.evaluateAll frame operands

/-- The calls from an application to its operands: one, and one more where a strategy that may
suspend them falls back on evaluating them all. -/
def Strategy.calls (strategy : Strategy) (fn : Value) (operands : List Value) : Nat :=
  match strategy, fn with
  | .strict, _ => 1
  | .lazy, .procedure .. => 1
  | .mixed, .procedure _ params _ _ => if operands.length = params.length then 1 else 2
  | _, _ => 2

theorem Strategy.calls_of_length (strategy : Strategy) {params : List Param} {operands : List Value}
    (fits : operands.length = params.length) (identity : Nat) (body : List Value) (home : FrameId) :
    strategy.calls (.procedure identity params body home) operands = 1 := by
  cases strategy <;> simp [calls, fits]

def bindParams (params : List Param) (frame : FrameId) (given : List Value) : Run FrameId :=
  if given.length = params.length then
    Run.make fun store => store.extend frame ((params.map fun p => .sym p.name).zip given)
  else throw (.argumentCount params given.length)

/-- Applies a function to arguments. Primitives get the values behind theirs. -/
def apply (added : AddedActions) (inner : Inner m) (fn : Value) (given : List Value) : m Value :=
  match fn with
  | .procedure _ params body frame => do
      inner.sequence (← effect (bindParams params frame given)) body
  | .primitive p => do
      let values ← inner.concreteAll given
      Machine.duringPrimitive p values (effect (p.operation.run added values))
  | other => effect (throw (.notApplicable other))

/-- The calls from an application to the body of a procedure, or to the arguments of a primitive. -/
def appliedCalls : Nat := 3

end ThunkLisp
