import ThunkLisp.Run

/-!
The two tasks of an evaluator: to evaluate code in a frame and to force a suspension. Each rule of
evaluation says how one task is done, given a way to do the tasks inside it. The rules leave open
what they run on, as long as it has the effects of `Run`, so that a run may also be watched. A task
has a place on the stack of calls, and so has every call between it and the task around it.
-/

namespace ThunkLisp

inductive Task where
  | evaluate (code : Value) (frame : FrameId)
  | force (thunk : ThunkId)

/-- What evaluation runs on. It has the effects of `Run`, and may look on when a task is done or a
primitive is applied to arguments. -/
class Machine (m : Type → Type) [Monad m] where
  effect {α : Type} (computation : Run α) : m α
  duringTask (task : Task) (doing : m Value) : m Value
  duringPrimitive (p : Primitive) (given : List Value) (doing : m Value) : m Value

/-- A plain run looks on at nothing. -/
instance : Machine Run where
  effect computation := computation
  duringTask _ doing := doing
  duringPrimitive _ _ doing := doing

open Machine (effect)

variable {m : Type → Type} [Monad m] [Machine m]

/-- A way to do the tasks inside a task. -/
abbrev Inner (m : Type → Type) := Task → m Value

namespace Inner

def evaluate (inner : Inner m) (code : Value) (frame : FrameId) : m Value :=
  inner (.evaluate code frame)

/-- The value behind a value, which for a suspension is the value that forcing it gives. -/
def concrete (inner : Inner m) : Value → m Value
  | .thunk id => inner (.force id)
  | value => return value

def concreteAll (inner : Inner m) : List Value → m (List Value)
  | [] => return []
  | value :: rest => do
      let first ← inner.concrete value
      return first :: (← inner.concreteAll rest)

def evaluateAll (inner : Inner m) (frame : FrameId) : List Value → m (List Value)
  | [] => return []
  | code :: rest => do
      let first ← inner.evaluate code frame
      return first :: (← inner.evaluateAll frame rest)

/-- The value of the last code of a sequence, after all before it; nil if there is none. -/
def sequence (inner : Inner m) (frame : FrameId) : List Value → m Value
  | [] => return .nil
  | [code] => inner.evaluate code frame
  | code :: next :: rest => do
      let _ ← inner.evaluate code frame
      inner.sequence frame (next :: rest)

/-- Forces a suspension: evaluates its code in its frame, unless its value has been kept. A value
is kept only when it is there, so a failure leaves the suspension as it was. -/
def force (inner : Inner m) (id : ThunkId) : m Value := do
  match ← effect (Run.read fun store => store.thunk id) with
  | .settled value => return value
  | .waiting code frame kept =>
      let value ← inner.concrete (← inner.evaluate code frame)
      if kept then effect (Run.change fun store => store.settle id value)
      return value

end Inner

/-! The stack. -/

/-- The calls by which a rule asks for a task, before the task itself: an evaluation is asked for
through the evaluator as a function, a force in the loop that looks behind suspensions. -/
def Task.calls : Task → Nat
  | .evaluate .. => 2
  | .force _ => 1

/-- Ways to do the tasks inside a task, by the number of calls in between. -/
abbrev Stack (m : Type → Type) := Nat → Inner m

/-- The tasks inside a rule that some calls lead to. -/
def Stack.above (stack : Stack m) (calls : Nat) : Inner m := fun task =>
  stack (calls + task.calls) task

end ThunkLisp
