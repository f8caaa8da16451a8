import ThunkLisp.Application
import ThunkLisp.Form

/-!
The evaluator. One step says how a task is done in terms of the tasks inside it, and how many calls
lead to each of these; a run nests steps as long as the stack has room for the calls, and fails
beyond that.
-/

namespace ThunkLisp

open Machine (effect)

variable {m : Type → Type} [Monad m] [Machine m]

structure Evaluator where
  forms : FormTable
  strategy : Strategy
  added : AddedActions

/-- How many calls the stack has room for. -/
def evaluationLimit : Nat := 1000

namespace Evaluator

/-- A use of a variable forces its value, and a suspended mark of an unassigned variable is refused
like a plain one. -/
def evaluateVariable (inner : Inner m) (name : String) (frame : FrameId) : m Value := do
  match ← effect (Scope.lookup frame (.sym name)) with
  | .thunk id => do
      let value ← inner (.force id)
      effect (Scope.checkAssigned frame (.sym name) value)
  | value => return value

def form? (evaluator : Evaluator) : Value → Option Form
  | .sym name => evaluator.forms.find? name
  | _ => none

/-- The head of an application is evaluated without any call in between. -/
def evaluateCombination (evaluator : Evaluator) (stack : Stack m) (head : Value)
    (operands : List Value) (frame : FrameId) : m Value :=
  match evaluator.form? head with
  | some form => form.run (stack.above form.calls) frame operands
  | none => do
      let fn ← (stack 0).evaluate head frame
      let given ← evaluator.strategy.arguments
        (stack.above (evaluator.strategy.calls fn operands)) fn frame operands
      apply evaluator.added (stack.above appliedCalls) fn given

def splitCombination : Value → Except Failure (Value × List Value)
  | .list (head :: operands) => .ok (head, operands)
  | code => .error (.malformed (.notAnExpression code))

def evaluate (evaluator : Evaluator) (stack : Stack m) (code : Value) (frame : FrameId) :
    m Value :=
  match code with
  | .sym name => evaluateVariable (stack 0) name frame
  | code => do
      if code.isSelfEvaluating then return code
      let (head, operands) ← effect (Run.ofExcept (splitCombination code))
      evaluator.evaluateCombination stack head operands frame

/-- Does a task, given ways to do the tasks inside it. -/
def step (evaluator : Evaluator) (stack : Stack m) : Task → m Value
  | .evaluate code frame => evaluator.evaluate stack code frame
  | .force id => (stack.above 0).force id

/-- Does a task after some calls. The calls, the task and the calls inside it may be `limit` at
most. -/
def stack (evaluator : Evaluator) : Nat → Stack m
  | 0, _, _ => effect (throw .recursion)
  | limit + 1, 0, task => Machine.duringTask task (evaluator.step (evaluator.stack limit) task)
  | limit + 1, calls + 1, task => evaluator.stack limit calls task

/-- Does a task with at most `limit` calls inside each other, the task counted. -/
def run (evaluator : Evaluator) (limit : Nat) (task : Task) : m Value :=
  evaluator.stack limit 0 task

theorem stack_eq_run (evaluator : Evaluator) (limit calls : Nat) :
    (evaluator.stack limit calls : Inner m) = evaluator.run (limit - calls) := by
  induction limit generalizing calls with
  | zero =>
      rw [Nat.zero_sub]
      cases calls <;> rfl
  | succ limit ih =>
      cases calls with
      | zero => rfl
      | succ calls =>
          rw [Nat.add_sub_add_right]
          exact ih calls

theorem above_stack (evaluator : Evaluator) (limit calls : Nat) (task : Task) :
    (evaluator.stack limit).above calls task =
      (evaluator.run (limit - (calls + task.calls)) task : m Value) :=
  congrFun (evaluator.stack_eq_run limit _) task

theorem evaluate_above (evaluator : Evaluator) (limit calls : Nat) (code : Value)
    (frame : FrameId) : ((evaluator.stack limit).above calls : Inner m).evaluate code frame =
      evaluator.run (limit - (calls + 2)) (.evaluate code frame) :=
  evaluator.above_stack limit calls _

def withForms (evaluator : Evaluator) (forms : List (String × Form)) : Evaluator :=
  { evaluator with
    forms := forms.foldl (fun table entry => table.put entry.1 entry.2) evaluator.forms }

def text (evaluator : Evaluator) : String :=
  "<Evaluator " ++ evaluator.strategy.text ++ " forms=" ++ intText evaluator.forms.length ++ ">"

end Evaluator

end ThunkLisp
