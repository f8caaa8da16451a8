import ThunkLisp.Proofs.RunRules
import ThunkLisp.Proofs.Runs

/-!
Guarded runs. They are runs in which some primitives refuse some arguments: a refused application
fails. If nothing is refused, a guarded run is a plain one.
-/

namespace ThunkLisp

open Machine (effect)

def Guarded (_refuses : Primitive → List Value → Bool) (α : Type) : Type := Run α

namespace Guarded

variable {refuses : Primitive → List Value → Bool} {α β : Type}

instance : Monad (Guarded refuses) := inferInstanceAs (Monad Run)

instance : LawfulMonad (Guarded refuses) := inferInstanceAs (LawfulMonad Run)

def on (computation : Guarded refuses α) (store : Store) : Except Failure α × Store :=
  Run.on computation store

def primitive (p : Primitive) (given : List Value) (doing : Guarded refuses Value) :
    Guarded refuses Value :=
  match refuses p given with
  | true => (throw (.notApplicable (.primitive p)) : Run Value)
  | false => doing

instance : Machine (Guarded refuses) where
  effect computation := computation
  duringTask _ doing := doing
  duringPrimitive := primitive

theorem on_pure (value : α) (store : Store) :
    (pure value : Guarded refuses α).on store = (.ok value, store) := rfl

theorem on_bind (first : Guarded refuses α) (next : α → Guarded refuses β) (store : Store) :
    (first >>= next).on store =
      match first.on store with
      | (.ok value, after) => (next value).on after
      | (.error failure, after) => (.error failure, after) :=
  Run.on_bind first next store

theorem on_effect (computation : Run α) (store : Store) :
    (effect computation : Guarded refuses α).on store = computation.on store := rfl

theorem on_duringPrimitive (p : Primitive) (given : List Value) (doing : Guarded refuses Value)
    (store : Store) :
    (Machine.duringPrimitive p given doing : Guarded refuses Value).on store =
      match refuses p given with
      | true => (.error (.notApplicable (.primitive p)), store)
      | false => doing.on store := by
  change on (primitive p given doing) store = _
  unfold primitive
  cases refuses p given <;> rfl

end Guarded

/-! Values that are there. -/

namespace Inner

variable {refuses : Primitive → List Value → Bool} (inner : Inner (Guarded refuses))

theorem concrete_of_present {v : Value} (present : v.isThunk = false) :
    inner.concrete v = pure v := by
  cases v with
  | thunk id => cases present
  | _ => rfl

theorem concreteAll_of_present (given : List Value) (present : ∀ v ∈ given, v.isThunk = false) :
    inner.concreteAll given = pure given := by
  induction given with
  | nil => rfl
  | cons v rest ih =>
      have behind := ih fun v member => present v (by simp [member])
      rw [concreteAll, inner.concrete_of_present (present v (by simp)), behind]
      rfl

end Inner

/-! The rules of evaluation, by the shape of the code. -/

namespace Evaluator

variable {refuses : Primitive → List Value → Bool} (evaluator : Evaluator)
  (stack : Stack (Guarded refuses))

theorem evaluate_constant (v : Value) (frame : FrameId) (itself : v.isSelfEvaluating = true) :
    evaluator.evaluate stack v frame = pure v := by
  have unnamed : ∀ name, v ≠ .sym name := by
    rintro name rfl
    cases itself
  rw [evaluate_of_unnamed evaluator stack v frame unnamed, itself]
  rfl

theorem evaluate_form (name : String) (form : Form) (operands : List Value) (frame : FrameId)
    (found : evaluator.forms.find? name = some form) :
    evaluator.evaluate stack (.list (.sym name :: operands)) frame =
      form.run (stack.above form.calls) frame operands :=
  combination_form evaluator stack name form operands frame found

theorem evaluate_application (head : Value) (operands : List Value) (frame : FrameId)
    (ordinary : ∀ name, head = .sym name → evaluator.forms.find? name = none) :
    evaluator.evaluate stack (.list (head :: operands)) frame = (do
      let fn ← (stack 0).evaluate head frame
      let given ← evaluator.strategy.arguments
        (stack.above (evaluator.strategy.calls fn operands)) fn frame operands
      apply evaluator.added (stack.above appliedCalls) fn given) :=
  combination_application evaluator stack head operands frame ordinary

end Evaluator

def refusesNothing (_p : Primitive) (_given : List Value) : Bool := false

end ThunkLisp
