import ThunkLisp.Proofs.Recording

/-!
The rules of runs, as equations by the shape of the code. A task takes a place on the stack, and so
do the calls to what is inside it, which is run with the room that is left. A recorded run has the
events of the task around all that.
-/

namespace ThunkLisp

namespace Evaluator

section Combinations

variable {m : Type → Type} [Monad m] [Machine m] (evaluator : Evaluator) (stack : Stack m)

theorem evaluate_stack (limit : Nat) (code : Value) (frame : FrameId) :
    (evaluator.stack limit 0 : Inner m).evaluate code frame =
      evaluator.run limit (.evaluate code frame) := rfl

theorem combination_form (name : String) (form : Form) (operands : List Value) (frame : FrameId)
    (found : evaluator.forms.find? name = some form) :
    evaluator.evaluateCombination stack (.sym name) operands frame =
      form.run (stack.above form.calls) frame operands := by
  simp only [evaluateCombination, form?, found]

theorem combination_application (head : Value) (operands : List Value) (frame : FrameId)
    (ordinary : ∀ name, head = .sym name → evaluator.forms.find? name = none) :
    evaluator.evaluateCombination stack head operands frame = (do
      let fn ← (stack 0).evaluate head frame
      let given ← evaluator.strategy.arguments
        (stack.above (evaluator.strategy.calls fn operands)) fn frame operands
      apply evaluator.added (stack.above appliedCalls) fn given) := by
  have formless : evaluator.form? head = none := by
    unfold form?
    split
    · exact ordinary _ rfl
    · rfl
  simp only [evaluateCombination, formless]

theorem evaluateAll_above (limit calls : Nat) (frame : FrameId) (codes : List Value) :
    Inner.evaluateAll ((evaluator.stack limit).above calls : Inner m) frame codes =
      Inner.evaluateAll (evaluator.run (limit - (calls + 2))) frame codes := by
  induction codes with
  | nil => rfl
  | cons code rest ih =>
      rw [Inner.evaluateAll, Inner.evaluateAll, ih, evaluate_above]
      rfl

theorem sequence_above (limit calls : Nat) (frame : FrameId) (codes : List Value) :
    Inner.sequence ((evaluator.stack limit).above calls : Inner m) frame codes =
      Inner.sequence (evaluator.run (limit - (calls + 2))) frame codes := by
  induction codes with
  | nil => rfl
  | cons code rest ih =>
      cases rest with
      | nil => exact evaluator.evaluate_above limit calls code frame
      | cons next behind =>
          rw [Inner.sequence, Inner.sequence, ih, evaluate_above]
          rfl

end Combinations

/-! Plain runs. -/

section Plain

variable (evaluator : Evaluator) (limit : Nat) (frame : FrameId)

theorem run_combination (head : Value) (operands : List Value) :
    (evaluator.run (limit + 1) (.evaluate (.list (head :: operands)) frame) : Run Value) =
      evaluator.evaluateCombination (evaluator.stack limit : Stack Run) head operands frame := rfl

theorem run_form (name : String) (form : Form) (operands : List Value)
    (found : evaluator.forms.find? name = some form) :
    (evaluator.run (limit + 1) (.evaluate (.list (.sym name :: operands)) frame) : Run Value) =
      form.run ((evaluator.stack limit : Stack Run).above form.calls) frame operands := by
  rw [run_combination, combination_form evaluator _ name form operands frame found]

/-- A derived form is its expansion, behind three calls. -/
theorem run_derived (name : String) (form : Derived) (operands : List Value) (code : Value)
    (found : evaluator.forms.find? name = some (.derived form))
    (expanded : form.expand operands = .ok code) :
    (evaluator.run (limit + 1) (.evaluate (.list (.sym name :: operands)) frame) : Run Value) =
      evaluator.run (limit - 3) (.evaluate code frame) := by
  rw [run_form evaluator limit frame name (.derived form) operands found]
  simp only [Form.run, expanded]
  exact evaluator.evaluate_above (m := Run) limit 1 code frame

theorem run_conditional (test usual otherwise : Value)
    (found : evaluator.forms.find? "if" = some .conditional) :
    (evaluator.run (limit + 1) (.evaluate (.list [.sym "if", test, usual, otherwise]) frame) :
      Run Value) =
      (do
        let v ← evaluator.run (limit - 3) (.evaluate test frame)
        let decided ← Inner.concrete (Stack.above (evaluator.stack limit) 1) v
        if decided.isTrue then evaluator.run (limit - 3) (.evaluate usual frame)
        else evaluator.run (limit - 3) (.evaluate otherwise frame)) := by
  rw [run_form evaluator limit frame "if" .conditional _ found]
  simp only [Form.run, Form.runConditional, evaluate_above]
  rfl

end Plain

/-! Recorded runs. -/

section Recordings

variable {evaluator : Evaluator} {limit : Nat} {frame : FrameId} {r s : Recording}
  {outcome : Except Failure Value}

theorem on_combination {head : Value} {operands : List Value}
    (did : (evaluator.evaluateCombination (evaluator.stack limit) head operands frame :
      Recorded Value).on
      (r.beginning (.evaluate (.list (head :: operands)) frame)) = (outcome, s)) :
    (evaluator.run (limit + 1) (.evaluate (.list (head :: operands)) frame) : Recorded Value).on r =
      (outcome, s.ending (.evaluate (.list (head :: operands)) frame) r.store outcome) := by
  change (Machine.duringTask (.evaluate (.list (head :: operands)) frame)
    (evaluator.evaluateCombination (evaluator.stack limit) head operands frame) : Recorded Value).on
      r = _
  rw [Recorded.on_duringTask, did]

theorem on_form {word : String} {form : Form} {operands : List Value}
    (found : evaluator.forms.find? word = some form)
    (did : (form.run ((evaluator.stack limit).above form.calls) frame operands : Recorded Value).on
      (r.beginning (.evaluate (.list (.sym word :: operands)) frame)) = (outcome, s)) :
    (evaluator.run (limit + 1) (.evaluate (.list (.sym word :: operands)) frame) :
      Recorded Value).on r =
      (outcome, s.ending (.evaluate (.list (.sym word :: operands)) frame) r.store outcome) := by
  refine on_combination ?_
  rw [combination_form evaluator _ word form operands frame found]
  exact did

theorem on_derived {word : String} {form : Derived} {operands : List Value} {code : Value}
    (found : evaluator.forms.find? word = some (.derived form))
    (expanded : form.expand operands = .ok code)
    (did : (evaluator.run (limit - 3) (.evaluate code frame) : Recorded Value).on
      (r.beginning (.evaluate (.list (.sym word :: operands)) frame)) = (outcome, s)) :
    (evaluator.run (limit + 1) (.evaluate (.list (.sym word :: operands)) frame) :
      Recorded Value).on r =
      (outcome, s.ending (.evaluate (.list (.sym word :: operands)) frame) r.store outcome) := by
  refine on_form found ?_
  simp only [Form.run, expanded]
  change (Inner.evaluate ((evaluator.stack limit).above 1) code frame : Recorded Value).on _ = _
  rw [evaluate_above]
  exact did

end Recordings

end Evaluator

end ThunkLisp
