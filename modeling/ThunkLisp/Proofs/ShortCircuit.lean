import Mathlib
import ThunkLisp.Proofs.Recording
import ThunkLisp.Proofs.RunRules

/-!
`and` and `or`. They look through their operands from left to right for one that decides the
outcome. The operand that is found stands in the expansion a second time, as the result, so its
second value is returned, and not the one that decided. The two agree exactly where the second
evaluation gives the same value and leaves the store as it is.
-/

namespace ThunkLisp

/-- How the search for a deciding operand ends: one that is not the last has decided, by its value,
and is nested so deep that this limit is left to it; or the last one is reached, which needs no
test. -/
inductive Decision where
  | early (operand : Value) (limit : Nat) (value : Value)
  | last (value : Value)

/-- The value of the evaluation that decided. -/
def Decision.value : Decision → Value
  | .early _ _ value => value
  | .last value => value

namespace Evaluator

/-- The operand that has decided is evaluated again. -/
def again (evaluator : Evaluator) (frame : FrameId) : Decision → Run Value
  | .early operand limit _ => evaluator.run limit (.evaluate operand frame)
  | .last value => return value

end Evaluator

end ThunkLisp
