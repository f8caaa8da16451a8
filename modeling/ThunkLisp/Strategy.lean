/-!
The three ways to pass arguments to procedures.
-/

namespace ThunkLisp

/-- Evaluated before the call, suspended until used, or as each parameter's mode decides. -/
inductive Strategy where
  | strict
  | lazy
  | mixed
  deriving DecidableEq, Repr

namespace Strategy

def text : Strategy → String
  | .strict => "strict"
  | .lazy => "lazy"
  | .mixed => "mixed"

def ofText? : String → Option Strategy
  | "strict" => some .strict
  | "lazy" => some .lazy
  | "mixed" => some .mixed
  | _ => none

theorem ofText?_text (strategy : Strategy) : ofText? strategy.text = some strategy := by
  cases strategy <;> rfl

end Strategy

end ThunkLisp
