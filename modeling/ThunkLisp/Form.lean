import ThunkLisp.Derived
import ThunkLisp.Parameters
import ThunkLisp.Scope
import ThunkLisp.Task

/-!
Special forms: the rules for combinations whose operands are not simply evaluated.
-/

namespace ThunkLisp

inductive Form where
  | quote
  | assign
  | define
  | conditional
  | procedure
  | sequence
  | derived (form : Derived)
  /-- gives a fixed value and evaluates nothing -/
  | constant (value : Value)

open Machine (effect)

variable {m : Type → Type} [Monad m] [Machine m]

namespace Form

def makeProcedure (spec : Value) (body : List Value) (frame : FrameId) : Run Value := do
  match parseParams spec with
  | .error fault => throw (.malformed fault)
  | .ok params => return .procedure (← Run.make Store.takeIdentity) params body frame

def runAssign (inner : Inner m) (frame : FrameId) : List Value → m Value
  | [.sym name, code] => do
      let value ← inner.evaluate code frame
      effect (Scope.assign frame (.sym name) value)
  | [target, _] => effect (throw (.malformed (.setTarget target)))
  | _ => effect (throw (.malformed .setOperands))

def runDefine (inner : Inner m) (frame : FrameId) : List Value → m Value
  | [] => effect (throw (.malformed .defineOperands))
  | [.sym name, code] => do
      let value ← inner.evaluate code frame
      effect (Scope.define frame (.sym name) value)
  | .sym _ :: _ => effect (throw (.malformed .defineValue))
  | .list (.sym name :: params) :: body => do
      let procedure ← effect (makeProcedure (.list params) body frame)
      effect (Scope.define frame (.sym name) procedure)
  | target :: _ => effect (throw (.malformed (.defineTarget target)))

/-- The test is forced, since whether it is true needs its value; the branches are not. -/
def runConditional (inner : Inner m) (frame : FrameId) : List Value → m Value
  | [test, usual] => do
      let decided ← inner.concrete (← inner.evaluate test frame)
      if decided.isTrue then inner.evaluate usual frame else return .nil
  | [test, usual, otherwise] => do
      let decided ← inner.concrete (← inner.evaluate test frame)
      if decided.isTrue then inner.evaluate usual frame else inner.evaluate otherwise frame
  | _ => effect (throw (.malformed .ifOperands))

def run (inner : Inner m) (frame : FrameId) : Form → List Value → m Value
  | .quote, [datum] => return datum
  | .quote, _ => effect (throw (.malformed .quoteOperands))
  | .assign, operands => runAssign inner frame operands
  | .define, operands => runDefine inner frame operands
  | .conditional, operands => runConditional inner frame operands
  | .procedure, [] => effect (throw (.malformed .lambdaOperands))
  | .procedure, spec :: body => effect (makeProcedure spec body frame)
  | .sequence, operands => inner.sequence frame operands
  | .derived form, operands => do
      let code ← effect (Run.ofExcept (form.expand operands))
      inner.evaluate code frame
  | .constant value, _ => return value

/-- The calls from a combination to the rule of its form: one, and one more to a sequence. -/
def calls : Form → Nat
  | .sequence => 2
  | _ => 1

end Form

/-! Tables of special forms. -/

abbrev FormTable := List (String × Form)

namespace FormTable

def find? (table : FormTable) (name : String) : Option Form :=
  (List.find? (fun entry => entry.1 == name) table).map (·.2)

/-- Adds a form, in the place of one of that name. -/
def put (table : FormTable) (name : String) (form : Form) : FormTable :=
  match table with
  | [] => [(name, form)]
  | entry :: rest =>
      if entry.1 == name then (name, form) :: rest else entry :: put rest name form

/-- The forms that the others expand into, and `cond`. -/
def core : FormTable :=
  [("quote", .quote), ("set!", .assign), ("define", .define), ("if", .conditional),
   ("lambda", .procedure), ("begin", .sequence), ("cond", .derived .cond)]

def full : FormTable :=
  core ++
    [("and", .derived .conjunction), ("or", .derived .disjunction),
     ("unless", .derived .unless), ("let", .derived .namedLet),
     ("let*", .derived .letStar), ("letrec", .derived .letrec)]

end FormTable

end ThunkLisp
