import ThunkLisp.Evaluator
import ThunkLisp.Reader
import ThunkLisp.Settings

/-!
Sessions: an evaluator and a global frame, and the evaluation of source texts form by form. A
failure ends the evaluation of its text; what earlier forms have done stays.
-/

namespace ThunkLisp

open Machine (effect)

variable {m : Type → Type} [Monad m] [Machine m]

structure Session where
  evaluator : Evaluator
  globals : FrameId

/-- What a name is bound to in a new global frame: a value, or an added function, which becomes a
primitive of that name. -/
inductive Supply where
  | value (value : Value)
  | function (action : String)

structure Setup where
  names : SettingNames
  outside : Outside
  strategy? : Option String
  checked? : Option Bool
  supplies : List (Value × Supply)
  added : AddedActions
  prelude : String
  /-- how many calls the stack has room for -/
  limit : Nat := evaluationLimit

def defaultSupplies : List (Value × Supply) :=
  defaultPrimitives.map fun entry => (entry.1, .value entry.2)

/-- A new primitive. Without a name it has that of its action. -/
def newPrimitive (name : String) (action : String) : Run Value := do
  let identity ← Run.make Store.takeIdentity
  return .primitive ⟨if name.isEmpty then action else name, .added action, identity⟩

def suppliedBindings : List (Value × Supply) → Run Bindings
  | [] => return []
  | (name, .value value) :: rest => do return (name, value) :: (← suppliedBindings rest)
  | (name, .function action) :: rest => do
      let text ← Run.text fun store => store.displayed? name
      let primitive ← newPrimitive text action
      return (name, primitive) :: (← suppliedBindings rest)

def makeGlobals (supplies : List (Value × Supply)) (checked : Bool) : Run FrameId := do
  let globals ← Run.make fun store => store.addFrame [] none (some checked)
  let bindings ← suppliedBindings supplies
  Scope.defineAll globals bindings
  return globals

def Setup.strategy (setup : Setup) : Except Failure Strategy :=
  match setup.strategy? with
  | some name => Settings.parseStrategy name
  | none => Settings.defaultStrategy setup.names setup.outside

def Setup.checked (setup : Setup) : Except Failure Bool :=
  match setup.checked? with
  | some checked => .ok checked
  | none => Settings.defaultChecked setup.names setup.outside

namespace Session

def evaluateWithin (limit : Nat) (session : Session) (code : Value) : m Value :=
  session.evaluator.run limit (.evaluate code session.globals)

def evaluate (session : Session) (code : Value) : m Value :=
  session.evaluateWithin evaluationLimit code

/-- Evaluates codes in order and gives the last value, which for no code is the given one. -/
def evaluateForms (limit : Nat) (session : Session) (last : Value) : List Value → m Value
  | [] => return last
  | code :: rest => do
      session.evaluateForms limit (← session.evaluateWithin limit code) rest

/-- Evaluates the forms of a source text, all of which are read before the first is evaluated. -/
def evaluateTextWithin (limit : Nat) (session : Session) (source : String) : m Value := do
  session.evaluateForms limit .nil (← effect (Run.ofExcept (readAll source)))

def evaluateText (session : Session) (source : String) : m Value :=
  session.evaluateTextWithin evaluationLimit source

def start (setup : Setup) : m Session := do
  let strategy ← effect (Run.ofExcept setup.strategy)
  let checked ← effect (Run.ofExcept setup.checked)
  let globals ← effect (makeGlobals setup.supplies checked)
  let session : Session := ⟨⟨FormTable.full, strategy, setup.added⟩, globals⟩
  let _ ← session.evaluateTextWithin setup.limit setup.prelude
  return session

/-- Does tasks that the session is asked for from outside, after some calls. -/
def stack (session : Session) : Stack m := session.evaluator.stack evaluationLimit

def inner (session : Session) : Inner m := session.stack 0

def apply (session : Session) (fn : Value) (given : List Value) : m Value :=
  ThunkLisp.apply session.evaluator.added (session.stack.above appliedCalls) fn given

/-- The arguments that a strategy makes of operands for a function, in the global frame. -/
def arguments (session : Session) (strategy : Strategy) (fn : Value) (operands : List Value) :
    m (List Value) :=
  strategy.arguments (session.stack.above (strategy.calls fn operands)) fn session.globals operands

def define (session : Session) (name value : Value) : Run Value :=
  Scope.define session.globals name value

end Session

end ThunkLisp
