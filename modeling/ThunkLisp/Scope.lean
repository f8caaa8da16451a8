import ThunkLisp.Run

/-!
Variables: defining them in a frame, assigning and looking up the nearest visible binding. A
lookup refuses the mark of an unassigned variable if the frame that it starts from checks for it.
-/

namespace ThunkLisp.Scope

def locate (frame : FrameId) (name : Value) : Run (Option FrameId) :=
  if name.isKey then Run.read fun store => store.find? frame name
  else throw (.operand (.notAKey name.typeName))

/-- Binds a symbol in this frame, whatever is bound around it. -/
def define (frame : FrameId) (name value : Value) : Run Value := do
  if name.isSymbol then
    Run.change fun store => store.bind frame name value
    return name
  else throw (.malformed (.notASymbol name))

/-- Defines the names in order, up to the first that is no symbol. -/
def defineAll (frame : FrameId) : Bindings → Run Unit
  | [] => return
  | entry :: rest => do
      let _ ← define frame entry.1 entry.2
      defineAll frame rest

/-- Gives the nearest visible binding of the name a new value. -/
def assign (frame : FrameId) (name value : Value) : Run Value := do
  match ← locate frame name with
  | none => throw (.unboundTarget name)
  | some owner =>
      Run.change fun store => store.bind owner name value
      return name

def checkAssigned (frame : FrameId) (name value : Value) : Run Value := do
  let checked ← Run.read fun store => (store.frame frame).checked
  match value with
  | .unassigned => if checked then throw (.unassigned name) else return value
  | _ => return value

def lookup (frame : FrameId) (name : Value) : Run Value := do
  match ← locate frame name with
  | none => throw (.unbound name)
  | some owner =>
      let value ← Run.read fun store => ((store.frame owner).bindings.find? name).getD .nil
      checkAssigned frame name value

end ThunkLisp.Scope
