import ThunkLisp.Bindings

/-!
The store of a session: numbered frames of bindings, numbered suspended computations, what has
been printed, and what added primitives have recorded. Frames and suspensions are only ever added;
a frame's outer frame is an earlier one, so every chain of frames ends.
-/

namespace ThunkLisp

structure Frame where
  bindings : Bindings := []
  outer : Option FrameId := none
  /-- whether a lookup from this frame refuses the mark of an unassigned variable -/
  checked : Bool := false

instance : Inhabited Frame := ⟨{}⟩

/-- A suspended computation. One that is kept drops its code and frame once it has a value. -/
inductive Suspension where
  | waiting (code : Value) (frame : FrameId) (kept : Bool)
  | settled (value : Value)

instance : Inhabited Suspension := ⟨.settled .nil⟩

structure Store where
  frames : Array Frame := #[]
  thunks : Array Suspension := #[]
  /-- the next identity to give out -/
  fresh : Nat := 1
  printed : String := ""
  log : List String := []

instance : Inhabited Store := ⟨{}⟩

namespace Store

/-- A number that is not in use stands for an empty frame. -/
def frame (store : Store) (id : FrameId) : Frame := store.frames.getD id {}

def thunk (store : Store) (id : ThunkId) : Suspension := store.thunks.getD id (.settled .nil)

/-- The frames visible from a frame, the innermost first. -/
def chain (store : Store) (id : FrameId) : List FrameId :=
  id :: match (store.frame id).outer with
    | none => []
    | some outer => if outer < id then store.chain outer else []
termination_by id

def find? (store : Store) (id : FrameId) (name : Value) : Option FrameId :=
  (store.chain id).find? fun frame => (store.frame frame).bindings.binds name

def depth (store : Store) (id : FrameId) : Nat := (store.chain id).length - 1

/-- A new frame. Unless told otherwise it checks for unassigned variables if its outer frame
does. -/
def addFrame (store : Store) (bindings : Bindings) (outer : Option FrameId)
    (checked : Option Bool) : FrameId × Store :=
  let inherited := match outer with
    | none => false
    | some id => (store.frame id).checked
  (store.frames.size,
    { store with frames := store.frames.push ⟨bindings, outer, checked.getD inherited⟩ })

def extend (store : Store) (id : FrameId) (bindings : Bindings) : FrameId × Store :=
  store.addFrame bindings (some id) none

def bind (store : Store) (id : FrameId) (name value : Value) : Store :=
  { store with
    frames := store.frames.modify id fun frame =>
      { frame with bindings := frame.bindings.put name value } }

def addThunk (store : Store) (code : Value) (frame : FrameId) (kept : Bool) : ThunkId × Store :=
  (store.thunks.size, { store with thunks := store.thunks.push (.waiting code frame kept) })

def settle (store : Store) (id : ThunkId) (value : Value) : Store :=
  { store with thunks := store.thunks.set! id (.settled value) }

def takeIdentity (store : Store) : Nat × Store :=
  (store.fresh, { store with fresh := store.fresh + 1 })

def print (store : Store) (text : String) : Store := { store with printed := store.printed ++ text }

def record (store : Store) (line : String) : Store := { store with log := store.log ++ [line] }

def quiet (store : Store) : Store := { store with printed := "", log := [] }

theorem frame_bind_self (store : Store) (id : FrameId) (name value : Value)
    (present : id < store.frames.size) :
    (store.bind id name value).frame id =
      { store.frame id with bindings := (store.frame id).bindings.put name value } := by
  simp [frame, bind, present, Array.getElem_modify]

theorem frame_bind_of_ne (store : Store) (id other : FrameId) (name value : Value)
    (different : other ≠ id) : (store.bind id name value).frame other = store.frame other := by
  simp [frame, bind, Array.getD_eq_getD_getElem?, Array.getElem?_modify, Ne.symm different]

theorem frame_addFrame_of_lt (store : Store) (bindings : Bindings) (outer : Option FrameId)
    (checked : Option Bool) (id : FrameId) (present : id < store.frames.size) :
    (store.addFrame bindings outer checked).2.frame id = store.frame id := by
  simp [frame, addFrame, Array.getD_eq_getD_getElem?, Array.getElem?_push, Nat.ne_of_lt present]

theorem thunk_settle (store : Store) (id other : ThunkId) (value : Value)
    (present : id < store.thunks.size) :
    (store.settle id value).thunk other =
      if other = id then .settled value else store.thunk other := by
  by_cases same : id = other
  · subst same
    simp [thunk, settle, Array.getD_eq_getD_getElem?, present]
  · simp [thunk, settle, Array.getD_eq_getD_getElem?, same, Ne.symm same]

end Store

end ThunkLisp
