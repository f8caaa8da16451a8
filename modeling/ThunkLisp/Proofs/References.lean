import ThunkLisp.Proofs.Code
import ThunkLisp.Store

/-!
References. Values refer to frames and suspensions: a procedure to the frame that it was made in, a
list to whatever its items refer to, and code to whatever is embedded in it. Frames and suspensions
hold such values in turn. What can be reached is what these references lead to from some roots.
-/

namespace ThunkLisp

open Value (Every)

/-- What a value may refer to: a frame, a suspension, or what an added primitive does. -/
inductive Ref where
  | frame (id : FrameId)
  | thunk (id : ThunkId)
  | action (name : String)

def Operation.refs : Operation → List Ref
  | .added name => [.action name]
  | _ => []

namespace Value

mutual

/-- What the value refers to, also in code that a procedure has. -/
def refs : Value → List Ref
  | .procedure _ _ body frame => .frame frame :: refsOf body
  | .thunk id => [.thunk id]
  | .primitive p => p.operation.refs
  | .list items => refsOf items
  | _ => []

def refsOf : List Value → List Ref
  | [] => []
  | v :: rest => v.refs ++ refsOf rest

end

theorem mem_refsOf (ref : Ref) (items : List Value) : ref ∈ refsOf items ↔
    ∃ v ∈ items, ref ∈ v.refs := by
  induction items with
  | nil => simp [refsOf]
  | cons v rest ih => simp [refsOf, ih]

theorem every_refs_iff (p : Ref → Prop) (v : Value) :
    Every (fun leaf => ∀ ref ∈ leaf.refs, p ref) v ↔ ∀ ref ∈ v.refs, p ref := by
  induction v using tree_induction with
  | leaf v flat => exact every_of_flat flat
  | list items ih =>
      rw [every_list, refs]
      constructor
      · intro each ref member
        obtain ⟨v, inside, member⟩ := (mem_refsOf ref items).mp member
        exact (ih v inside).mp (each v inside) ref member
      · intro all v inside
        exact (ih v inside).mpr fun ref member => all ref
          ((mem_refsOf ref items).mpr ⟨v, inside, member⟩)

end Value

/-- A frame leads to the frame around it and to what its variables are bound to. -/
def Frame.refs (frame : Frame) : List Ref :=
  (frame.outer.map Ref.frame).toList ++ frame.bindings.flatMap fun entry => entry.2.refs

def Suspension.refs : Suspension → List Ref
  | .waiting code frame _ => .frame frame :: code.refs
  | .settled v => v.refs

namespace Store

def refs (store : Store) : Ref → List Ref
  | .frame id => (store.frame id).refs
  | .thunk id => (store.thunk id).refs
  | .action _ => []

/-- Actions are not in a store, so none is missing there. -/
def Has (store : Store) : Ref → Prop
  | .frame id => id < store.frames.size
  | .thunk id => id < store.thunks.size
  | .action _ => True

def Creates (before after : Store) (ref : Ref) : Prop := ¬ before.Has ref ∧ after.Has ref

/-- What references lead to from the roots. -/
inductive Reachable (store : Store) (roots : List Ref) : Ref → Prop where
  | root {ref : Ref} (member : ref ∈ roots) : Reachable store roots ref
  | next {near ref : Ref} (reachable : Reachable store roots near)
      (member : ref ∈ store.refs near) :
      Reachable store roots ref

/-- A property of the roots that references carry on holds of everything that can be reached. -/
theorem Reachable.least {store : Store} {roots : List Ref} {keep : Ref → Prop}
    (start : ∀ ref ∈ roots, keep ref) (closed : ∀ near, keep near →
      ∀ ref ∈ store.refs near, keep ref)
    {ref : Ref} (reachable : store.Reachable roots ref) : keep ref := by
  induction reachable with
  | root member => exact start _ member
  | next _ member ih => exact closed _ ih _ member

end Store

end ThunkLisp
