import ThunkLisp.Proofs.Operations
import ThunkLisp.Proofs.StoreSound

/-!
A store with other code in one suspension. Every effect of evaluation but forcing that suspension
does the same to both stores.
-/

namespace ThunkLisp

def Suspension.recode (code : Value) : Suspension → Suspension
  | .waiting _ frame kept => .waiting code frame kept
  | .settled v => .settled v

namespace Store

def recode (store : Store) (id : ThunkId) (code : Value) : Store :=
  { store with thunks := store.thunks.modify id (Suspension.recode code) }

theorem chain_of_frames {store after : Store} (same : after.frames = store.frames)
    (frame : FrameId) :
    after.chain frame = store.chain frame := by
  induction frame using Nat.strongRecOn with
  | ind frame ih =>
      have here : after.frame frame = store.frame frame := by simp [Store.frame, same]
      rw [Store.chain, Store.chain, here]
      cases (store.frame frame).outer with
      | none => rfl
      | some next =>
          by_cases less : next < frame
          · simp only [less, if_true]
            rw [ih next less]
          · simp only [less, if_false]

theorem find?_of_frames {store after : Store} (same : after.frames = store.frames) (frame : FrameId)
    (name : Value) : after.find? frame name = store.find? frame name := by
  have here (id : FrameId) : after.frame id = store.frame id := by simp [Store.frame, same]
  simp only [find?, chain_of_frames same, here]

theorem bound?_of_frames {store after : Store} (same : after.frames = store.frames)
    (frame : FrameId) (name : String) : after.bound? frame name = store.bound? frame name := by
  have here (id : FrameId) : after.frame id = store.frame id := by simp [Store.frame, same]
  simp only [bound?, find?_of_frames same, here]

variable (store : Store) (id : ThunkId) (code : Value)

theorem recode_getElem?_of_ne (other : ThunkId) (different : other ≠ id) :
    (store.recode id code).thunks[other]? = store.thunks[other]? := by
  simp [recode, Array.getElem?_modify, Ne.symm different]

theorem recode_thunk_of_ne (other : ThunkId) (different : other ≠ id) :
    (store.recode id code).thunk other = store.thunk other := by
  simp only [thunk, Array.getD_eq_getD_getElem?, store.recode_getElem?_of_ne id code other
    different]

theorem recode_addThunk (new : Value) (frame : FrameId) (kept : Bool)
    (present : id < store.thunks.size) :
    (store.recode id code).addThunk new frame kept =
      ((store.addThunk new frame kept).1, (store.addThunk new frame kept).2.recode id code) := by
  have thunks : (store.thunks.modify id (Suspension.recode code)).push (.waiting new frame kept) =
      (store.thunks.push (.waiting new frame kept)).modify id (Suspension.recode code) := by
    refine Array.ext (by simp) fun i less less' => ?_
    by_cases last : i = store.thunks.size
    · subst last
      simp [Array.getElem_push, Array.getElem_modify, Nat.ne_of_lt present]
    · have inside : i < store.thunks.size := by
        simp only [Array.size_push, Array.size_modify] at less
        omega
      simp [Array.getElem_push, Array.getElem_modify, inside]
  simp [addThunk, recode, thunks]

theorem recode_settle (other : ThunkId) (v : Value) (different : other ≠ id) :
    (store.recode id code).settle other v = (store.settle other v).recode id code := by
  have thunks : (store.thunks.modify id (Suspension.recode code)).setIfInBounds other (.settled v) =
      (store.thunks.setIfInBounds other (.settled v)).modify id (Suspension.recode code) := by
    refine Array.ext_getElem? fun i => ?_
    by_cases here : other = i
    · subst here
      simp [Array.getElem?_modify, Array.getElem?_setIfInBounds, Ne.symm different]
    · simp [Array.getElem?_modify, here]
  simp only [settle, recode, Array.set!_eq_setIfInBounds, thunks]

theorem clear_recode : Clear fun store => store.recode id code :=
  ⟨fun _ => rfl, fun _ => rfl, fun _ _ _ => rfl⟩

end Store

namespace Policy

def view (policy : Policy) (store : Store) : Store :=
  match policy.hidden with
  | none => store
  | some (id, code) => store.recode id code

variable (policy : Policy) (store : Store)

theorem clear_view : Clear policy.view := by
  cases hidden : policy.hidden with
  | none =>
      have same : policy.view = fun store => store := funext fun store => by simp [view, hidden]
      exact same ▸ ⟨fun _ => rfl, fun _ => rfl, fun _ _ _ => rfl⟩
  | some entry =>
      have same : policy.view = fun store => store.recode entry.1 entry.2 :=
        funext fun store => by simp [view, hidden]
      exact same ▸ Store.clear_recode entry.1 entry.2

theorem view_frames : (policy.view store).frames = store.frames := by
  unfold view
  split <;> rfl

theorem view_bind (frame : FrameId) (name v : Value) :
    (policy.view store).bind frame name v = policy.view (store.bind frame name v) := by
  unfold view
  split <;> rfl

theorem view_extend (frame : FrameId) (bindings : Bindings) :
    (policy.view store).extend frame bindings =
      ((store.extend frame bindings).1, policy.view (store.extend frame bindings).2) := by
  unfold view
  split <;> rfl

theorem view_thunk (id : ThunkId) (used : ¬ policy.Hides id) :
    (policy.view store).thunk id = store.thunk id := by
  unfold view
  split
  · rfl
  · next other code hidden =>
      refine store.recode_thunk_of_ne other code id fun same => used ⟨code, ?_⟩
      rw [same, hidden]

theorem view_addThunk (code : Value) (frame : FrameId) (kept : Bool)
    (present : ∀ id, policy.Hides id → id < store.thunks.size) :
    (policy.view store).addThunk code frame kept =
      ((store.addThunk code frame kept).1, policy.view (store.addThunk code frame kept).2) := by
  unfold view
  split
  · rfl
  · next id other hidden =>
      exact store.recode_addThunk id other code frame kept (present id ⟨other, hidden⟩)

theorem view_settle (id : ThunkId) (v : Value) (used : ¬ policy.Hides id) :
    (policy.view store).settle id v = policy.view (store.settle id v) := by
  unfold view
  split
  · rfl
  · next other code hidden =>
      refine store.recode_settle other code id v fun same => used ⟨code, ?_⟩
      rw [same, hidden]

end Policy

end ThunkLisp
