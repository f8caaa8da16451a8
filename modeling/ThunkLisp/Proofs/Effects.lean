import ThunkLisp.Application
import ThunkLisp.Scope

/-!
What the effects of evaluation do to a store: each gives its outcome and the store after it as an
equation, which the proofs use in place of the definitions.
-/

namespace ThunkLisp

/-! Bindings. -/

theorem Bindings.mem_of_find? {bindings : Bindings} {name : String} {v : Value}
    (found : bindings.find? (.sym name) = some v) : (.sym name, v) ∈ bindings := by
  simp only [find?, Option.map_eq_some_iff] at found
  obtain ⟨entry, first, rfl⟩ := found
  have matches_ := List.find?_some first
  have key := (Value.same_sym_right name entry.1).mp matches_
  exact key ▸ List.mem_of_find?_eq_some first

namespace Store

def bound? (store : Store) (frame : FrameId) (name : String) : Option Value :=
  (store.find? frame (.sym name)).bind fun owner =>
    (store.frame owner).bindings.find? (.sym name)

theorem bound?_eq_some (store : Store) (frame : FrameId) (name : String) (v : Value) :
    store.bound? frame name = some v ↔ ∃ owner, store.find? frame (.sym name) = some owner ∧
      (store.frame owner).bindings.find? (.sym name) = some v := by
  simp [bound?, Option.bind_eq_some_iff]

theorem mem_of_bound? {store : Store} {frame : FrameId} {name : String} {v : Value}
    (bound : store.bound? frame name = some v) :
    ∃ owner, store.find? frame (.sym name) = some owner ∧
      (.sym name, v) ∈ (store.frame owner).bindings := by
  obtain ⟨owner, near, found⟩ := (store.bound?_eq_some frame name v).mp bound
  exact ⟨owner, near, Bindings.mem_of_find? found⟩

theorem le_of_mem_chain (store : Store) (frame : FrameId) :
    ∀ owner ∈ store.chain frame, owner ≤ frame := by
  induction frame using Nat.strongRecOn with
  | ind frame ih =>
      intro owner member
      rw [chain] at member
      rcases List.mem_cons.mp member with rfl | around
      · exact Nat.le_refl _
      · split at around
        · cases around
        · next outer _ =>
            split at around
            · next less => exact Nat.le_of_lt (Nat.lt_of_le_of_lt (ih outer less owner around) less)
            · cases around

theorem find?_mem_chain (store : Store) (frame owner : FrameId) (name : Value)
    (found : store.find? frame name = some owner) : owner ∈ store.chain frame :=
  List.mem_of_find?_eq_some found

theorem find?_binds (store : Store) (frame owner : FrameId) (name : Value)
    (found : store.find? frame name = some owner) :
    (store.frame owner).bindings.binds name = true := by
  have holds := List.find?_some found
  exact holds

theorem thunk_of_getElem? {store : Store} {id : ThunkId} {suspension : Suspension}
    (found : store.thunks[id]? = some suspension) : store.thunk id = suspension := by
  simp [thunk, Array.getD_eq_getD_getElem?, found]

theorem getElem?_of_waiting {store : Store} {id : ThunkId} {code : Value} {frame : FrameId}
    {kept : Bool} (waiting : store.thunk id = .waiting code frame kept) :
    store.thunks[id]? = some (.waiting code frame kept) := by
  cases found : store.thunks[id]? with
  | none => simp [thunk, Array.getD_eq_getD_getElem?, found] at waiting
  | some suspension => rw [← thunk_of_getElem? found, waiting]

theorem settle_getElem?_of_ne {store : Store} {id other : ThunkId} (v : Value)
    (different : other ≠ id) :
    (store.settle id v).thunks[other]? = store.thunks[other]? := by
  simp [settle, Ne.symm different]

theorem settle_getElem?_self {store : Store} {id : ThunkId} (v : Value) (suspension : Suspension)
    (found : store.thunks[id]? = some suspension) :
    (store.settle id v).thunks[id]? = some (.settled v) := by
  obtain ⟨less, _⟩ := Array.getElem?_eq_some_iff.mp found
  simp [settle, less]

end Store

namespace Scope

theorem on_locate (frame : FrameId) (name : String) (store : Store) :
    (locate frame (.sym name)).on store = (.ok (store.find? frame (.sym name)), store) := rfl

theorem on_checkAssigned (frame : FrameId) (name v : Value) (store : Store)
    (assigned : v ≠ .unassigned) :
    (checkAssigned frame name v).on store = (.ok v, store) := by
  cases v <;> first | rfl | exact absurd rfl assigned

theorem on_checkAssigned_unassigned (frame : FrameId) (name : Value) (store : Store) :
    (checkAssigned frame name .unassigned).on store =
      (if (store.frame frame).checked then .error (.unassigned name) else .ok .unassigned,
        store) := by
  simp only [checkAssigned, Run.on_bind, Run.on_read]
  split <;> rfl

theorem on_checkAssigned_cases (frame : FrameId) (name v : Value) (store : Store) :
    (checkAssigned frame name v).on store = (.ok v, store) ∨
      v = .unassigned ∧ (store.frame frame).checked = true ∧
        (checkAssigned frame name v).on store = (.error (.unassigned name), store) := by
  by_cases assigned : v = .unassigned
  · subst assigned
    rw [on_checkAssigned_unassigned]
    cases (store.frame frame).checked with
    | true => exact .inr ⟨rfl, rfl, rfl⟩
    | false => exact .inl rfl
  · exact .inl (on_checkAssigned frame name v store assigned)

theorem on_lookup (frame : FrameId) (name : String) (store : Store) :
    (lookup frame (.sym name)).on store =
      match store.bound? frame name with
      | none => (.error (.unbound (.sym name)), store)
      | some v => (checkAssigned frame (.sym name) v).on store := by
  simp only [lookup, Run.on_bind, on_locate, Store.bound?]
  cases found : store.find? frame (.sym name) with
  | none => rfl
  | some owner =>
      have binds := store.find?_binds frame owner (.sym name) found
      obtain ⟨v, bound⟩ := Option.isSome_iff_exists.mp binds
      simp [Run.on_bind, Run.on_read, bound]

theorem on_lookup_cases (frame : FrameId) (name : String) (store : Store) :
    (∃ v, store.bound? frame name = some v ∧ (lookup frame (.sym name)).on store = (.ok v, store)) ∨
      ∃ failure, (lookup frame (.sym name)).on store = (.error failure, store) := by
  rw [on_lookup]
  cases bound : store.bound? frame name with
  | none => exact .inr ⟨_, rfl⟩
  | some v =>
      rcases on_checkAssigned_cases frame (.sym name) v store with passed | ⟨_, _, refused⟩
      · exact .inl ⟨v, rfl, passed⟩
      · exact .inr ⟨_, refused⟩

theorem on_assign (frame : FrameId) (name : String) (v : Value) (store : Store) :
    (assign frame (.sym name) v).on store =
      match store.find? frame (.sym name) with
      | none => (.error (.unboundTarget (.sym name)), store)
      | some owner => (.ok (.sym name), store.bind owner (.sym name) v) := by
  simp only [assign, Run.on_bind, on_locate]
  cases store.find? frame (.sym name) <;> rfl

theorem on_define (frame : FrameId) (name : String) (v : Value) (store : Store) :
    (define frame (.sym name) v).on store = (.ok (.sym name), store.bind frame (.sym name) v) := rfl

end Scope

/-! Suspensions and frames. -/

theorem on_suspend (code : Value) (frame : FrameId) (kept : Bool) (store : Store) :
    (suspend code frame kept).on store =
      (.ok (.thunk store.thunks.size), (store.addThunk code frame kept).2) := rfl

theorem on_bindParams (params : List Param) (frame : FrameId) (given : List Value) (store : Store) :
    (bindParams params frame given).on store =
      if given.length = params.length then
        (.ok store.frames.size,
          (store.extend frame ((params.map fun p => .sym p.name).zip given)).2)
      else (.error (.argumentCount params given.length), store) := by
  unfold bindParams
  split <;> rfl

theorem on_takeIdentity (store : Store) :
    (Run.make Store.takeIdentity).on store =
      (.ok store.fresh, { store with fresh := store.fresh + 1 }) :=
  rfl

end ThunkLisp
