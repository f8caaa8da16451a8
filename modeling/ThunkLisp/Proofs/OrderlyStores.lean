import Mathlib
import ThunkLisp.Proofs.SpareSuspensions
import ThunkLisp.Proofs.UnreadArguments

/-!
Orderly stores. In an orderly store a new suspension is a spare one, whatever it is, until a
variable is bound to it. The stores that sessions come to are orderly.
-/

namespace ThunkLisp

open Value (Every)

theorem Store.Orderly.withSpare_last {store : Store} (orderly : store.Orderly store.thunks.size)
    (code : Value) (frame : FrameId) (kept : Bool) :
    store.withSpare store.thunks.size (.waiting code frame kept) =
      (store.addThunk code frame kept).2 := by
  -- no older value names a suspension behind the last, so no name moves
  have frames : store.frames.map (Frame.past store.thunks.size) = store.frames := by
    refine Array.ext_getElem? fun i => ?_
    rw [Array.getElem?_map]
    cases found : store.frames[i]? with
    | none => rfl
    | some home =>
        have here : store.frame i = home := by
          simp [Store.frame, Array.getD_eq_getD_getElem?, found]
        have still : home.bindings.map (fun entry => (entry.1, entry.2.past store.thunks.size)) =
            home.bindings := by
          refine (List.map_congr_left fun entry member => ?_).trans (List.map_id home.bindings)
          have older : entry.2.Older store.thunks.size := by
            rcases orderly.held i entry (here ▸ member) with older | ⟨id, present, same⟩
            · exact older
            · exact same ▸ (Value.older_thunk id).mpr present
          rw [older.past]
          rfl
        simp [Frame.past, still]
  have last : (store.thunks.toList.insertIdx store.thunks.size (.waiting code frame kept)).toArray =
      store.thunks.push (.waiting code frame kept) := by
    rw [← Array.length_toList, List.insertIdx_length_self]
    exact (List.push_toArray store.thunks.toList _).symm
  simp only [Store.withSpare, Store.addThunk, frames, last]

/-! Stores of sessions, in which values and code have no suspensions at all. -/

theorem Value.older_of_isInert {leaf : Value} (inert : leaf.isInert = true) : leaf.Older 0 := by
  cases leaf with
  | primitive p =>
      obtain ⟨name, operation, identity⟩ := p
      cases operation <;> simp [Older, refs, Operation.refs]
  | list | procedure | thunk | unassigned => cases inert
  | _ => simp [Older, refs]

theorem Value.Older.isThunk {v : Value} (older : v.Older 0) : v.isThunk = false := by
  cases v with
  | thunk id => exact absurd ((older_thunk id).mp older) (Nat.not_lt_zero id)
  | _ => rfl

namespace Policy

variable {store : Store}

theorem older_of_runs {frame : FrameId} {code : Value} (runs : free.Runs store frame code) :
    code.Older 0 :=
  (Value.every_older_iff code).mp ((runs.data inert_basics).imp fun _ => Value.older_of_isInert)

theorem older_of_leaf {v : Value} (leaf : free.Leaf store v) : v.Older 0 := by
  cases v with
  | procedure identity params body frame =>
      exact (Value.older_procedure identity params body frame).mpr fun form member =>
        older_of_runs (leaf.2 form member)
  | unassigned => exact Value.older_unassigned
  | _ => exact Value.older_of_isInert leaf

theorem older_of_value {v : Value} (value : Every (free.Leaf store) v) : v.Older 0 :=
  (Value.every_older_iff v).mp (value.imp fun _ => older_of_leaf)

theorem orderly_of_sound (sound : free.SoundIn store) : store.Orderly store.thunks.size := by
  -- this policy hides no suspension
  have visible (id : ThunkId) : ¬ free.Hides id := not_hides rfl id
  have present {id : ThunkId} {suspension : Suspension}
      (found : store.thunks[id]? = some suspension) :
      id < store.thunks.size := (Array.getElem?_eq_some_iff.mp found).1
  have whole {v : Value} (older : v.Older 0) : v.Older store.thunks.size :=
    older.mono (Nat.zero_le _)
  have waits {code : Value} (older : code.Older 0) (id : ThunkId) (frame : FrameId) (kept : Bool) :
      (Suspension.waiting code frame kept).Orderly store.thunks.size id :=
    ⟨whole older, fun next same => absurd older.isThunk (by simp [same, Value.isThunk])⟩
  refine ⟨le_rfl, fun frame entry member => ?_, fun id => ?_⟩
  · obtain ⟨name, _, bound⟩ := sound.bound frame entry member
    generalize entry.2 = v at bound
    cases bound with
    | value v every => exact .inl (whole (older_of_value every))
    | delayed id delayed =>
        obtain ⟨_, suspension, found, _⟩ := delayed
        exact .inr ⟨id, present found, rfl⟩
    | placeholder v _ holds =>
        rcases holds with rfl | ⟨id, _, rfl, _, _, found⟩
        · exact .inl Value.older_unassigned
        · exact .inr ⟨id, present found, rfl⟩
    | hidden id _ hides => exact absurd hides (visible id)
  · cases found : store.thunks[id]? with
    | none =>
        have absent : store.thunk id = .settled .nil := by
          simp [Store.thunk, Array.getD_eq_getD_getElem?, found]
        exact absent ▸ ⟨Value.older_nil, rfl⟩
    | some suspension =>
        rw [Store.thunk_of_getElem? found]
        rcases sound.suspended id suspension found with hides | ⟨_, _, _, rfl⟩ | suspended
        · exact absurd hides (visible id)
        · exact waits ((Value.older_list _).mpr (by simp [Value.older_sym, Value.older_unassigned]))
            id _ _
        · cases suspension with
          | waiting code frame kept => exact waits (older_of_runs suspended.2) id frame kept
          | settled v => exact ⟨whole (older_of_value suspended),
              (older_of_value suspended).isThunk⟩

end Policy

theorem Setup.orderly_of_ran (setup : Setup) (texts : List String) (session : Session)
    (r : Recording) (default_ : setup.supplies = defaultSupplies)
    (ran : setup.ran? texts = some (session, r)) :
    r.store.Orderly r.store.thunks.size := by
  obtain ⟨⟨sound, _⟩, _⟩ := Policy.free.sound_of_ran rfl rfl setup texts session r default_
    (fun tight => nomatch tight) (fun _ => rfl) ran
  exact Policy.orderly_of_sound (sound.loosen rfl)

end ThunkLisp
