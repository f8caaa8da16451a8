import ThunkLisp.Proofs.StoreSound

/-!
Growing stores. Frames and suspensions are added and never taken away: a frame keeps the frame
around it and its check for unassigned variables, and the names that it binds; a new frame stands
inside an older one and checks if that one does. So the chains of frames end, and a name that is
bound stays bound.
-/

namespace ThunkLisp

namespace Bindings

theorem binds_eq_any (bindings : Bindings) (key : Value) :
    bindings.binds key = bindings.any fun entry => entry.1.same key := by
  rw [binds, find?, Option.isSome_map, Bool.eq_iff_iff, List.find?_isSome, List.any_eq_true]

theorem binds_put_of_binds (bindings : Bindings) (name key v : Value)
    (bound : bindings.binds key = true) : (bindings.put name v).binds key = true := by
  rw [binds_eq_any] at bound ⊢
  induction bindings with
  | nil => simp at bound
  | cons entry rest ih =>
      simp only [List.any_cons, Bool.or_eq_true] at bound
      by_cases here : entry.1.same name = true
      · simpa [put, here] using bound
      · simp only [put, here, Bool.false_eq_true, ↓reduceIte, List.any_cons, Bool.or_eq_true]
        exact bound.imp_right ih

end Bindings

structure Store.ExtendsTo (store after : Store) : Prop extends store.Evolves after where
  binds : ∀ frame < store.frames.size, ∀ name,
    (store.frame frame).bindings.binds name = true → (after.frame frame).bindings.binds name = true
  opened : ∀ frame, store.frames.size ≤ frame → frame < after.frames.size →
    ∃ around < frame, (after.frame frame).outer = some around ∧
      (after.frame frame).checked = (after.frame around).checked

namespace Store.ExtendsTo

variable {a b c : Store}

theorem refl (store : Store) : store.ExtendsTo store :=
  ⟨.refl store, fun _ _ _ bound => bound, fun _ old present => absurd present (Nat.not_lt.mpr old)⟩

theorem trans (first : a.ExtendsTo b) (second : b.ExtendsTo c) : a.ExtendsTo c := by
  constructor
  · exact first.toEvolves.trans second.toEvolves
  · intro frame present name bound
    exact second.binds frame (Nat.lt_of_lt_of_le present first.size) name
      (first.binds frame present name bound)
  · intro frame absent present
    -- the frame is new in the second store or only in the third
    by_cases between : frame < b.frames.size
    · obtain ⟨around, less, outer, checked⟩ := first.opened frame absent between
      have near := Nat.lt_trans less between
      refine ⟨around, less, ?_, ?_⟩
      · rw [second.outer frame between, outer]
      · rw [second.checked frame between, second.checked around near, checked]
    · exact second.opened frame (Nat.not_lt.mp between) present

theorem of_frames (evolves : a.Evolves b) (frames : b.frames = a.frames) : a.ExtendsTo b := by
  constructor
  · exact evolves
  · intro _ _ _ bound
    simpa [Store.frame, frames] using bound
  · intro frame absent present
    rw [frames] at present
    exact absurd present (Nat.not_lt.mpr absent)

theorem bind (store : Store) (frame : FrameId) (name v : Value) :
    store.ExtendsTo (store.bind frame name v) := by
  constructor
  · exact .bind store frame name v
  · intro other present key bound
    by_cases here : other = frame
    · subst here
      rw [store.frame_bind_self other name v present]
      exact Bindings.binds_put_of_binds _ name key v bound
    · rw [store.frame_bind_of_ne frame other name v here]
      exact bound
  · intro other absent present
    simp only [Store.bind, Array.size_modify] at present
    exact absurd present (Nat.not_lt.mpr absent)

theorem extend (store : Store) (frame : FrameId) (bindings : Bindings)
    (present : frame < store.frames.size) :
    store.ExtendsTo (store.extend frame bindings).2 := by
  have old (other : FrameId) (less : other < store.frames.size) :
      (store.extend frame bindings).2.frame other = store.frame other :=
    store.frame_addFrame_of_lt bindings (some frame) none other less
  constructor
  · exact .addFrame store bindings (some frame) none
  · intro other less name bound
    rw [old other less]
    exact bound
  · intro other absent inside
    have size : (store.extend frame bindings).2.frames.size = store.frames.size + 1 := by
      simp [Store.extend, Store.addFrame]
    obtain rfl : other = store.frames.size := by omega
    refine ⟨frame, present, ?_, ?_⟩
    · rw [store.frame_extend_self]
    · rw [store.frame_extend_self, old frame present]

theorem addThunk (store : Store) (code : Value) (frame : FrameId) (kept : Bool) :
    store.ExtendsTo (store.addThunk code frame kept).2 :=
  of_frames (.addThunk store code frame kept) rfl

theorem settle (store : Store) (id : ThunkId) (v : Value) (suspension : Suspension)
    (found : store.thunks[id]? = some suspension) (kept : suspension.isKept = true) :
    store.ExtendsTo (store.settle id v) :=
  of_frames (.settle store id v suspension found kept) rfl

theorem find?_isSome (grows : a.ExtendsTo b) (frame : FrameId) (name : Value)
    (present : frame < a.frames.size) (bound : (a.find? frame name).isSome = true) :
    (b.find? frame name).isSome = true := by
  obtain ⟨owner, found⟩ := Option.isSome_iff_exists.mp bound
  -- the owner is a frame that was there, so it still binds the name, and the chain leads to it as
  -- before
  have around := a.find?_mem_chain frame owner name found
  have inside := Nat.lt_of_le_of_lt (a.le_of_mem_chain frame owner around) present
  have still := grows.binds owner inside name (a.find?_binds frame owner name found)
  rw [Store.find?, List.find?_isSome, grows.chain frame present]
  exact ⟨owner, around, still⟩

end Store.ExtendsTo

/-! Lookups. -/

namespace Scope

theorem on_lookup_of_find? (frame : FrameId) (name : Value) (store : Store)
    (key : name.isKey = true) :
    (lookup frame name).on store =
      match store.find? frame name with
      | none => (.error (.unbound name), store)
      | some owner =>
          (checkAssigned frame name (((store.frame owner).bindings.find? name).getD .nil)).on
            store := by
  simp only [lookup, locate, key, ↓reduceIte, Run.on_bind, Run.on_read]
  cases store.find? frame name <;> rfl

theorem on_lookup_of_not_key (frame : FrameId) (name : Value) (store : Store)
    (odd : name.isKey = false) :
    (lookup frame name).on store = (.error (.operand (.notAKey name.typeName)), store) := by
  simp only [lookup, locate, odd, Bool.false_eq_true, ↓reduceIte, Run.on_bind, Run.on_throw]

theorem find?_isSome_of_lookup (frame : FrameId) (name v : Value) (store : Store)
    (found : ((lookup frame name).on store).1 = .ok v) :
    name.isKey = true ∧ (store.find? frame name).isSome = true := by
  cases key : name.isKey with
  | false =>
      rw [on_lookup_of_not_key frame name store key] at found
      cases found
  | true =>
      rw [on_lookup_of_find? frame name store key] at found
      cases here : store.find? frame name with
      | none =>
          rw [here] at found
          cases found
      | some owner => exact ⟨rfl, rfl⟩

theorem lookup_of_find?_isSome (frame : FrameId) (name : Value) (store : Store)
    (key : name.isKey = true) (bound : (store.find? frame name).isSome = true) :
    ((lookup frame name).on store).1 ≠ .error (.unbound name) := by
  obtain ⟨owner, here⟩ := Option.isSome_iff_exists.mp bound
  rw [on_lookup_of_find? frame name store key]
  simp only [here]
  rcases on_checkAssigned_cases frame name (((store.frame owner).bindings.find? name).getD .nil)
      store with
    passed | ⟨_, _, refused⟩
  · rw [passed]
    simp
  · rw [refused]
    simp

end Scope

/-- What a name is to code in the frames of a store lasts: bound names stay bound, and a lookup that
has once succeeded does not find the name unbound. -/
structure Store.NamesLast (store after : Store) : Prop where
  bound : ∀ frame < store.frames.size, ∀ name,
    (store.find? frame name).isSome = true → (after.find? frame name).isSome = true
  found : ∀ frame < store.frames.size, ∀ name v, ((Scope.lookup frame name).on store).1 = .ok v →
    ((Scope.lookup frame name).on after).1 ≠ .error (.unbound name)

theorem Store.ExtendsTo.namesLast {store after : Store} (grows : store.ExtendsTo after) :
    store.NamesLast after := by
  constructor
  · intro frame present name bound
    exact grows.find?_isSome frame name present bound
  · intro frame present name v found
    obtain ⟨key, bound⟩ := Scope.find?_isSome_of_lookup frame name v store found
    exact Scope.lookup_of_find?_isSome frame name after key
      (grows.find?_isSome frame name present bound)

/-! Well-formed stores. -/

/-- Frames stand inside older ones, and all check alike. -/
structure Store.WellFormed (store : Store) (globals : FrameId) : Prop where
  outer : ∀ frame around, (store.frame frame).outer = some around → around < frame
  checked : ∀ frame < store.frames.size, (store.frame frame).checked = (store.frame globals).checked

namespace Store.WellFormed

variable {store after : Store} {globals : FrameId}

theorem wellFounded (formed : store.WellFormed globals) :
    WellFounded fun around frame => (store.frame frame).outer = some around :=
  Subrelation.wf (fun {around frame} => formed.outer frame around) Nat.lt_wfRel.wf

theorem extendsTo (formed : store.WellFormed globals) (present : globals < store.frames.size)
    (grows : store.ExtendsTo after) : after.WellFormed globals := by
  have outer : ∀ frame around, (after.frame frame).outer = some around → around < frame := by
    intro frame around found
    by_cases old : frame < store.frames.size
    · rw [grows.outer frame old] at found
      exact formed.outer frame around found
    · by_cases new : frame < after.frames.size
      · obtain ⟨near, less, opened, _⟩ := grows.opened frame (Nat.not_lt.mp old) new
        rw [opened] at found
        cases found
        exact less
      · simp [Store.frame, Array.getD_eq_getD_getElem?, new] at found
  constructor
  · exact outer
  · intro frame inside
    rw [grows.checked globals present]
    -- a new frame checks like an older one
    induction frame using Nat.strongRecOn with
    | ind frame ih =>
        by_cases old : frame < store.frames.size
        · rw [grows.checked frame old]
          exact formed.checked frame old
        · obtain ⟨near, less, _, same⟩ := grows.opened frame (Nat.not_lt.mp old) inside
          rw [same]
          exact ih near less (Nat.lt_trans less inside)

end Store.WellFormed

end ThunkLisp
