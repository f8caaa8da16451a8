import ThunkLisp.Proofs.Growth
import ThunkLisp.Proofs.References
import ThunkLisp.Proofs.Runs

/-!
Realms. A realm is what a run may touch of a store: some of what is there when it begins, and
whatever the run adds. Values, frames and suspensions of the realm refer to the realm only, and code
refers only to what was there before. Evaluation keeps all this, and leaves alone what is outside
the realm.
-/

namespace ThunkLisp

open Machine (effect)
open Value (Every)

/-- What a program that embeds the evaluator may do in an added primitive: frames and suspensions
stay as they are, and the result is made of leaves of the arguments and of leaves that refer to
nothing. -/
structure Tame (action : List Value → Run Value) : Prop where
  frames (given : List Value) (store : Store) : ((action given).on store).2.frames = store.frames
  thunks (given : List Value) (store : Store) : ((action given).on store).2.thunks = store.thunks
  result (p : Value → Prop) (free : ∀ leaf, leaf.refs = [] → p leaf) (given : List Value)
    (store : Store) (v : Value) : (∀ w ∈ given, Every p w) → ((action given).on store).1 = .ok v →
    Every p v

structure Realm where
  /-- the store when the run begins -/
  base : Store
  within : Ref → Prop
  present : ∀ ref, within ref → base.Has ref

namespace Realm

variable (realm : Realm)

def Holds (store : Store) (ref : Ref) : Prop := realm.within ref ∨ realm.base.Creates store ref

/-- Code and the bodies of procedures are as old as the realm. -/
def Written (code : Value) : Prop := ∀ ref ∈ code.refs, realm.within ref

def Leaf (store : Store) : Value → Prop
  | .procedure _ _ body frame => realm.Holds store (.frame
      frame) ∧ ∀ form ∈ body, realm.Written form
  | v => ∀ ref ∈ v.refs, realm.Holds store ref

def FrameSound (store : Store) (frame : Frame) : Prop :=
  (∀ around, frame.outer = some around → realm.Holds store (.frame around)) ∧
    ∀ entry ∈ frame.bindings, Every (realm.Leaf store) entry.2

def ThunkSound (store : Store) : Suspension → Prop
  | .waiting code frame _ => realm.Holds store (.frame frame) ∧ realm.Written code
  | .settled v => Every (realm.Leaf store) v

structure Sound (store : Store) : Prop where
  grown : realm.base.frames.size ≤ store.frames.size
  grown_thunks : realm.base.thunks.size ≤ store.thunks.size
  frame : ∀ id, realm.Holds store (.frame id) → realm.FrameSound store (store.frame id)
  thunk : ∀ id, realm.Holds store (.thunk id) → realm.ThunkSound store (store.thunk id)
  frame_outside : ∀ id < realm.base.frames.size, ¬ realm.within (.frame id) →
    store.frame id = realm.base.frame id
  thunk_outside : ∀ id < realm.base.thunks.size, ¬ realm.within (.thunk id) →
    store.thunk id = realm.base.thunk id

variable {realm} {store after : Store}

theorem holds_of_within {ref : Ref} (within : realm.within ref) : realm.Holds store ref :=
  .inl within

theorem has_of_evolves (grows : store.Evolves after) {ref : Ref} (has : store.Has ref) :
    after.Has ref := by
  cases ref with
  | frame id => exact Nat.lt_of_lt_of_le has grows.size
  | thunk id =>
      have there := Array.getElem?_eq_getElem has
      obtain ⟨new, found, _⟩ := grows.thunks id _ there
      exact (Array.getElem?_eq_some_iff.mp found).1
  | action name => trivial

theorem thunks_size (grows : store.Evolves after) : store.thunks.size ≤ after.thunks.size := by
  apply Nat.le_of_not_lt
  intro more
  have last : store.Has (.thunk after.thunks.size) := more
  exact Nat.lt_irrefl _ (has_of_evolves grows last)

theorem Holds.grow {ref : Ref} (grows : store.Evolves after) (holds : realm.Holds store ref) :
    realm.Holds after ref :=
  holds.imp_right fun created => ⟨created.1, has_of_evolves grows created.2⟩

theorem leaf_grow (grows : store.Evolves after) (v : Value) (leaf : realm.Leaf store v) :
    realm.Leaf after v := by
  cases v with
  | procedure identity params body frame => exact ⟨leaf.1.grow grows, leaf.2⟩
  | _ => exact fun ref member => (leaf ref member).grow grows

theorem value_grow (grows : store.Evolves after) {v : Value} (every : Every (realm.Leaf store) v) :
    Every (realm.Leaf after) v :=
  every.imp (leaf_grow grows)

theorem leaf_of_written (v : Value) (written : realm.Written v) : realm.Leaf store v := by
  cases v with
  | procedure identity params body frame =>
      constructor
      · exact holds_of_within (written _ (by simp [Value.refs]))
      · intro form member ref inside
        exact written ref (List.mem_cons_of_mem _
          ((Value.mem_refsOf ref body).mpr ⟨form, member, inside⟩))
  | _ => exact fun ref member => holds_of_within (written ref member)

theorem leaf_of_refs_nil (v : Value) (free : v.refs = []) : realm.Leaf store v :=
  leaf_of_written v (by simp [Written, free])

theorem holds_of_value {v : Value} (every : Every (realm.Leaf store) v) :
    ∀ ref ∈ v.refs, realm.Holds store ref := by
  apply (Value.every_refs_iff (realm.Holds store) v).mp
  apply every.imp
  intro leaf holds
  cases leaf with
  | procedure identity params body frame =>
      intro ref member
      rcases List.mem_cons.mp member with rfl | inside
      · exact holds.1
      · obtain ⟨form, among, inside⟩ := (Value.mem_refsOf ref body).mp inside
        exact holds_of_within (holds.2 form among ref inside)
  | _ => exact holds

theorem FrameSound.grow {frame : Frame} (grows : store.Evolves after)
    (sound : realm.FrameSound store frame) :
    realm.FrameSound after frame := by
  constructor
  · intro around outer
    exact (sound.1 around outer).grow grows
  · intro entry member
    exact value_grow grows (sound.2 entry member)

theorem ThunkSound.grow {suspension : Suspension} (grows : store.Evolves after)
    (sound : realm.ThunkSound store suspension) : realm.ThunkSound after suspension := by
  cases suspension with
  | waiting code frame kept => exact ⟨sound.1.grow grows, sound.2⟩
  | settled v => exact value_grow grows sound

namespace Sound

theorem within_of_holds {ref : Ref} (old : realm.base.Has ref) (holds : realm.Holds store ref) :
    realm.within ref :=
  holds.resolve_right fun created => created.1 old

theorem has_of_holds (sound : realm.Sound store) {ref : Ref} (holds : realm.Holds store ref) :
    store.Has ref := by
  rcases holds with within | created
  · have present := realm.present ref within
    cases ref with
    | frame id => exact Nat.lt_of_lt_of_le present sound.grown
    | thunk id => exact Nat.lt_of_lt_of_le present sound.grown_thunks
    | action name => trivial
  · exact created.2

theorem holds_of_has {ref : Ref} (old : store.Has ref) (holds : realm.Holds after ref) :
    realm.Holds store ref :=
  holds.imp_right fun created => ⟨created.1, old⟩

theorem evolve (sound : realm.Sound store) (evolves : store.Evolves after)
    (frame : ∀ id < after.frames.size, realm.Holds after (.frame id) →
      id < store.frames.size ∧ after.frame id = store.frame id ∨
        realm.FrameSound after (after.frame id))
    (thunk : ∀ id < after.thunks.size, realm.Holds after (.thunk id) →
      id < store.thunks.size ∧ after.thunk id = store.thunk id ∨
        realm.ThunkSound after (after.thunk id))
    (frame_outside : ∀ id < store.frames.size, ¬ realm.Holds store (.frame id) →
      after.frame id = store.frame id)
    (thunk_outside : ∀ id < store.thunks.size, ¬ realm.Holds store (.thunk id) →
      after.thunk id = store.thunk id) : realm.Sound after := by
  have grown := Nat.le_trans sound.grown evolves.size
  have grown_thunks := Nat.le_trans sound.grown_thunks (thunks_size evolves)
  constructor
  · exact grown
  · exact grown_thunks
  · intro id holds
    have less : id < after.frames.size := by
      rcases holds with within | created
      · exact Nat.lt_of_lt_of_le (realm.present _ within) grown
      · exact created.2
    -- an unchanged frame was held before, since it was there
    rcases frame id less holds with ⟨old, same⟩ | new
    · rw [same]
      exact (sound.frame id (holds_of_has old holds)).grow evolves
    · exact new
  · intro id holds
    have less : id < after.thunks.size := by
      rcases holds with within | created
      · exact Nat.lt_of_lt_of_le (realm.present _ within) grown_thunks
      · exact created.2
    rcases thunk id less holds with ⟨old, same⟩ | new
    · rw [same]
      exact (sound.thunk id (holds_of_has old holds)).grow evolves
    · exact new
  · intro id less outside
    have apart : ¬ realm.Holds store (.frame id) := fun holds =>
      outside (within_of_holds less holds)
    rw [frame_outside id (Nat.lt_of_lt_of_le less sound.grown) apart]
    exact sound.frame_outside id less outside
  · intro id less outside
    have apart : ¬ realm.Holds store (.thunk id) := fun holds =>
      outside (within_of_holds less holds)
    rw [thunk_outside id (Nat.lt_of_lt_of_le less sound.grown_thunks) apart]
    exact sound.thunk_outside id less outside

theorem evolve_frames (sound : realm.Sound store) (evolves : store.Evolves after)
    (thunks : after.thunks = store.thunks)
    (frame : ∀ id < after.frames.size, realm.Holds after (.frame id) →
      id < store.frames.size ∧ after.frame id = store.frame id ∨
        realm.FrameSound after (after.frame id))
    (outside : ∀ id < store.frames.size, ¬ realm.Holds store (.frame id) →
      after.frame id = store.frame id) : realm.Sound after := by
  have same (id : ThunkId) : after.thunk id = store.thunk id := by simp [Store.thunk, thunks]
  exact sound.evolve evolves frame (fun id less _ => .inl ⟨thunks ▸ less, same id⟩) outside
    fun id _ _ => same id

theorem evolve_thunks (sound : realm.Sound store) (evolves : store.Evolves after)
    (frames : after.frames = store.frames)
    (thunk : ∀ id < after.thunks.size, realm.Holds after (.thunk id) →
      id < store.thunks.size ∧ after.thunk id = store.thunk id ∨
        realm.ThunkSound after (after.thunk id))
    (outside : ∀ id < store.thunks.size, ¬ realm.Holds store (.thunk id) →
      after.thunk id = store.thunk id) : realm.Sound after := by
  have same (id : FrameId) : after.frame id = store.frame id := by simp [Store.frame, frames]
  exact sound.evolve evolves (fun id less _ => .inl ⟨frames ▸ less, same id⟩) thunk
    (fun id _ _ => same id) outside

theorem of_same (sound : realm.Sound store) (frames : after.frames = store.frames)
    (thunks : after.thunks = store.thunks) : realm.Sound after := by
  have same (id : ThunkId) : after.thunk id = store.thunk id := by simp [Store.thunk, thunks]
  exact sound.evolve_thunks (.of_same frames thunks) frames
    (fun id less _ => .inl ⟨thunks ▸ less, same id⟩)
    fun id _ _ => same id

theorem bind (sound : realm.Sound store) (frame : FrameId) (name v : Value)
    (held : realm.Holds store (.frame frame)) (every : Every (realm.Leaf store) v) :
    realm.Sound (store.bind frame name v) := by
  have evolves := Store.Evolves.bind store frame name v
  have present : frame < store.frames.size := sound.has_of_holds held
  apply sound.evolve_frames evolves rfl
  · intro id less holds
    by_cases here : id = frame
    · subst here
      have old := (sound.frame id held).grow evolves
      rw [store.frame_bind_self id name v present]
      refine .inr ⟨old.1, fun entry member => ?_⟩
      rcases Bindings.mem_put member with before | ⟨same, _⟩
      · exact old.2 entry before
      · rw [same]
        exact value_grow evolves every
    · simp only [Store.bind, Array.size_modify] at less
      exact .inl ⟨less, store.frame_bind_of_ne frame id name v here⟩
  · intro id _ outside
    apply store.frame_bind_of_ne frame id name v
    rintro rfl
    exact outside held

theorem extend (sound : realm.Sound store) (frame : FrameId) (bindings : Bindings)
    (held : realm.Holds store (.frame frame))
    (each : ∀ entry ∈ bindings, Every (realm.Leaf store) entry.2) :
    realm.Sound (store.extend frame bindings).2 := by
  have evolves : store.Evolves (store.extend frame bindings).2 :=
    .addFrame store bindings (some frame) none
  have old (other : FrameId) (less : other < store.frames.size) :
      (store.extend frame bindings).2.frame other = store.frame other :=
    store.frame_addFrame_of_lt bindings (some frame) none other less
  apply sound.evolve_frames evolves rfl
  · intro id less holds
    by_cases before : id < store.frames.size
    · exact .inl ⟨before, old id before⟩
    · have size : (store.extend frame bindings).2.frames.size = store.frames.size + 1 := by
        simp [Store.extend, Store.addFrame]
      obtain rfl : id = store.frames.size := by omega
      rw [store.frame_extend_self]
      refine .inr ⟨fun around outer => ?_, fun entry member =>
        value_grow evolves (each entry member)⟩
      cases outer
      exact held.grow evolves
  · intro id less _
    exact old id less

theorem holds_extend (sound : realm.Sound store) (frame : FrameId) (bindings : Bindings) :
    realm.Holds (store.extend frame bindings).2 (.frame store.frames.size) := by
  refine .inr ⟨Nat.not_lt.mpr sound.grown, ?_⟩
  simp [Store.Has, Store.extend, Store.addFrame]

theorem addThunk (sound : realm.Sound store) (code : Value) (frame : FrameId) (kept : Bool)
    (held : realm.Holds store (.frame frame)) (written : realm.Written code) :
    realm.Sound (store.addThunk code frame kept).2 := by
  have evolves := Store.Evolves.addThunk store code frame kept
  have old (id : ThunkId) (less : id < store.thunks.size) :
      (store.addThunk code frame kept).2.thunk id = store.thunk id := by
    simp [Store.addThunk, Store.thunk, Array.getD_eq_getD_getElem?, Array.getElem?_push,
      Nat.ne_of_lt less]
  apply sound.evolve_thunks evolves rfl
  · intro id less holds
    by_cases before : id < store.thunks.size
    · exact .inl ⟨before, old id before⟩
    · simp only [Store.addThunk, Array.size_push] at less
      obtain rfl : id = store.thunks.size := by omega
      have new : (store.addThunk code frame kept).2.thunk store.thunks.size =
          .waiting code frame kept := by
        simp [Store.addThunk, Store.thunk, Array.getD_eq_getD_getElem?]
      rw [new]
      exact .inr ⟨held.grow evolves, written⟩
  · intro id less _
    exact old id less

theorem holds_addThunk (sound : realm.Sound store) (code : Value) (frame : FrameId) (kept : Bool) :
    realm.Holds (store.addThunk code frame kept).2 (.thunk store.thunks.size) := by
  refine .inr ⟨Nat.not_lt.mpr sound.grown_thunks, ?_⟩
  simp [Store.Has, Store.addThunk]

theorem settle (sound : realm.Sound store) (id : ThunkId) (v : Value) (suspension : Suspension)
    (found : store.thunks[id]? = some suspension) (kept : suspension.isKept = true)
    (held : realm.Holds store (.thunk id)) (every : Every (realm.Leaf store) v) :
    realm.Sound (store.settle id v) := by
  have evolves := Store.Evolves.settle store id v suspension found kept
  have present : id < store.thunks.size := sound.has_of_holds held
  apply sound.evolve_thunks evolves rfl
  · intro other less holds
    rw [store.thunk_settle id other v present]
    by_cases here : other = id
    · rw [if_pos here]
      exact .inr (value_grow evolves every)
    · rw [if_neg here]
      simp only [Store.settle, Array.set!_eq_setIfInBounds, Array.size_setIfInBounds] at less
      exact .inl ⟨less, rfl⟩
  · intro other _ outside
    rw [store.thunk_settle id other v present, if_neg]
    rintro rfl
    exact outside held

end Sound

theorem sound_base (realm : Realm) (closed : ∀ near, realm.within near →
    ∀ ref ∈ realm.base.refs near, realm.within ref) :
    realm.Sound realm.base := by
  -- nothing has been created yet
  have within {ref : Ref} (holds : realm.Holds realm.base ref) : realm.within ref :=
    holds.resolve_right fun created => created.1 created.2
  have value {v : Value} (written : realm.Written v) : Every (realm.Leaf realm.base) v :=
    ((Value.every_refs_iff realm.within v).mpr written).imp leaf_of_written
  constructor
  · exact Nat.le_refl _
  · exact Nat.le_refl _
  · intro id holds
    have near := closed (.frame id) (within holds)
    constructor
    · intro around outer
      exact holds_of_within (near _ (by simp [Store.refs, Frame.refs, outer]))
    · intro entry member
      apply value
      intro ref inside
      exact near ref (List.mem_append_right _ (List.mem_flatMap.mpr ⟨entry, member, inside⟩))
  · intro id holds
    have near := closed (.thunk id) (within holds)
    simp only [Store.refs] at near
    cases suspension : realm.base.thunk id with
    | waiting code frame kept =>
        rw [suspension] at near
        constructor
        · exact holds_of_within (near _ List.mem_cons_self)
        · exact fun ref inside => near ref (.tail _ inside)
    | settled v =>
        rw [suspension] at near
        exact value near
  · exact fun _ _ _ => rfl
  · exact fun _ _ _ => rfl

end Realm

end ThunkLisp
