import ThunkLisp.Proofs.Agreement.Meaning
import Mathlib.Data.List.Forall2

/-!
Stores that match the frames of strict runs. Every frame of the store stands for one of these frames
and binds the same names, to values of the same outlines or to suspensions that mean such values.
The frames of strict runs never change, so a match is only ever extended.
-/

namespace ThunkLisp

open Value (Every)

/-- What the frames and the suspensions of a store stand for. The meaning of a suspension has a
bound. -/
structure Matching where
  frame : FrameId → FrameId
  value : ThunkId → Value
  bound : ThunkId → Nat

def KnownLeaf (store : Store) : Value → Prop
  | .procedure _ _ _ frame => frame < store.frames.size
  | .thunk _ | .unassigned => False
  | _ => True

theorem known_results (store : Store) : HasResults (KnownLeaf store) :=
  ⟨trivial, fun _ => trivial, fun _ => trivial, fun _ => trivial, fun _ => trivial, fun _ =>
    trivial⟩

namespace Matching

variable (m : Matching)

def Stands (store : Store) (v u : Value) : Prop :=
  Every (KnownLeaf store) v ∧ v.outline m.frame = u.outline id

/-- What a variable of a frame is bound to, in place of a value. -/
def Binds (store : Store) (frame : FrameId) (v u : Value) : Prop :=
  m.Stands store v u ∨
    ∃ id, v = .thunk id ∧ id < store.thunks.size ∧ m.value id = u ∧ m.bound id ≤ frame

structure Frames (store : Store) (number : FrameId) (one other : Frame) : Prop where
  bindings : List.Forall₂ (fun entry entry' => entry.1 = entry'.1 ∧
    m.Binds store (m.frame number) entry.2 entry'.2) one.bindings other.bindings
  outer : Option.Rel (fun around around' => around < number ∧ around' < m.frame number ∧
    m.frame around = around') one.outer other.outer

def Suspends (frames store : Store) (id : ThunkId) : Suspension → Prop
  | .waiting code frame _ =>
      frame < store.frames.size ∧ Means frames (m.bound id) (m.frame frame) code (m.value id)
  | .settled v => m.Stands store v (m.value id)

structure Holds (frames store : Store) : Prop where
  each : ∀ number < store.frames.size, m.Frames store number (store.frame number)
    (frames.frame (m.frame number))
  suspended : ∀ id suspension, store.thunks[id]? = some suspension →
    m.Suspends frames store id suspension

structure Extends (m m' : Matching) (store after : Store) : Prop where
  frames : store.frames.size ≤ after.frames.size
  thunks : store.thunks.size ≤ after.thunks.size
  frame : ∀ number < store.frames.size, m'.frame number = m.frame number
  value : ∀ id < store.thunks.size, m'.value id = m.value id ∧ m'.bound id = m.bound id

variable {m} {m' m'' : Matching} {frames store after final : Store}

namespace Extends

theorem of_sizes (m : Matching) (frames : store.frames.size ≤ after.frames.size)
    (thunks : store.thunks.size ≤ after.thunks.size) : Extends m m store after :=
  ⟨frames, thunks, fun _ _ => rfl, fun _ _ => ⟨rfl, rfl⟩⟩

theorem refl (m : Matching) (store : Store) : Extends m m store store :=
  of_sizes m (Nat.le_refl _) (Nat.le_refl _)

theorem trans (first : Extends m m' store after) (second : Extends m' m'' after final) :
    Extends m m'' store final where
  frames := Nat.le_trans first.frames second.frames
  thunks := Nat.le_trans first.thunks second.thunks
  frame number less := by
    rw [second.frame number (Nat.lt_of_lt_of_le less first.frames), first.frame number less]
  value id less := by
    obtain ⟨value, bound⟩ := second.value id (Nat.lt_of_lt_of_le less first.thunks)
    rw [value, bound]
    exact first.value id less

theorem stands (extends_ : Extends m m' store after) {v u : Value} (stands : m.Stands store v u) :
    m'.Stands after v u := by
  refine ⟨stands.1.imp fun leaf known => ?_, ?_⟩
  · cases leaf with
    | procedure identity params body frame => exact Nat.lt_of_lt_of_le known extends_.frames
    | _ => exact known
  · rw [← stands.2]
    have inside : Every (fun leaf => ∀ identity params body frame,
        leaf = .procedure identity params body frame → frame < store.frames.size) v :=
      stands.1.imp fun leaf known identity params body frame same => by
        subst same
        exact known
    exact Value.outline_congr m'.frame m.frame inside extends_.frame

theorem binds (extends_ : Extends m m' store after) {frame : FrameId} {v u : Value}
    (binds : m.Binds store frame v u) : m'.Binds after frame v u := by
  rcases binds with stands | ⟨id, rfl, present, meant, below⟩
  · exact .inl (extends_.stands stands)
  · obtain ⟨value, bound⟩ := extends_.value id present
    exact .inr ⟨id, rfl, Nat.lt_of_lt_of_le present extends_.thunks, by rw [value, meant], by
      rwa [bound]⟩

theorem frames_match (extends_ : Extends m m' store after) {number : FrameId} {one other : Frame}
    (present : number < store.frames.size) (match_ : m.Frames store number one other) :
    m'.Frames after number one other := by
  have here := extends_.frame number present
  obtain ⟨bindings, outer⟩ := match_
  constructor
  · refine bindings.imp fun entry entry' same => And.intro same.1 ?_
    rw [here]
    exact extends_.binds same.2
  · generalize one.outer = around at outer ⊢
    generalize other.outer = around' at outer ⊢
    cases outer with
    | none => exact .none
    | some same =>
        refine .some ⟨same.1, ?_, ?_⟩
        · rw [here]
          exact same.2.1
        · rw [extends_.frame _ (Nat.lt_trans same.1 present)]
          exact same.2.2

theorem suspends (extends_ : Extends m m' store after) {id : ThunkId} {suspension : Suspension}
    (present : id < store.thunks.size) (suspends : m.Suspends frames store id suspension) :
    m'.Suspends frames after id suspension := by
  obtain ⟨value, bound⟩ := extends_.value id present
  cases suspension with
  | waiting code frame kept =>
      refine ⟨Nat.lt_of_lt_of_le suspends.1 extends_.frames, ?_⟩
      rw [value, bound, extends_.frame frame suspends.1]
      exact suspends.2
  | settled v =>
      refine extends_.stands ?_
      rw [value]
      exact suspends

end Extends

/-! Variables. -/

theorem binds_zip (names : List Value) {frame : FrameId} {vs us : List Value}
    (given : List.Forall₂ (m.Binds store frame) vs us) :
    List.Forall₂ (fun entry entry' => entry.1 = entry'.1 ∧ m.Binds store frame entry.2 entry'.2)
      (names.zip vs) (names.zip us) := by
  induction given generalizing names with
  | nil => simp
  | cons first _ ih =>
      cases names with
      | nil => simp
      | cons name rest => exact .cons ⟨rfl, first⟩ (ih rest)

theorem Binds.inner {frame frame' : FrameId} {v u : Value} (binds : m.Binds store frame v u)
    (inner : frame ≤ frame') : m.Binds store frame' v u := by
  rcases binds with stands | ⟨id, same, present, meant, below⟩
  · exact .inl stands
  · exact .inr ⟨id, same, present, meant, Nat.le_trans below inner⟩

theorem find?_binds {frame : FrameId} {bindings others : Bindings} (name : Value)
    (each : List.Forall₂ (fun entry entry' => entry.1 = entry'.1 ∧
      m.Binds store frame entry.2 entry'.2)
      bindings others) :
    Option.Rel (m.Binds store frame) (bindings.find? name) (others.find? name) := by
  induction each with
  | nil => exact .none
  | @cons entry entry' rest rest' first _ ih =>
      simp only [Bindings.find?] at ih ⊢
      by_cases here : entry.1.same name = true
      · have there : entry'.1.same name = true := first.1 ▸ here
        simp only [List.find?_cons, here, there, Option.map_some]
        exact .some first.2
      · have there : ¬ entry'.1.same name = true := first.1 ▸ here
        simp only [List.find?_cons, here, there]
        exact ih

theorem Holds.bound? (holds : m.Holds frames store) (frame : FrameId) (name : String)
    (present : frame < store.frames.size) :
    Option.Rel (m.Binds store (m.frame frame)) (store.bound? frame name)
      (frames.bound? (m.frame frame) name) := by
  induction frame using Nat.strongRecOn with
  | ind frame ih =>
      obtain ⟨bindings, outer⟩ := holds.each frame present
      have here := find?_binds (.sym name) bindings
      rw [store.bound?_eq, frames.bound?_eq]
      generalize (store.frame frame).bindings.find? (.sym name) = found at here ⊢
      generalize (frames.frame (m.frame frame)).bindings.find? (.sym name) = found' at here ⊢
      generalize (store.frame frame).outer = around at outer ⊢
      generalize (frames.frame (m.frame frame)).outer = around' at outer ⊢
      cases here with
      | some binds => exact .some binds
      | none =>
          cases outer with
          | none => exact .none
          | @some around around' same =>
              obtain ⟨less, less', same⟩ := same
              have behind := ih around less (Nat.lt_trans less present)
              simp only [less, less', if_true]
              rw [same] at behind
              generalize store.bound? around name = v at behind ⊢
              generalize frames.bound? around' name = u at behind ⊢
              cases behind with
              | none => exact .none
              | some binds => exact .some (binds.inner (Nat.le_of_lt less'))

/-! Matches after single effects. -/

namespace Holds

variable (holds : m.Holds frames store)

include holds

theorem of_fresh (fresh : Nat) : m.Holds frames { store with fresh := fresh } := by
  have extends_ : Extends m m store { store with fresh := fresh } :=
    .of_sizes m (Nat.le_refl _) (Nat.le_refl _)
  refine ⟨fun number present => extends_.frames_match present (holds.each number present),
    fun id suspension found => ?_⟩
  obtain ⟨less, _⟩ := Array.getElem?_eq_some_iff.mp found
  exact extends_.suspends less (holds.suspended id suspension found)

theorem settle (id : ThunkId) (v : Value) (stands : m.Stands store v (m.value id)) :
    m.Holds frames (store.settle id v) ∧ Extends m m store (store.settle id v) := by
  have extends_ : Extends m m store (store.settle id v) :=
    .of_sizes m (Nat.le_refl _) (by simp [Store.settle])
  refine ⟨⟨fun number present => extends_.frames_match present (holds.each number present),
    fun other suspension found => ?_⟩, extends_⟩
  by_cases same : other = id
  · subst same
    have settled : suspension = .settled v := by
      simp only [Store.settle, Array.set!_eq_setIfInBounds,
        Array.getElem?_setIfInBounds_self] at found
      split at found
      · exact (Option.some.inj found).symm
      · cases found
    subst settled
    exact extends_.stands stands
  · rw [Store.settle_getElem?_of_ne v same] at found
    obtain ⟨less, _⟩ := Array.getElem?_eq_some_iff.mp found
    exact extends_.suspends less (holds.suspended other suspension found)

theorem addThunk (code : Value) (frame : FrameId) (kept : Bool) (u : Value) (bound : Nat)
    (present : frame < store.frames.size) (means : Means frames bound (m.frame frame) code u) :
    ∃ m' : Matching, Extends m m' store (store.addThunk code frame kept).2 ∧
      m'.Holds frames (store.addThunk code frame kept).2 ∧ m'.value store.thunks.size = u ∧
        m'.bound store.thunks.size = bound := by
  let m' : Matching := ⟨m.frame, Function.update m.value store.thunks.size u,
    Function.update m.bound store.thunks.size bound⟩
  have extends_ : Extends m m' store (store.addThunk code frame kept).2 := by
    refine ⟨Nat.le_refl _, by simp [Store.addThunk], fun _ _ => rfl, fun id less => ?_⟩
    have different := Nat.ne_of_lt less
    exact ⟨Function.update_of_ne different _ _, Function.update_of_ne different _ _⟩
  refine ⟨m', extends_, ⟨fun number present => extends_.frames_match present
    (holds.each number present), fun id suspension found => ?_⟩, Function.update_self ..,
    Function.update_self ..⟩
  simp only [Store.addThunk, Array.getElem?_push] at found
  split at found
  · next same =>
      cases found
      subst same
      refine ⟨present, ?_⟩
      simp only [m', Function.update_self]
      exact means
  · obtain ⟨less, _⟩ := Array.getElem?_eq_some_iff.mp found
    exact extends_.suspends less (holds.suspended id suspension found)

theorem extend (home : FrameId) (bindings : Bindings) (inside : FrameId)
    (present : home < store.frames.size) (around : m.frame home < inside)
    (outer : (frames.frame inside).outer = some (m.frame home))
    (binds : List.Forall₂ (fun entry entry' => entry.1 = entry'.1 ∧
    m.Binds store inside entry.2 entry'.2)
      bindings (frames.frame inside).bindings) :
    ∃ m' : Matching, Extends m m' store (store.extend home bindings).2 ∧
      m'.Holds frames (store.extend home bindings).2 ∧ m'.frame store.frames.size = inside := by
  let m' : Matching := ⟨Function.update m.frame store.frames.size inside, m.value, m.bound⟩
  have extends_ : Extends m m' store (store.extend home bindings).2 :=
    ⟨by simp [Store.extend, Store.addFrame], Nat.le_refl _,
      fun _ less => Function.update_of_ne (Nat.ne_of_lt less) _ _, fun _ _ => ⟨rfl, rfl⟩⟩
  have here : m'.frame store.frames.size = inside := Function.update_self ..
  refine ⟨m', extends_, ⟨fun number less => ?_, fun id suspension found => ?_⟩, here⟩
  · by_cases last : number = store.frames.size
    · subst last
      rw [Store.frame_extend_self, here]
      constructor
      · refine binds.imp fun entry entry' same => And.intro same.1 ?_
        rw [here]
        exact extends_.binds same.2
      · rw [outer, here]
        exact .some ⟨present, around, extends_.frame home present⟩
    · have old : number < store.frames.size := by
        simp only [Store.extend, Store.addFrame, Array.size_push] at less
        omega
      rw [(Store.Grows.extend store home bindings).2 number old, extends_.frame number old]
      exact extends_.frames_match old (holds.each number old)
  · obtain ⟨less, _⟩ := Array.getElem?_eq_some_iff.mp found
    exact extends_.suspends less (holds.suspended id suspension found)

end Holds

end Matching

end ThunkLisp
