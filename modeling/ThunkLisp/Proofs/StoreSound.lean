import ThunkLisp.Proofs.Effects
import ThunkLisp.Proofs.Readable

/-!
Sound stores. A policy says what a store may hold: values made of inert leaves and of procedures
with inert bodies; suspensions of inert code; and marks of unassigned variables in the places that
the policy allows. It may also hide one suspension, which then is bound to one variable only, and
code that is run where this variable is visible does not use its name. Whatever evaluation does to a
store keeps it sound.
-/

namespace ThunkLisp

open Value (Every)

def Operation.isDefault : Operation → Bool
  | .added _ => false
  | _ => true

theorem Operation.isDefault_iff (operation : Operation) :
    operation.isDefault = true ↔ ∀ name, operation ≠ .added name := by
  cases operation <;> simp [isDefault]

/-- Leaves from which no frame and no suspension is reached, and which do not act on one: those of
source texts, and objects and default primitives that have been put into code. -/
def Value.isInert : Value → Bool
  | .nil | .absent | .bool _ | .int _ | .float _ | .nan _ | .str _ | .sym _ | .foreign _ => true
  | .primitive p => p.operation.isDefault
  | _ => false

abbrev Inert (code : Value) : Prop := Every (fun leaf => leaf.isInert = true) code

theorem inert_of_isReadable {leaf : Value} (readable : leaf.isReadable = true) :
    leaf.isInert = true := by
  cases leaf <;> first | rfl | cases readable

theorem inert_basics : HasBasics fun leaf => leaf.isInert = true :=
  ⟨fun _ => rfl, rfl, fun _ => rfl⟩

structure Policy where
  /-- marks may be values -/
  loose : Bool
  /-- marks may be suspended -/
  suspends : Bool
  /-- a suspension that is not used, with other code for it -/
  hidden : Option (ThunkId × Value)
  /-- the frame and the name that it is bound to -/
  place : Option (FrameId × String)

namespace Policy

variable (policy : Policy)

def Hides (id : ThunkId) : Prop := ∃ code, policy.hidden = some (id, code)

def Uses (store : Store) (frame : FrameId) (name : String) : Prop :=
  ∀ owner unused, policy.place = some (owner, unused) → owner ∈ store.chain frame → name ≠ unused

/-- Code that may be run in the frame. -/
def Runs (store : Store) (frame : FrameId) (code : Value) : Prop :=
  Code (policy.Uses store frame) (fun leaf => leaf.isInert = true) code

def Leaf (store : Store) : Value → Prop
  | .procedure _ _ body frame =>
      frame < store.frames.size ∧ ∀ form ∈ body, policy.Runs store frame form
  | .unassigned => policy.loose = true
  | v => v.isInert = true

def Suspended (store : Store) : Suspension → Prop
  | .settled v => Every (policy.Leaf store) v
  | .waiting code frame _ => frame < store.frames.size ∧ policy.Runs store frame code

def Delayed (store : Store) (id : ThunkId) : Prop :=
  ¬ policy.Hides id ∧ ∃ suspension, store.thunks[id]? = some suspension ∧
    ∀ frame, suspension ≠ .waiting mark frame false

/-- A mark, or a suspension of one. -/
def Placeholder (store : Store) (v : Value) : Prop :=
  v = .unassigned ∨ ∃ id frame, v = .thunk id ∧ ¬ policy.Hides id ∧ policy.suspends = true ∧
    store.thunks[id]? = some (.waiting mark frame false)

/-- What a variable may be bound to, given the variables that a `letrec` has opened. -/
inductive Bound (opened : FrameId → String → Prop) (store : Store) (frame : FrameId)
    (name : String) :
    Value → Prop where
  | value (v : Value) (every : Every (policy.Leaf store) v) : Bound opened store frame name v
  | delayed (id : ThunkId) (holds : policy.Delayed store id) :
      Bound opened store frame name (.thunk id)
  | placeholder (v : Value) (here : policy.loose = true ∨ opened frame name)
      (holds : policy.Placeholder store v) : Bound opened store frame name v
  | hidden (id : ThunkId) (here : policy.place = some (frame, name)) (hides : policy.Hides id) :
      Bound opened store frame name (.thunk id)

structure Sound (opened : FrameId → String → Prop) (store : Store) : Prop where
  outer : ∀ frame around, (store.frame frame).outer = some around → around < frame
  bound : ∀ frame, ∀ entry ∈ (store.frame frame).bindings,
    ∃ name, entry.1 = .sym name ∧ policy.Bound opened store frame name entry.2
  suspended : ∀ (id : ThunkId) suspension, store.thunks[id]? = some suspension →
    policy.Hides id ∨
      (policy.suspends = true ∧ ∃ frame < store.frames.size,
        suspension = .waiting mark frame false) ∨
      policy.Suspended store suspension
  checked : policy.loose = false → ∀ frame < store.frames.size, (store.frame frame).checked = true
  hidden : ∀ id, policy.Hides id → ∃ code frame kept, store.thunks[id]? =
    some (.waiting code frame kept)
  place : ∀ owner name, policy.place = some (owner, name) → owner < store.frames.size

end Policy

/-! How stores evolve. -/

def Suspension.isKept : Suspension → Bool
  | .waiting _ _ kept => kept
  | .settled _ => true

/-- A suspension stays as it is, or one that is kept gets a value. -/
def Suspension.Becomes (old new : Suspension) : Prop :=
  old = new ∨ old.isKept = true ∧ ∃ v, new = .settled v

theorem Suspension.Becomes.trans {a b c : Suspension} (first : a.Becomes b) (second : b.Becomes c) :
    a.Becomes c := by
  rcases first with rfl | ⟨kept, v, rfl⟩
  · exact second
  · rcases second with rfl | ⟨_, w, rfl⟩
    · exact .inr ⟨kept, v, rfl⟩
    · exact .inr ⟨kept, w, rfl⟩

structure Store.Evolves (store after : Store) : Prop where
  size : store.frames.size ≤ after.frames.size
  outer : ∀ frame < store.frames.size, (after.frame frame).outer = (store.frame frame).outer
  checked : ∀ frame < store.frames.size, (after.frame frame).checked = (store.frame frame).checked
  thunks : ∀ (id : ThunkId) old, store.thunks[id]? = some old →
    ∃ new, after.thunks[id]? = some new ∧ old.Becomes new

namespace Store.Evolves

variable {a b c : Store}

theorem refl (store : Store) : store.Evolves store :=
  ⟨Nat.le_refl _, fun _ _ => rfl, fun _ _ => rfl, fun _ old found => ⟨old, found, .inl rfl⟩⟩

theorem trans (first : a.Evolves b) (second : b.Evolves c) : a.Evolves c := by
  refine ⟨Nat.le_trans first.size second.size, fun frame less => ?_, fun frame less => ?_,
    fun id old found => ?_⟩
  · rw [second.outer frame (Nat.lt_of_lt_of_le less first.size), first.outer frame less]
  · rw [second.checked frame (Nat.lt_of_lt_of_le less first.size), first.checked frame less]
  · obtain ⟨new, found', step⟩ := first.thunks id old found
    obtain ⟨newer, found'', step'⟩ := second.thunks id new found'
    exact ⟨newer, found'', step.trans step'⟩

theorem chain (evolves : a.Evolves b) (frame : FrameId) (present : frame < a.frames.size) :
    b.chain frame = a.chain frame := by
  induction frame using Nat.strongRecOn with
  | ind frame ih =>
      rw [Store.chain, Store.chain, evolves.outer frame present]
      cases (a.frame frame).outer with
      | none => rfl
      | some next =>
          by_cases less : next < frame
          · simp only [less, if_true]
            rw [ih next less (Nat.lt_trans less present)]
          · simp only [less, if_false]

theorem of_same (frames : b.frames = a.frames) (thunks : b.thunks = a.thunks) : a.Evolves b := by
  refine ⟨Nat.le_of_eq (by rw [frames]), fun _ _ => ?_, fun _ _ => ?_, fun id old found => ?_⟩
  · simp [Store.frame, frames]
  · simp [Store.frame, frames]
  · exact ⟨old, by rw [thunks, found], .inl rfl⟩

theorem bind (store : Store) (frame : FrameId) (name v : Value) :
    store.Evolves (store.bind frame name v) := by
  have same (other : FrameId) : ((store.bind frame name v).frame other).outer =
      (store.frame other).outer ∧
      ((store.bind frame name v).frame other).checked = (store.frame other).checked := by
    by_cases here : other = frame
    · subst here
      by_cases present : other < store.frames.size
      · rw [store.frame_bind_self other name v present]
        exact ⟨rfl, rfl⟩
      · simp [Store.frame, Store.bind, Array.getD_eq_getD_getElem?, present]
    · rw [store.frame_bind_of_ne frame other name v here]
      exact ⟨rfl, rfl⟩
  refine ⟨by simp [Store.bind], fun other _ => (same other).1, fun other _ => (same other).2, ?_⟩
  exact fun id old found => ⟨old, found, .inl rfl⟩

theorem addFrame (store : Store) (bindings : Bindings) (around : Option FrameId)
    (checked : Option Bool) :
    store.Evolves (store.addFrame bindings around checked).2 := by
  refine ⟨by simp [Store.addFrame], fun frame less => ?_, fun frame less => ?_, ?_⟩
  · rw [store.frame_addFrame_of_lt bindings around checked frame less]
  · rw [store.frame_addFrame_of_lt bindings around checked frame less]
  · exact fun id old found => ⟨old, found, .inl rfl⟩

theorem addThunk (store : Store) (code : Value) (frame : FrameId) (kept : Bool) :
    store.Evolves (store.addThunk code frame kept).2 := by
  refine ⟨Nat.le_refl _, fun _ _ => rfl, fun _ _ => rfl, fun id old found => ⟨old, ?_, .inl rfl⟩⟩
  obtain ⟨less, _⟩ := Array.getElem?_eq_some_iff.mp found
  simp only [Store.addThunk, Array.getElem?_push]
  rw [if_neg (by omega), found]

theorem settle (store : Store) (id : ThunkId) (v : Value) (suspension : Suspension)
    (found : store.thunks[id]? = some suspension) (kept : suspension.isKept = true) :
    store.Evolves (store.settle id v) := by
  refine ⟨Nat.le_refl _, fun _ _ => rfl, fun _ _ => rfl, fun other old was => ?_⟩
  by_cases same : other = id
  · subst same
    rw [found] at was
    obtain rfl := Option.some.inj was
    obtain ⟨less, _⟩ := Array.getElem?_eq_some_iff.mp found
    exact ⟨.settled v, by simp [Store.settle, less], .inr ⟨kept, v, rfl⟩⟩
  · exact ⟨old, by simpa [Store.settle,
      Array.getElem?_setIfInBounds, Ne.symm same] using was, .inl rfl⟩

end Store.Evolves

namespace Store

variable (store : Store) (frame : FrameId) (bindings : Bindings)

theorem frame_extend_self : (store.extend frame bindings).2.frame store.frames.size =
    ⟨bindings, some frame, (store.frame frame).checked⟩ := by
  simp [extend, addFrame, Store.frame, Array.getD_eq_getD_getElem?]

theorem bindings_addFrame_self (outer : Option FrameId) (checked : Option Bool) :
    ((store.addFrame bindings outer checked).2.frame store.frames.size).bindings = bindings := by
  simp [addFrame, Store.frame, Array.getD_eq_getD_getElem?]

theorem outer_addFrame_self (outer : Option FrameId) (checked : Option Bool) :
    ((store.addFrame bindings outer checked).2.frame store.frames.size).outer = outer := by
  simp [addFrame, Store.frame, Array.getD_eq_getD_getElem?]

theorem frame_addFrame_of_gt (outer : Option FrameId) (checked : Option Bool) (other : FrameId)
    (more : store.frames.size < other) :
    (store.addFrame bindings outer checked).2.frame other = {} := by
  have absent : ¬ other < store.frames.size + 1 := Nat.not_lt.mpr more
  simp [addFrame, Store.frame, Array.getD_eq_getD_getElem?, absent]

end Store

namespace Bindings

theorem mem_put {bindings : Bindings} {name v : Value} {entry : Value × Value}
    (member : entry ∈ bindings.put name v) : entry ∈ bindings ∨ entry.2 = v ∧
      (entry.1 = name ∨ ∃ old ∈ bindings, old.1 = entry.1) := by
  induction bindings with
  | nil =>
      obtain rfl := List.mem_singleton.mp member
      exact .inr ⟨rfl, .inl rfl⟩
  | cons first rest ih =>
      unfold Bindings.put at member
      split at member
      · rcases List.mem_cons.mp member with rfl | behind
        · exact .inr ⟨rfl, .inr ⟨first, by simp⟩⟩
        · exact .inl (by simp [behind])
      · rcases List.mem_cons.mp member with rfl | behind
        · exact .inl (by simp)
        · rcases ih behind with old | ⟨same, key⟩
          · exact .inl (by simp [old])
          · refine .inr ⟨same, ?_⟩
            rcases key with here | ⟨old, inside, key⟩
            · exact .inl here
            · exact .inr ⟨old, by simp [inside], key⟩

end Bindings

namespace Store

variable {store : Store} {frame other : FrameId} {entry : Value × Value}

theorem mem_bindings_bind {name v : Value}
    (member : entry ∈ ((store.bind frame name v).frame other).bindings) :
    entry ∈ (store.frame other).bindings ∨
      entry.2 = v ∧ (entry.1 = name ∨ ∃ old ∈ (store.frame other).bindings, old.1 = entry.1) := by
  by_cases here : other = frame
  · subst here
    by_cases present : other < store.frames.size
    · rw [store.frame_bind_self other name v present] at member
      exact Bindings.mem_put member
    · simp [Store.frame, Store.bind, Array.getD_eq_getD_getElem?, present] at member
  · rw [store.frame_bind_of_ne frame other name v here] at member
    exact .inl member

theorem mem_bindings_addFrame {bindings : Bindings} {outer : Option FrameId}
    {checked : Option Bool}
    (member : entry ∈ ((store.addFrame bindings outer checked).2.frame other).bindings) :
    entry ∈ (store.frame other).bindings ∨ other = store.frames.size ∧ entry ∈ bindings := by
  rcases Nat.lt_trichotomy other store.frames.size with less | rfl | more
  · rw [store.frame_addFrame_of_lt bindings outer checked other less] at member
    exact .inl member
  · rw [store.bindings_addFrame_self] at member
    exact .inr ⟨rfl, member⟩
  · rw [store.frame_addFrame_of_gt bindings outer checked other more] at member
    cases member

theorem outer_addFrame {bindings : Bindings} {outer : Option FrameId} {checked : Option Bool}
    {around : FrameId}
    (found : ((store.addFrame bindings outer checked).2.frame other).outer = some around) :
    (store.frame other).outer = some around ∨ other = store.frames.size ∧ outer = some around := by
  rcases Nat.lt_trichotomy other store.frames.size with less | rfl | more
  · rw [store.frame_addFrame_of_lt bindings outer checked other less] at found
    exact .inl found
  · rw [store.outer_addFrame_self] at found
    exact .inr ⟨rfl, found⟩
  · rw [store.frame_addFrame_of_gt bindings outer checked other more] at found
    cases found

end Store

/-! What stays so. -/

namespace Store.Evolves

variable {policy : Policy} {store after : Store}

theorem uses_iff (evolves : store.Evolves after) (frame : FrameId)
    (present : frame < store.frames.size) (name : String) :
    policy.Uses after frame name ↔ policy.Uses store frame name := by
  unfold Policy.Uses
  rw [evolves.chain frame present]

theorem runs (evolves : store.Evolves after) {frame : FrameId} (present : frame < store.frames.size)
    {code : Value} (holds : policy.Runs store frame code) : policy.Runs after frame code :=
  holds.imp fun name => (evolves.uses_iff frame present name).mpr

theorem leaf (evolves : store.Evolves after) (v : Value) (holds : policy.Leaf store v) :
    policy.Leaf after v := by
  cases v with
  | procedure identity params body frame =>
      obtain ⟨present, each⟩ := holds
      exact ⟨Nat.lt_of_lt_of_le present evolves.size, fun form member =>
        evolves.runs present (each form member)⟩
  | _ => exact holds

theorem value (evolves : store.Evolves after) {v : Value} (every : Every (policy.Leaf store) v) :
    Every (policy.Leaf after) v :=
  every.imp evolves.leaf

theorem suspension (evolves : store.Evolves after) (suspension : Suspension)
    (holds : policy.Suspended store suspension) : policy.Suspended after suspension := by
  cases suspension with
  | settled v => exact evolves.value holds
  | waiting code frame kept =>
      exact ⟨Nat.lt_of_lt_of_le holds.1 evolves.size, evolves.runs holds.1 holds.2⟩

end Store.Evolves

namespace Policy

variable {policy : Policy} {opened opened' : FrameId → String → Prop} {store after : Store}

theorem not_hides (nothing : policy.hidden = none) (id : ThunkId) : ¬ policy.Hides id := by
  rintro ⟨code, same⟩
  simp [nothing] at same

theorem Delayed.evolve {id : ThunkId} (evolves : store.Evolves after)
    (delayed : policy.Delayed store id) :
    policy.Delayed after id := by
  obtain ⟨used, old, found, unmarked⟩ := delayed
  obtain ⟨new, found', becomes⟩ := evolves.thunks id old found
  refine ⟨used, new, found', ?_⟩
  rcases becomes with rfl | ⟨_, v, rfl⟩
  · exact unmarked
  · exact fun frame same => nomatch same

theorem Placeholder.evolve {v : Value} (evolves : store.Evolves after)
    (placeholder : policy.Placeholder store v) : policy.Placeholder after v := by
  rcases placeholder with rfl | ⟨id, frame, rfl, used, suspends, found⟩
  · exact .inl rfl
  · obtain ⟨new, found', becomes⟩ := evolves.thunks id _ found
    rcases becomes with rfl | ⟨kept, _⟩
    · exact .inr ⟨id, frame, rfl, used, suspends, found'⟩
    · cases kept

theorem Bound.evolve {frame : FrameId} {name : String} {v : Value} (evolves : store.Evolves after)
    (more : ∀ frame name, opened frame name → opened' frame name)
    (bound : policy.Bound opened store frame name v) : policy.Bound opened' after frame name v := by
  cases bound with
  | value v every => exact .value v (evolves.value every)
  | delayed id holds => exact .delayed id (holds.evolve evolves)
  | placeholder v here holds => exact .placeholder v (here.imp_right (more _ _)) (holds.evolve
      evolves)
  | hidden id here hides => exact .hidden id here hides

/-- A store is sound again if what is new in it is. -/
theorem Sound.evolve (sound : policy.Sound opened store) (evolves : store.Evolves after)
    (more : ∀ frame name, opened frame name → opened' frame name)
    (outer : ∀ frame around, (after.frame frame).outer = some around → around < frame)
    (bound : ∀ frame, ∀ entry ∈ (after.frame frame).bindings, entry ∈ (store.frame frame).bindings ∨
      ∃ name, entry.1 = .sym name ∧ policy.Bound opened' after frame name entry.2)
    (suspended : ∀ (id : ThunkId) suspension, after.thunks[id]? = some suspension →
      store.thunks[id]? = some suspension ∨
        (policy.suspends = true ∧ ∃ frame < after.frames.size,
          suspension = .waiting mark frame false) ∨
        policy.Suspended after suspension)
    (checked : policy.loose = false → ∀ frame < after.frames.size, (after.frame frame).checked =
      true)
    (hidden : ∀ id : ThunkId, policy.Hides id → after.thunks[id]? = store.thunks[id]?) :
    policy.Sound opened' after := by
  refine ⟨outer, fun frame entry member => ?_, fun id suspension found => ?_, checked,
    fun id hides => hidden id hides ▸ sound.hidden id hides,
    fun owner name here => Nat.lt_of_lt_of_le (sound.place owner name here) evolves.size⟩
  · rcases bound frame entry member with old | new
    · obtain ⟨name, key, holds⟩ := sound.bound frame entry old
      exact ⟨name, key, holds.evolve evolves more⟩
    · exact new
  · rcases suspended id suspension found with old | new
    · rcases sound.suspended id suspension old with hides | ⟨suspends, frame, less, rfl⟩ | holds
      · exact .inl hides
      · exact .inr (.inl ⟨suspends, frame, Nat.lt_of_lt_of_le less evolves.size, rfl⟩)
      · exact .inr (.inr (evolves.suspension suspension holds))
    · exact .inr new

theorem Sound.present_of_hides (sound : policy.Sound opened store) (id : ThunkId)
    (hides : policy.Hides id) :
    id < store.thunks.size := by
  obtain ⟨code, frame, kept, found⟩ := sound.hidden id hides
  exact (Array.getElem?_eq_some_iff.mp found).1

theorem Sound.more (sound : policy.Sound opened store)
    (more : ∀ frame name, opened frame name → opened' frame name) : policy.Sound opened' store :=
  sound.evolve (.refl store) more sound.outer (fun _ _ member => .inl member)
    (fun _ _ found => .inl found)
    sound.checked fun _ _ => rfl

/-! What evaluation does to a store. -/

namespace Sound

theorem of_same (sound : policy.Sound opened store) (frames : after.frames = store.frames)
    (thunks : after.thunks = store.thunks) : policy.Sound opened after := by
  have same (frame : FrameId) : after.frame frame = store.frame frame := by
    simp [Store.frame, frames]
  refine sound.evolve (.of_same frames thunks) (fun _ _ holds => holds) ?_ ?_ ?_ ?_ fun _ _ => by
    rw [thunks]
  · exact fun frame around found => sound.outer frame around (by rw [← same]; exact found)
  · exact fun frame entry member => .inl (by rw [← same]; exact member)
  · exact fun id suspension found => .inl (by rw [← thunks]; exact found)
  · intro strict frame less
    rw [same]
    exact sound.checked strict frame (by rw [← frames]; exact less)

theorem bind (sound : policy.Sound opened store) (frame : FrameId) (name : String) (v : Value)
    (every : Every (policy.Leaf store) v) : policy.Sound opened
      (store.bind frame (.sym name) v) := by
  have evolves := Store.Evolves.bind store frame (.sym name) v
  refine sound.evolve evolves (fun _ _ holds => holds) ?_ ?_ ?_ ?_ fun _ _ => rfl
  · intro other around found
    by_cases present : other < store.frames.size
    · exact sound.outer other around (by rw [← evolves.outer other present]; exact found)
    · simp [Store.frame, Store.bind, Array.getD_eq_getD_getElem?, present] at found
  · intro other entry member
    rcases Store.mem_bindings_bind member with old | ⟨same, key⟩
    · exact .inl old
    · refine .inr ?_
      rcases key with key | ⟨old, inside, key⟩
      · exact ⟨name, key, by rw [same]; exact .value v (evolves.value every)⟩
      · obtain ⟨found, symbol, _⟩ := sound.bound other old inside
        exact ⟨found, by rw [← key, symbol], by rw [same]; exact .value v (evolves.value every)⟩
  · exact fun id suspension found => .inl found
  · intro strict other less
    have present : other < store.frames.size := by simpa [Store.bind] using less
    rw [evolves.checked other present]
    exact sound.checked strict other present

theorem addFrame (sound : policy.Sound opened store) (bindings : Bindings)
    (outer : Option FrameId) (checked : Option Bool)
    (present : ∀ around, outer = some around → around < store.frames.size)
    (bound : ∀ entry ∈ bindings, ∃ name, entry.1 = .sym name ∧
      policy.Bound opened (store.addFrame bindings outer checked).2 store.frames.size name entry.2)
    (strict : policy.loose = false →
      ((store.addFrame bindings outer checked).2.frame store.frames.size).checked = true) :
    policy.Sound opened (store.addFrame bindings outer checked).2 := by
  refine sound.evolve (.addFrame store bindings outer checked) (fun _ _ holds => holds) ?_ ?_
    (fun id suspension found => .inl found) ?_ fun _ _ => rfl
  · intro other around found
    rcases Store.outer_addFrame found with before | ⟨rfl, same⟩
    · exact sound.outer other around before
    · exact present around same
  · intro other entry member
    rcases Store.mem_bindings_addFrame member with before | ⟨rfl, among⟩
    · exact .inl before
    · exact .inr (bound entry among)
  · intro tight other less
    have within : other < store.frames.size + 1 := by simpa [Store.addFrame] using less
    rcases Nat.lt_succ_iff_lt_or_eq.mp within with less | rfl
    · rw [store.frame_addFrame_of_lt bindings outer checked other less]
      exact sound.checked tight other less
    · exact strict tight

theorem extend (sound : policy.Sound opened store) (frame : FrameId) (bindings : Bindings)
    (present : frame < store.frames.size)
    (bound : ∀ entry ∈ bindings, ∃ name, entry.1 = .sym name ∧
      policy.Bound opened (store.extend frame bindings).2 store.frames.size name entry.2) :
    policy.Sound opened (store.extend frame bindings).2 := by
  refine sound.addFrame bindings (some frame) none (fun around same => ?_) bound fun tight => ?_
  · cases same
    exact present
  · have opening := store.frame_extend_self frame bindings
    rw [Store.extend] at opening
    rw [opening]
    exact sound.checked tight frame present

theorem addThunk (sound : policy.Sound opened store) (code : Value) (frame : FrameId) (kept : Bool)
    (holds : policy.Hides store.thunks.size ∨
      (policy.suspends = true ∧ frame < store.frames.size ∧ code = mark ∧ kept = false) ∨
      frame < store.frames.size ∧ policy.Runs store frame code) :
    policy.Sound opened (store.addThunk code frame kept).2 := by
  have evolves := Store.Evolves.addThunk store code frame kept
  refine ⟨sound.outer, fun other entry member => ?_, fun id suspension found => ?_, sound.checked,
    fun id hides => ?_, sound.place⟩
  · obtain ⟨name, key, bound⟩ := sound.bound other entry member
    exact ⟨name, key, bound.evolve evolves fun _ _ holds => holds⟩
  · simp only [Store.addThunk, Array.getElem?_push] at found
    split at found
    · next here =>
        subst here
        obtain rfl := Option.some.inj found
        rcases holds with hides | ⟨suspends, present, rfl, rfl⟩ | ⟨present, runs⟩
        · exact .inl hides
        · exact .inr (.inl ⟨suspends, frame, present, rfl⟩)
        · exact .inr (.inr ⟨present, evolves.runs present runs⟩)
    · rcases sound.suspended id suspension found with hides | marked | holds
      · exact .inl hides
      · exact .inr (.inl marked)
      · exact .inr (.inr (evolves.suspension suspension holds))
  · obtain ⟨waiting, home, keeps, found⟩ := sound.hidden id hides
    have less := sound.present_of_hides id hides
    refine ⟨waiting, home, keeps, ?_⟩
    simp only [Store.addThunk, Array.getElem?_push]
    rw [if_neg (Nat.ne_of_lt less), found]

theorem settle (sound : policy.Sound opened store) (id : ThunkId) (v : Value)
    (suspension : Suspension) (visible : ¬ policy.Hides id)
    (found : store.thunks[id]? = some suspension) (kept : suspension.isKept = true)
    (every : Every (policy.Leaf store) v) :
    policy.Sound opened (store.settle id v) := by
  have evolves := Store.Evolves.settle store id v suspension found kept
  refine sound.evolve evolves (fun _ _ holds => holds) sound.outer (fun _ _ member => .inl member)
    (fun other new was => ?_) sound.checked fun other hides =>
      Store.settle_getElem?_of_ne v fun same => visible (same ▸ hides)
  by_cases same : other = id
  · subst same
    obtain ⟨less, _⟩ := Array.getElem?_eq_some_iff.mp found
    simp only [Store.settle, Array.set!_eq_setIfInBounds, Array.getElem?_setIfInBounds] at was
    simp only [if_true, less] at was
    obtain rfl := Option.some.inj was
    exact .inr (.inr (evolves.value every))
  · exact .inl (by simpa [Store.settle, Array.getElem?_setIfInBounds, Ne.symm same] using was)

end Sound

end Policy

end ThunkLisp
