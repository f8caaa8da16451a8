import Mathlib
import ThunkLisp.Proofs.ExpandedLeaves
import ThunkLisp.Proofs.Operations
import ThunkLisp.Proofs.References
import ThunkLisp.Proofs.StoreSound
import ThunkLisp.Proofs.SuspensionTexts

/-!
A spare suspension. If a store has one suspension more than another, the suspensions behind it have
other numbers. These numbers are found in variables only, as long as values and code refer to none
but older suspensions, so the two stores are alike but for what variables are bound to.
-/

namespace ThunkLisp

open Value (Every)

/-! Values and code with older suspensions. -/

/-- Every suspension in the value is older than the one with this number, also in the code that a
procedure has. -/
def Value.Older (spare : Nat) (v : Value) : Prop := ∀ id, .thunk id ∈ v.refs → id < spare

namespace Value

variable {spare : Nat}

theorem Older.mono {v : Value} (older : v.Older spare) {later : Nat} (le : spare ≤ later) :
    v.Older later :=
  fun id member => Nat.lt_of_lt_of_le (older id member) le

theorem every_older_iff (v : Value) : Every (Older spare) v ↔ v.Older spare := by
  have same := every_refs_iff (fun ref => ∀ id, ref = .thunk id → id < spare) v
  constructor
  · intro every id member
    refine same.mp (every.imp fun leaf older ref inside id found => ?_) _ member id rfl
    exact older id (found ▸ inside)
  · intro older
    have each := same.mpr fun ref inside id found => older id (found ▸ inside)
    exact each.imp fun leaf all id inside => all _ inside id rfl

theorem older_list (items : List Value) : (list items).Older spare ↔
    ∀ v ∈ items, v.Older spare := by
  simp only [← every_older_iff, every_list]

theorem older_procedure (identity : Nat) (params : List Param) (body : List Value)
    (frame : FrameId) :
    (procedure identity params body frame).Older spare ↔ ∀ code ∈ body, code.Older spare := by
  simp only [Older, refs, List.mem_cons, reduceCtorEq, false_or, mem_refsOf]
  constructor
  · intro older code member id inside
    exact older id ⟨code, member, inside⟩
  · rintro older id ⟨code, member, inside⟩
    exact older code member id inside

theorem older_thunk (id : ThunkId) : (thunk id).Older spare ↔ id < spare := by
  simp [Older, refs]

theorem older_sym (name : String) : (sym name).Older spare := fun _ => nofun

theorem older_nil : nil.Older spare := fun _ => nofun

theorem older_unassigned : unassigned.Older spare := fun _ => nofun

theorem older_results : HasResults (Older spare) :=
  ⟨older_nil, fun _ _ => nofun, fun _ _ => nofun, fun _ _ => nofun, fun _ _ => nofun, fun _ _ =>
    nofun⟩

theorem older_words : HasFormWords (Older spare) :=
  ⟨fun name _ => older_sym name, older_nil, fun _ _ => nofun, fun _ => nofun⟩

/-- What a variable may be bound to while there are so many suspensions: one of them, or a value in
which all are older than the spare one. -/
def Held (spare count : Nat) (v : Value) : Prop := v.Older spare ∨ ∃ id < count, v = .thunk id

theorem Held.mono {count : Nat} {v : Value} (held : v.Held spare count) {more : Nat}
    (le : count ≤ more) :
    v.Held spare more :=
  held.imp_right fun ⟨id, present, same⟩ => ⟨id, Nat.lt_of_lt_of_le present le, same⟩

end Value

/-- The code or the value refers to older suspensions only. A suspension of just another one is made
after that, and what has been kept is no suspension. -/
def Suspension.Orderly (spare : Nat) (id : ThunkId) : Suspension → Prop
  | .waiting code _ _ => code.Older spare ∧ ∀ next, code = .thunk next → next < id
  | .settled v => v.Older spare ∧ v.isThunk = false

/-- The suspensions that the store refers to are there, and from the spare one on they are found in
variables only. -/
structure Store.Orderly (store : Store) (spare : Nat) : Prop where
  old : spare ≤ store.thunks.size
  held : ∀ frame, ∀ entry ∈ (store.frame frame).bindings, entry.2.Held spare store.thunks.size
  thunk : ∀ id, (store.thunk id).Orderly spare id

namespace Store.Orderly

variable {store : Store} {spare : Nat} (orderly : store.Orderly spare)

include orderly

theorem of_same {after : Store} (frames : after.frames = store.frames)
    (thunks : after.thunks = store.thunks) :
    after.Orderly spare := by
  have same (frame : FrameId) : after.frame frame = store.frame frame := by
    simp [Store.frame, frames]
  have same' (id : ThunkId) : after.thunk id = store.thunk id := by simp [Store.thunk, thunks]
  exact ⟨thunks ▸ orderly.old, fun frame => same frame ▸ thunks ▸ orderly.held frame,
    fun id => same' id ▸ orderly.thunk id⟩

theorem bind (frame : FrameId) (name : Value) {v : Value} (held : v.Held spare store.thunks.size) :
    (store.bind frame name v).Orderly spare := by
  refine ⟨orderly.old, fun other entry member => ?_, orderly.thunk⟩
  rcases Store.mem_bindings_bind member with old | ⟨same, _⟩
  · exact orderly.held other entry old
  · exact same ▸ held

theorem extend (frame : FrameId) (bindings : Bindings)
    (held : ∀ entry ∈ bindings, entry.2.Held spare store.thunks.size) :
    (store.extend frame bindings).2.Orderly spare := by
  refine ⟨orderly.old, fun other entry member => ?_, orderly.thunk⟩
  rcases Store.mem_bindings_addFrame member with old | ⟨_, new⟩
  · exact orderly.held other entry old
  · exact held entry new

theorem addThunk {code : Value} (frame : FrameId) (kept : Bool) (older : code.Older spare) :
    (store.addThunk code frame kept).2.Orderly spare := by
  have size : (store.addThunk code frame kept).2.thunks.size = store.thunks.size + 1 := by
    simp [Store.addThunk]
  refine ⟨Nat.le_trans orderly.old (by omega), fun other entry member => ?_, fun id => ?_⟩
  · exact (orderly.held other entry member).mono (by omega)
  · by_cases last : id = store.thunks.size
    · have new : (store.addThunk code frame kept).2.thunk id = .waiting code frame kept := by
        simp [Store.addThunk, Store.thunk, Array.getD_eq_getD_getElem?, last]
      refine new ▸ ⟨older, fun next same => ?_⟩
      exact last ▸ Nat.lt_of_lt_of_le ((Value.older_thunk next).mp (same ▸ older)) orderly.old
    · have old : (store.addThunk code frame kept).2.thunk id = store.thunk id := by
        simp [Store.addThunk, Store.thunk, Array.getD_eq_getD_getElem?, Array.getElem?_push, last]
      exact old ▸ orderly.thunk id

theorem settle (id : ThunkId) {v : Value} (older : v.Older spare) (plain : v.isThunk = false) :
    (store.settle id v).Orderly spare := by
  have size : (store.settle id v).thunks.size = store.thunks.size := by simp [Store.settle]
  refine ⟨size ▸ orderly.old, fun other entry member => size ▸ orderly.held other entry member,
    fun other => ?_⟩
  by_cases present : id < store.thunks.size
  · rw [store.thunk_settle id other v present]
    split
    · exact ⟨older, plain⟩
    · exact orderly.thunk other
  · have same : (store.settle id v).thunks = store.thunks := by
      simp [Store.settle, Array.setIfInBounds, present]
    simpa [Store.thunk, same] using orderly.thunk other

theorem held_of_bound? {frame : FrameId} {name : String} {v : Value}
    (bound : store.bound? frame name = some v) :
    v.Held spare store.thunks.size := by
  obtain ⟨owner, _, member⟩ := Store.mem_of_bound? bound
  exact orderly.held owner _ member

theorem shown (id : ThunkId) : (store.thunk id).shown.Older spare := by
  have inside := orderly.thunk id
  cases found : store.thunk id with
  | waiting code frame kept => exact (found ▸ inside).1
  | settled v => exact (found ▸ inside).1

theorem layered : store.Layered := by
  refine ⟨fun id => ?_, fun id next same => ?_⟩
  · refine ((Value.every_older_iff _).mpr (orderly.shown id)).imp fun leaf older next same => ?_
    exact Nat.lt_of_lt_of_le ((Value.older_thunk next).mp (same ▸ older)) orderly.old
  · have inside := orderly.thunk id
    cases found : store.thunk id with
    | waiting code frame kept => exact (found ▸ inside).2 next (by
        simpa [found, Suspension.shown] using same)
    | settled v =>
        have plain := (found ▸ inside).2
        obtain rfl : v = .thunk next := by simpa [found, Suspension.shown] using same
        cases plain

end Store.Orderly

/-! The store with the spare suspension. -/

def pastSpare (spare id : Nat) : Nat := if id < spare then id else id + 1

/-- A suspension by its new number. Other values stay as they are. -/
def Value.past (spare : ThunkId) : Value → Value
  | .thunk id => .thunk (pastSpare spare id)
  | v => v

def Frame.past (spare : ThunkId) (frame : Frame) : Frame :=
  { frame with bindings := frame.bindings.map fun entry => (entry.1, entry.2.past spare) }

/-- The store with one more suspension, which has this number. -/
def Store.withSpare (store : Store) (spare : ThunkId) (suspension : Suspension) : Store :=
  { store with
    frames := store.frames.map (Frame.past spare)
    thunks := (store.thunks.toList.insertIdx spare suspension).toArray }

section Lists

variable {α : Type} (items : List α) (spare : Nat) (inside : spare ≤ items.length) (x new : α)

include inside

theorem insertIdx_concat : items.insertIdx spare x ++ [new] =
    (items ++ [new]).insertIdx spare x := by
  refine List.ext_getElem? fun i => ?_
  grind [List.length_insertIdx_of_le_length]

theorem insertIdx_set (i : Nat) :
    (items.insertIdx spare x).set (pastSpare spare i) new =
      (items.set i new).insertIdx spare x := by
  refine List.ext_getElem? fun j => ?_
  grind [List.length_insertIdx_of_le_length, pastSpare]

end Lists

theorem pastSpare_of_lt {spare id : Nat} (older : id < spare) : pastSpare spare id = id :=
  if_pos older

theorem Value.Older.past {v : Value} {spare : Nat} (older : v.Older spare) : v.past spare = v := by
  cases v with
  | thunk id => exact congrArg Value.thunk (pastSpare_of_lt ((Value.older_thunk id).mp older))
  | _ => rfl

namespace Bindings

variable (bindings : Bindings) (spare : ThunkId) (name : Value)

theorem find?_past : find? (bindings.map fun entry => (entry.1, entry.2.past spare)) name =
    (bindings.find? name).map (Value.past spare) := by
  simp only [find?, List.find?_map, Option.map_map]
  rfl

theorem put_past (v : Value) : put (bindings.map fun entry => (entry.1, entry.2.past spare)) name
    (v.past spare) =
    (bindings.put name v).map fun entry => (entry.1, entry.2.past spare) := by
  induction bindings with
  | nil => rfl
  | cons entry rest ih =>
      simp only [List.map_cons, put]
      split
      · rfl
      · rw [List.map_cons, ih]

end Bindings

namespace Store

variable (store : Store) (spare : Nat) (suspension : Suspension)

theorem withSpare_size : (store.withSpare spare suspension).frames.size = store.frames.size := by
  simp [withSpare]

theorem withSpare_frame (id : FrameId) :
    (store.withSpare spare suspension).frame id = (store.frame id).past spare := by
  simp only [frame, withSpare, Array.getD_eq_getD_getElem?, Array.getElem?_map]
  cases store.frames[id]? <;> rfl

theorem chain_of_outer {store after : Store}
    (same : ∀ id, (after.frame id).outer = (store.frame id).outer) (id : FrameId) :
    after.chain id = store.chain id := by
  induction id using Nat.strongRecOn with
  | ind id ih =>
      rw [chain, chain, same]
      cases (store.frame id).outer with
      | none => rfl
      | some next =>
          by_cases less : next < id
          · simp only [less, if_true]
            rw [ih next less]
          · simp only [less, if_false]

theorem withSpare_find? (id : FrameId) (name : Value) :
    (store.withSpare spare suspension).find? id name = store.find? id name := by
  have outer (id : FrameId) : ((store.withSpare spare suspension).frame id).outer =
      (store.frame id).outer := by
    rw [withSpare_frame]
    rfl
  have binds (id : FrameId) : ((store.withSpare spare suspension).frame id).bindings.binds name =
      (store.frame id).bindings.binds name := by
    rw [withSpare_frame, Bindings.binds, Frame.past, Bindings.find?_past, Option.isSome_map]
    rfl
  simp only [find?, chain_of_outer outer, binds]

theorem withSpare_bound? (id : FrameId) (name : String) :
    (store.withSpare spare suspension).bound? id name =
      (store.bound? id name).map (Value.past spare) := by
  simp only [bound?, withSpare_find?]
  cases store.find? id (.sym name) with
  | none => rfl
  | some owner => simp only [Option.bind_some, withSpare_frame, Frame.past, Bindings.find?_past]

variable {spare}

theorem withSpare_thunk (id : Nat) :
    (store.withSpare spare suspension).thunk (pastSpare spare id) = store.thunk id := by
  simp only [thunk, withSpare, Array.getD_eq_getD_getElem?,
    List.getElem?_toArray, List.getElem?_insertIdx, pastSpare]
  by_cases before : id < spare
  · simp [before]
  · have behind : ¬ id + 1 < spare := by omega
    have apart : id + 1 ≠ spare := by omega
    simp [before, behind, apart]

theorem withSpare_bind (id : FrameId) (name v : Value) :
    (store.withSpare spare suspension).bind id name (v.past spare) =
      (store.bind id name v).withSpare spare suspension := by
  have frames : (store.frames.map (Frame.past spare)).modify id (fun frame =>
      { frame with bindings := frame.bindings.put name (v.past spare) }) =
        (store.frames.modify id fun frame =>
          { frame with bindings := frame.bindings.put name v }).map
          (Frame.past spare) := by
    refine Array.ext_getElem? fun i => ?_
    simp only [Array.getElem?_modify, Array.getElem?_map]
    split
    · cases store.frames[i]? with
      | none => rfl
      | some frame => simp only [Option.map_some, Frame.past, Bindings.put_past]
    · rfl
  simp only [bind, withSpare, frames]

theorem withSpare_extend (id : FrameId) (bindings : Bindings) :
    (store.withSpare spare suspension).extend id (bindings.map fun entry =>
      (entry.1, entry.2.past spare)) =
      ((store.extend id bindings).1, (store.extend id bindings).2.withSpare spare suspension) := by
  have checked : ((store.withSpare spare suspension).frame id).checked =
      (store.frame id).checked := by
    rw [withSpare_frame]
    rfl
  simp only [extend, addFrame, checked, withSpare_size]
  simp [withSpare, Frame.past]

theorem withSpare_addThunk (present : spare ≤ store.thunks.size) (code : Value) (frame : FrameId)
    (kept : Bool) :
    (store.withSpare spare suspension).addThunk code frame kept =
      (pastSpare spare store.thunks.size, (store.addThunk code frame kept).2.withSpare spare
        suspension) := by
  have inside : spare ≤ store.thunks.toList.length := present
  have size : (store.thunks.toList.insertIdx spare suspension).length =
      pastSpare spare store.thunks.size := by
    rw [List.length_insertIdx_of_le_length inside, pastSpare, if_neg (Nat.not_lt.mpr present)]
    rfl
  simp [addThunk, withSpare, size, insertIdx_concat _ spare inside]

theorem withSpare_settle (present : spare ≤ store.thunks.size) (id : Nat) (v : Value) :
    (store.withSpare spare suspension).settle (pastSpare spare id) v =
      (store.settle id v).withSpare spare suspension := by
  have inside : spare ≤ store.thunks.toList.length := present
  simp [settle, withSpare, insertIdx_set _ spare inside]

end Store

/-! Texts beside the spare suspension. -/

namespace Store.Orderly

variable {store : Store} {spare : Nat} (orderly : store.Orderly spare) (suspension : Suspension)

include orderly

theorem thunkTextWithin_withSpare (depth : Nat) (around : List Value) (id : ThunkId) :
    (store.withSpare spare suspension).thunkTextWithin depth around (pastSpare spare id) =
      store.thunkTextWithin depth around id := by
  induction depth generalizing around id with
  | zero => rfl
  | succ depth ih =>
      rw [thunkTextWithin_succ, thunkTextWithin_succ, store.withSpare_thunk suspension]
      refine congrArg _ (Value.writtenWith_congr (p := (· < spare)) ?_ around []
        fun around _ next older => ?_)
      · refine ((Value.every_older_iff _).mpr (orderly.shown id)).imp fun leaf older next same => ?_
        exact (Value.older_thunk next).mp (same ▸ older)
      · have same := ih around next
        rwa [pastSpare_of_lt older] at same

theorem thunkText_withSpare (around : List Value) {id : ThunkId}
    (present : id < store.thunks.size) :
    (store.withSpare spare suspension).thunkTextWithin
        (2 * (store.withSpare spare suspension).thunks.size) around
        (pastSpare spare id) = store.thunkTextWithin (2 * store.thunks.size) around id := by
  have size : store.thunks.size ≤ (store.withSpare spare suspension).thunks.size := by
    have old : spare ≤ store.thunks.toList.length := orderly.old
    have longer := List.length_insertIdx_of_le_length old suspension
    simp [withSpare, longer]
  rw [orderly.thunkTextWithin_withSpare]
  exact thunkTextWithin_of_le orderly.layered (Nat.mul_le_mul_left 2 size) around present

theorem written_withSpare {v : Value} (held : v.Held spare store.thunks.size) :
    (store.withSpare spare suspension).written (v.past spare) = store.written v := by
  rcases held with older | ⟨id, present, rfl⟩
  · rw [older.past]
    refine Value.writtenWith_congr (p := (· < spare)) ?_ [] [] fun around _ next before => ?_
    · refine ((Value.every_older_iff v).mpr older).imp fun leaf older next same => ?_
      exact (Value.older_thunk next).mp (same ▸ older)
    · have same := orderly.thunkText_withSpare suspension around (Nat.lt_of_lt_of_le before
      orderly.old)
      rwa [pastSpare_of_lt before] at same
  · simpa [written, Value.past, Value.writtenWith] using orderly.thunkText_withSpare suspension []
      present

theorem displayed_withSpare {v : Value} (older : v.Older spare) :
    (store.withSpare spare suspension).displayed v = store.displayed v := by
  have same := orderly.written_withSpare suspension (.inl older)
  rw [older.past] at same
  exact displayed_congr same

end Store.Orderly

namespace Failure

/-- The failure with suspensions by their new numbers. Only a suspension that is applied is shown as
itself. -/
def past (spare : ThunkId) : Failure → Failure
  | .notApplicable v => .notApplicable (v.past spare)
  | failure => failure

/-- What the message shows are values with older suspensions, or a suspension that is applied. -/
def Held (spare count : Nat) (failure : Failure) : Prop :=
  failure.Shows (Value.Older spare) ∨ ∃ id < count, failure = .notApplicable (.thunk id)

theorem Shows.past {spare : Nat} {failure : Failure} (shows_ : failure.Shows (Value.Older spare)) :
    failure.past spare = failure := by
  cases failure with
  | notApplicable v =>
      have shown : Every (Value.Older spare) v := by
        simpa [Failure.Shows, Failure.phrases, Phrase.Shows] using shows_
      exact congrArg Failure.notApplicable ((Value.every_older_iff v).mp shown).past
  | _ => rfl

theorem message_withSpare {store : Store} {spare : Nat} (orderly : store.Orderly spare)
    (suspension : Suspension) {failure : Failure} (held : failure.Held spare store.thunks.size) :
    (failure.past spare).message (store.withSpare spare suspension) = failure.message store := by
  rcases held with shows_ | ⟨id, present, rfl⟩
  · rw [shows_.past]
    refine message_congr shows_ fun v every => ?_
    have older := (Value.every_older_iff v).mp every
    have same := orderly.written_withSpare suspension (.inl older)
    rwa [older.past] at same
  · have same := orderly.written_withSpare suspension (.inr ⟨id, present, rfl⟩)
    simp [Failure.message, Failure.past, Failure.phrases, Phrase.text, same]

end Failure

end ThunkLisp
