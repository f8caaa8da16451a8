import Mathlib
import ThunkLisp.Proofs.Shown

/-!
Texts of suspensions. A text opens suspensions inside each other to a depth that goes by how many
there are in the store. That is deep enough: what is opened a second time inside itself comes to a
list for the second time, and a list that is inside itself is not written again.
-/

namespace ThunkLisp

open Value (Every)

namespace Value

theorem alike_self (v : Value) : v.alike v = true := by
  induction v using tree_induction with
  | leaf v flat =>
      cases v with
      | list items => cases flat
      | bool b => simp [alike, same, sameNaN, equal, equalAtoms, number?, Number.equal_int_iff]
      | int n => simp [alike, same, sameNaN, equal, equalAtoms, number?, Number.equal_int_iff]
      | _ => simp [alike, same, sameNaN, equal, equalAtoms]
  | list items ih =>
      rw [alike]
      induction items with
      | nil => rfl
      | cons item rest behind =>
          rw [alikeItems, ih item List.mem_cons_self, behind fun v member => ih v (.tail _ member)]
          rfl

end Value

namespace Suspension

def shown : Suspension → Value
  | .waiting code _ _ => code
  | .settled v => v

/-- The suspension that it shows and nothing else, or another one if it shows something else. -/
def next (suspension : Suspension) (otherwise : ThunkId) : ThunkId :=
  match suspension.shown with
  | .thunk next => next
  | _ => otherwise

def textAround : Suspension → String → String
  | .waiting .., text => "<thunk " ++ text ++ ">"
  | .settled _, text => "<thunk = " ++ text ++ ">"

end Suspension

namespace Store

variable (store : Store)

theorem thunkTextWithin_succ (depth : Nat) (around : List Value) (id : ThunkId) :
    store.thunkTextWithin (depth + 1) around id =
      ((store.thunk id).shown.writtenWith (store.thunkTextWithin depth) around []).map
        (store.thunk id).textAround := by
  rw [thunkTextWithin]
  cases store.thunk id <;> rfl

/-- What a suspension shows in the end: one that shows another one shows what that shows. -/
def goal (store : Store) (id : ThunkId) : Value :=
  if (store.thunk id).next id < id then store.goal ((store.thunk id).next id) else
    (store.thunk id).shown
termination_by id

theorem goal_list {id : ThunkId} {items : List Value}
    (shows_ : (store.thunk id).shown = .list items) :
    store.goal id = .list items := by
  have last : (store.thunk id).next id = id := by rw [Suspension.next, shows_]
  rw [goal, last, if_neg (Nat.lt_irrefl id), shows_]

theorem goal_next {id next : ThunkId} (shows_ : (store.thunk id).shown = .thunk next)
    (earlier : next < id) :
    store.goal id = store.goal next := by
  have following : (store.thunk id).next id = next := by rw [Suspension.next, shows_]
  rw [goal, following, if_pos earlier]

/-- The goal is written already around the suspension. -/
def isWrittenAround (around : List Value) (id : ThunkId) : Bool := around.any (store.goal id).alike

/-- The suspensions that may still be opened on the way to a goal and inside of it. -/
def ahead (around : List Value) (id : ThunkId) : Finset ThunkId :=
  (Finset.range store.thunks.size).filter fun other =>
    store.isWrittenAround around other = false ∧
      ((store.goal other).alike (store.goal id) = true → other ≤ id)

/-- So many suspensions at most are opened inside each other. -/
def room (around : List Value) (id : ThunkId) : Nat :=
  if store.isWrittenAround around id then id + 1 else (store.ahead around id).card +
    store.thunks.size

/-- Suspensions show only such as are there, and one that shows just another one shows an earlier
one. -/
structure Layered : Prop where
  present : ∀ id, Every (fun leaf => ∀ next, leaf = .thunk next → next < store.thunks.size)
    (store.thunk id).shown
  earlier : ∀ id next, (store.thunk id).shown = .thunk next → next < id

variable {store}

theorem room_le {id : Nat} (present : id < store.thunks.size) (around : List Value) :
    store.room around id ≤ 2 * store.thunks.size := by
  have few : (store.ahead around id).card ≤ store.thunks.size :=
    (Finset.card_filter_le _ _).trans_eq (Finset.card_range _)
  unfold room
  split <;> omega

theorem mem_ahead_self {id : ThunkId} (present : id < store.thunks.size) {around : List Value}
    (unwritten : store.isWrittenAround around id = false) : id ∈ store.ahead around id := by
  simp [ahead, present, unwritten]

theorem room_pos {id : Nat} (present : id < store.thunks.size) (around : List Value) :
    0 < store.room around id := by
  unfold room
  split <;> omega

theorem room_next {id next : ThunkId} (present : id < store.thunks.size) (earlier : next < id)
    (shows_ : (store.thunk id).shown = .thunk next) (around : List Value) :
    store.room around next < store.room around id := by
  have same : store.goal id = store.goal next := store.goal_next shows_ earlier
  cases written : store.isWrittenAround around id with
  | true =>
      have written' : store.isWrittenAround around next = true := by
        simpa [isWrittenAround, same] using written
      simpa [room, written, written'] using earlier
  | false =>
      have unwritten' : store.isWrittenAround around next = false := by
        simpa [isWrittenAround, same] using written
      have fewer : store.ahead around next ⊂ store.ahead around id := by
        refine Finset.ssubset_iff_of_subset ?_ |>.mpr ⟨id, mem_ahead_self present written, ?_⟩
        · intro other member
          simp only [ahead, Finset.mem_filter, same] at member ⊢
          exact ⟨member.1, member.2.1, fun toward => (member.2.2 toward).trans
            (Nat.le_of_lt earlier)⟩
        · simp only [ahead, Finset.mem_filter, same, Value.alike_self, forall_const, not_and,
          not_le]
          exact fun _ _ => earlier
      have less := Finset.card_lt_card fewer
      simpa [room, written, unwritten'] using less

theorem room_inside {id inner : Nat} (present : id < store.thunks.size)
    (present' : inner < store.thunks.size) {items : List Value}
    (shows_ : (store.thunk id).shown = .list items) {around more : List Value}
    (unwritten : store.isWrittenAround around id = false) (within : .list items :: around ⊆ more) :
    store.room more inner < store.room around id := by
  have reached : store.goal id = .list items := store.goal_list shows_
  have here : id ∈ store.ahead around id := mem_ahead_self present unwritten
  have some_ : 0 < (store.ahead around id).card := Finset.card_pos.mpr ⟨id, here⟩
  have written {other : ThunkId} (toward : (store.goal other).alike (store.goal id) = true) :
      store.isWrittenAround more other = true :=
    List.any_eq_true.mpr ⟨_, within List.mem_cons_self, reached ▸ toward⟩
  have fewer : store.ahead more inner ⊂ store.ahead around id := by
    refine Finset.ssubset_iff_of_subset ?_ |>.mpr ⟨id, here, ?_⟩
    · intro other member
      simp only [ahead, Finset.mem_filter] at member ⊢
      have apart : ¬ store.isWrittenAround more other = true := by simp [member.2.1]
      refine ⟨member.1, ?_, fun toward => absurd (written toward) apart⟩
      refine Bool.eq_false_iff.mpr fun before => apart ?_
      obtain ⟨v, inside, toward⟩ := List.any_eq_true.mp before
      exact List.any_eq_true.mpr ⟨v, within (.tail _ inside), toward⟩
    · simp [ahead, written (Value.alike_self _)]
  have less := Finset.card_lt_card fewer
  simp only [room, unwritten, Bool.false_eq_true, if_false]
  split <;> omega

/-- Where there is room, it does not matter how much. -/
theorem thunkTextWithin_of_room (layered : store.Layered) (depth depth' : Nat) {around : List Value}
    {id : ThunkId} (present : id < store.thunks.size) (deep : store.room around id ≤ depth)
    (deep' : store.room around id ≤ depth') :
    store.thunkTextWithin depth around id = store.thunkTextWithin depth' around id := by
  -- on the depth: the room that is needed shrinks with every suspension on the way
  induction depth generalizing depth' around id with
  | zero => exact absurd (room_pos present around) (by omega)
  | succ depth ih =>
      obtain _ | depth' := depth'
      · exact absurd (room_pos present around) (by omega)
      rw [thunkTextWithin_succ, thunkTextWithin_succ]
      have inner := layered.present id
      refine congrArg (Except.map _) ?_
      cases shows_ : (store.thunk id).shown with
      | thunk next =>
          have less := room_next present (layered.earlier id next shows_) shows_ around
          have there : next < store.thunks.size :=
            Nat.lt_trans (layered.earlier id next shows_) present
          simp only [Value.writtenWith, List.nil_append]
          exact ih depth' there (by omega) (by omega)
      | list items =>
          rw [shows_] at inner
          have each := (Value.every_list items).mp inner
          refine Value.writtenWith_list_congr each around []
            fun unwritten more within next there => ?_
          have reached : store.goal id = .list items := store.goal_list shows_
          have apart : store.isWrittenAround around id = false := by rwa [isWrittenAround, reached]
          have less := room_inside present there shows_ apart within
          exact ih depth' there (by omega) (by omega)
      | _ => exact writtenWith_of_unsuspended _ _ _ ((Value.every_of_flat rfl).mpr rfl) around []

theorem thunkTextWithin_of_le (layered : store.Layered) {depth : Nat}
    (deep : 2 * store.thunks.size ≤ depth) (around : List Value) {id : ThunkId}
    (present : id < store.thunks.size) :
    store.thunkTextWithin depth around id = store.thunkTextWithin (2 * store.thunks.size) around
      id :=
  have room := room_le present around
  thunkTextWithin_of_room layered depth _ present (room.trans deep) room

end Store

end ThunkLisp
