import Mathlib.Logic.Relation
import ThunkLisp.Proofs.WaitingNames

/-!
The laws of nested scopes. A name means its binding in the nearest frame around that has one.
Defining a name in a frame changes what it means from that frame, and from the frames inside that do
not come to a nearer binding of it first; assigning changes the value of one binding and for no
frame which binding a name means.
-/

namespace ThunkLisp

namespace Store

/-- Frames are numbered as they are made, and each is made inside one that is there already, so that
no chain of frames comes back to itself. Well-formed stores are of this kind. -/
def Nested (store : Store) : Prop := ∀ frame around, (store.frame frame).outer = some around →
    around < frame

/-- The second frame is the first or one of those around it. -/
def Visible (store : Store) : FrameId → FrameId → Prop :=
  Relation.ReflTransGen fun frame around => (store.frame frame).outer = some around

/-- From the first frame the second is visible, and no frame that is nearer binds the name. -/
structure Captures (store : Store) (frame owner : FrameId) (name : Value) : Prop where
  visible : store.Visible frame owner
  nearer : ∀ between, store.Visible frame between → store.Visible between owner → between ≠ owner →
    (store.frame between).bindings.binds name = false

variable {store : Store}

/-! Frames around a frame -/

theorem Nested.addFrame (nested : store.Nested) (bindings : Bindings) {outer : Option FrameId}
    (there : ∀ around ∈ outer, around < store.frames.size) (checked : Option Bool) :
    (store.addFrame bindings outer checked).2.Nested := by
  intro frame around found
  rcases Nat.lt_trichotomy frame store.frames.size with old | rfl | beyond
  · rw [store.frame_addFrame_of_lt bindings outer checked frame old] at found
    exact nested frame around found
  · have new : outer = some around := by simpa [Store.frame, Store.addFrame] using found
    exact there around new
  · have size : (store.addFrame bindings outer checked).2.frames.size ≤ frame := by
      simpa [Store.addFrame] using beyond
    simp [Store.frame, Array.getD_eq_getD_getElem?, size] at found

theorem Visible.le (nested : store.Nested) {frame owner : FrameId}
    (visible : store.Visible frame owner) :
    owner ≤ frame := by
  induction visible with
  | refl => exact Nat.le_refl _
  | tail _ outer ih => exact Nat.le_trans (Nat.le_of_lt (nested _ _ outer)) ih

namespace Captures

variable {frame around owner : FrameId} {name : Value}

theorem here (nested : store.Nested) : store.Captures owner owner name := by
  refine ⟨.refl, fun between inward outward different => ?_⟩
  exact absurd (Nat.le_antisymm (inward.le nested) (outward.le nested)) different

theorem outward_iff (nested : store.Nested) (outer : (store.frame frame).outer = some around)
    (unbound : (store.frame frame).bindings.binds name = false) :
    store.Captures frame owner name ↔ frame = owner ∨ store.Captures around owner name := by
  constructor
  · rintro ⟨visible, nearer⟩
    rcases visible.cases_head with same | ⟨next, outer', behind⟩
    · exact .inl same
    · obtain rfl : next = around := Option.some.inj (outer'.symm.trans outer)
      exact .inr ⟨behind, fun between inward => nearer between (.head outer inward)⟩
  · rintro (rfl | ⟨visible, nearer⟩)
    · exact here nested
    · refine ⟨.head outer visible, fun between inward outward different => ?_⟩
      rcases inward.cases_head with rfl | ⟨next, outer', behind⟩
      · exact unbound
      · obtain rfl : next = around := Option.some.inj (outer'.symm.trans outer)
        exact nearer between behind outward different

theorem eq_of_binds (bound : (store.frame frame).bindings.binds name = true)
    (captures : store.Captures frame owner name) : frame = owner := by
  by_contra different
  have unbound := captures.nearer frame .refl captures.visible different
  rw [bound] at unbound
  cases unbound

theorem eq_of_outermost (outermost : (store.frame frame).outer = none)
    (captures : store.Captures frame owner name) : frame = owner := by
  rcases captures.visible.cases_head with same | ⟨next, outer, _⟩
  · exact same
  · rw [outermost] at outer
    cases outer

end Captures

theorem find?_eq (nested : store.Nested) (frame : FrameId) (name : Value) :
    store.find? frame name = if (store.frame frame).bindings.binds name then some frame else
      (store.frame frame).outer.bind fun around => store.find? around name := by
  rw [find?, chain, List.find?_cons]
  cases (store.frame frame).bindings.binds name with
  | true => rfl
  | false =>
      cases outer : (store.frame frame).outer with
      | none => rfl
      | some around => simp [nested frame around outer, find?]

/-- The frame that a name is found in binds it, and no nearer one does. -/
theorem find?_eq_some_iff (nested : store.Nested) (frame owner : FrameId) (name : Value) :
    store.find? frame name = some owner ↔
      store.Captures frame owner name ∧ (store.frame owner).bindings.binds name = true := by
  induction frame using Nat.strongRecOn with
  | ind frame ih =>
      rw [find?_eq nested]
      cases bound : (store.frame frame).bindings.binds name with
      | true =>
          constructor
          · rintro same
            obtain rfl := Option.some.inj same
            exact ⟨.here nested, bound⟩
          · rintro ⟨captures, -⟩
            exact congrArg some (captures.eq_of_binds bound)
      | false =>
          cases outer : (store.frame frame).outer with
          | none =>
              constructor
              · exact nofun
              · rintro ⟨captures, owned⟩
                rw [← captures.eq_of_outermost outer, bound] at owned
                cases owned
          | some around =>
              rw [Captures.outward_iff nested outer bound]
              refine (ih around (nested frame around outer)).trans
                ⟨fun found => ⟨.inr found.1, found.2⟩, ?_⟩
              rintro ⟨rfl | captures, owned⟩
              · rw [bound] at owned
                cases owned
              · exact ⟨captures, owned⟩

/-! A new binding -/

theorem outer_bind (store : Store) (owner frame : FrameId) (name v : Value) :
    ((store.bind owner name v).frame frame).outer = (store.frame frame).outer := by
  by_cases present : frame < store.frames.size
  · exact (Evolves.bind store owner name v).outer frame present
  · simp [Store.frame, bind, Array.getD_eq_getD_getElem?, present]

theorem Nested.bind (nested : store.Nested) (owner : FrameId) (name v : Value) :
    (store.bind owner name v).Nested := by
  intro frame around outer
  rw [outer_bind] at outer
  exact nested frame around outer

theorem visible_bind (store : Store) (owner frame other : FrameId) (name v : Value) :
    (store.bind owner name v).Visible frame other ↔ store.Visible frame other := by
  simp only [Visible, outer_bind]

section Rebound

variable {owner : FrameId} (name : String) (v : Value)

theorem binding_bind_self (present : owner < store.frames.size) :
    ((store.bind owner (.sym name) v).frame owner).bindings.find? (.sym name) = some v := by
  rw [store.frame_bind_self owner (.sym name) v present]
  exact Bindings.find?_put_self _ name v

theorem binds_bind_of_ne {frame : FrameId} {other : String}
    (different : ¬ (owner = frame ∧ other = name)) :
    ((store.bind owner (.sym name) v).frame frame).bindings.binds (.sym other) =
      (store.frame frame).bindings.binds (.sym other) := by
  rw [Bindings.binds, store.bound_bind_of_ne v different, Bindings.binds]

theorem find?_bind_of_captures (nested : store.Nested) (present : owner < store.frames.size)
    {frame : FrameId} (captures : store.Captures frame owner (.sym name)) :
    (store.bind owner (.sym name) v).find? frame (.sym name) = some owner := by
  refine (find?_eq_some_iff (nested.bind owner (.sym name) v) frame owner (.sym name)).mpr
    ⟨⟨?_, ?_⟩, ?_⟩
  · exact (store.visible_bind ..).mpr captures.visible
  · intro between inward outward different
    rw [binds_bind_of_ne name v fun same => different same.1.symm]
    exact captures.nearer between ((store.visible_bind ..).mp inward)
      ((store.visible_bind ..).mp outward) different
  · rw [Bindings.binds, binding_bind_self name v present]
    rfl

theorem find?_bind_of_not_captures (nested : store.Nested) {frame : FrameId} {other : String}
    (apart : ¬ (other = name ∧ store.Captures frame owner (.sym name))) :
    (store.bind owner (.sym name) v).find? frame (.sym other) = store.find? frame (.sym other) := by
  induction frame using Nat.strongRecOn with
  | ind frame ih =>
      have elsewhere : ¬ (owner = frame ∧ other = name) := by
        rintro ⟨rfl, same⟩
        exact apart ⟨same, .here nested⟩
      rw [find?_eq (nested.bind owner (.sym name) v), find?_eq nested, outer_bind,
        binds_bind_of_ne name v elsewhere]
      cases bound : (store.frame frame).bindings.binds (.sym other) with
      | true => rfl
      | false =>
          cases outer : (store.frame frame).outer with
          | none => rfl
          | some around =>
              refine ih around (nested frame around outer) ?_
              rintro ⟨rfl, captures⟩
              exact apart ⟨rfl, (Captures.outward_iff nested outer bound).mpr (.inr captures)⟩

theorem bound?_bind_of_find? (present : owner < store.frames.size) {frame : FrameId}
    (found : (store.bind owner (.sym name) v).find? frame (.sym name) = some owner) :
    (store.bind owner (.sym name) v).bound? frame name = some v :=
  (bound?_eq_some ..).mpr ⟨owner, found, binding_bind_self name v present⟩

theorem bound?_bind_of_find?_eq {frame : FrameId} {other : String}
    (same : (store.bind owner (.sym name) v).find? frame (.sym other) =
      store.find? frame (.sym other))
    (apart : ¬ (other = name ∧ store.find? frame (.sym name) = some owner)) :
    (store.bind owner (.sym name) v).bound? frame other = store.bound? frame other := by
  rw [bound?, bound?, same]
  cases found : store.find? frame (.sym other) with
  | none => rfl
  | some id =>
      refine store.bound_bind_of_ne v ?_
      rintro ⟨rfl, rfl⟩
      exact apart ⟨rfl, found⟩

end Rebound

end Store

/-! Operations on scopes -/

namespace Scope

theorem define_fails {frame : FrameId} {name v : Value} {store after : Store} {failure : Failure}
    (fails : (define frame name v).on store = (.error failure, after)) : after = store := by
  unfold define at fails
  split at fails
  · cases fails
  · cases fails
    rfl

theorem assign_fails {frame : FrameId} {name v : Value} {store after : Store} {failure : Failure}
    (fails : (assign frame name v).on store = (.error failure, after)) : after = store := by
  unfold assign locate at fails
  split at fails
  · rw [Run.on_bind, Run.on_read] at fails
    cases found : store.find? frame name with
    | none =>
        rw [found] at fails
        cases fails
        rfl
    | some owner =>
        rw [found] at fails
        cases fails
  · cases fails
    rfl

end Scope

/-- What a definition in a frame does: it gives the name its new value where the frame is the
nearest that could bind it, and leaves every other meaning of a name. -/
structure Store.Defines (store after : Store) (owner : FrameId) (name : String) (v : Value) :
    Prop where
  nested : after.Nested
  captured : ∀ frame, store.Captures frame owner (.sym name) →
    after.find? frame (.sym name) = some owner ∧ after.bound? frame name = some v
  others : ∀ frame other, ¬ (other = name ∧ store.Captures frame owner (.sym name)) →
    after.find? frame (.sym other) = store.find? frame (.sym other) ∧
      after.bound? frame other = store.bound? frame other

/-- What an assignment does: every name is found in the same frame as before, and the value is new
where the binding that has been assigned to is found. -/
structure Store.Assigns (store after : Store) (owner : FrameId) (name : String) (v : Value) :
    Prop where
  nested : after.Nested
  owners : ∀ frame other, after.find? frame (.sym other) = store.find? frame (.sym other)
  shared : ∀ frame, store.find? frame (.sym name) = some owner → after.bound? frame name = some v
  others : ∀ frame other, ¬ (other = name ∧ store.find? frame (.sym name) = some owner) →
    after.bound? frame other = store.bound? frame other

namespace Store

variable {store : Store} {owner : FrameId}

theorem bind_defines (nested : store.Nested) (present : owner < store.frames.size) (name : String)
    (v : Value) :
    store.Defines (store.bind owner (.sym name) v) owner name v := by
  refine ⟨nested.bind owner (.sym name) v, fun frame captures => ?_, fun frame other apart => ?_⟩
  · have found := find?_bind_of_captures name v nested present captures
    exact ⟨found, bound?_bind_of_find? name v present found⟩
  · have same := find?_bind_of_not_captures name v nested apart
    refine ⟨same, bound?_bind_of_find?_eq name v same fun ⟨equal, found⟩ => apart ⟨equal, ?_⟩⟩
    exact ((find?_eq_some_iff nested frame owner (.sym name)).mp found).1

theorem bind_assigns (nested : store.Nested) {home : FrameId} {name : String}
    (found : store.find? home (.sym name) = some owner) (v : Value) :
    store.Assigns (store.bind owner (.sym name) v) owner name v := by
  have owned := store.find?_binds home owner (.sym name) found
  have present : owner < store.frames.size :=
    Nat.lt_of_le_of_lt (store.le_of_mem_chain home owner (store.find?_mem_chain home owner _ found))
      (Store.lt_size_of_find? found)
  have owners (frame : FrameId) (other : String) :
      (store.bind owner (.sym name) v).find? frame (.sym other) =
        store.find? frame (.sym other) := by
    by_cases captured : other = name ∧ store.Captures frame owner (.sym name)
    · -- the binding is there already, so it has been found before
      obtain ⟨rfl, captures⟩ := captured
      rw [find?_bind_of_captures other v nested present captures]
      exact ((find?_eq_some_iff nested frame owner (.sym other)).mpr ⟨captures, owned⟩).symm
    · exact find?_bind_of_not_captures name v nested captured
  refine ⟨nested.bind owner (.sym name) v, owners, fun frame found' => ?_,
    fun frame other apart => ?_⟩
  · exact bound?_bind_of_find? name v present ((owners frame name).trans found')
  · exact bound?_bind_of_find?_eq name v (owners frame other) apart

end Store

/-- In frames that stand one inside the other, as every new frame does: a definition succeeds and
gives a name its new meaning in the scope of its frame; an assignment succeeds just if the name is
bound, and changes the value of the binding that is found; and one that fails changes nothing. -/
theorem scopes_obey_laws (store : Store) (nested : store.Nested) :
    (∀ bindings outer checked, (∀ around ∈ outer, around < store.frames.size) →
      (store.addFrame bindings outer checked).2.Nested) ∧
    (∀ owner < store.frames.size, ∀ name v, ∃ after,
      (Scope.define owner (.sym name) v).on store = (.ok (.sym name), after) ∧
        store.Defines after owner name v) ∧
    (∀ home name v, (∃ result, ((Scope.assign home (.sym name) v).on store).1 = .ok result) ↔
      (store.find? home (.sym name)).isSome = true) ∧
    (∀ home name v owner, store.find? home (.sym name) = some owner → ∃ after,
      (Scope.assign home (.sym name) v).on store = (.ok (.sym name), after) ∧
        store.Assigns after owner name v) ∧
    (∀ home name v failure after, (Scope.define home name v).on store = (.error failure, after) →
      after = store) ∧
    ∀ home name v failure after, (Scope.assign home name v).on store = (.error failure, after) →
      after = store := by
  refine ⟨fun bindings _ checked there => nested.addFrame bindings there checked,
    fun owner present name v => ?_, fun home name v => ?_, fun home name v owner found => ?_,
    fun _ _ _ _ _ fails => Scope.define_fails fails, fun _ _ _ _ _ fails =>
      Scope.assign_fails fails⟩
  · exact ⟨_, Scope.on_define owner name v store, Store.bind_defines nested present name v⟩
  · rw [Scope.on_assign]
    cases store.find? home (.sym name) <;> simp
  · refine ⟨store.bind owner (.sym name) v, ?_, Store.bind_assigns nested found v⟩
    rw [Scope.on_assign, found]

def frameTree : Store :=
  { frames := #[⟨[(.sym "x", .int 1)], none, true⟩, ⟨[], some 0, true⟩, ⟨[], some 1, true⟩,
    ⟨[], some 0, true⟩] }

theorem frameTree_nested : frameTree.Nested := by
  intro frame around outer
  rcases frame with _ | _ | _ | _ | frame <;> simp [frameTree, Store.frame] at outer <;> subst
    outer <;> decide

/-- A definition in the second frame is seen from the third and not from the fourth. An assignment
from the fourth is seen from the third. -/
theorem scopes_obey_laws_tree :
    frameTree.Nested ∧
    (∃ after, (Scope.define 1 (.sym "x") (.int 2)).on frameTree = (.ok (.sym "x"), after) ∧
      after.bound? 2 "x" = some (.int 2) ∧ after.bound? 3 "x" = some (.int 1)) ∧
    ∃ after, (Scope.assign 3 (.sym "x") (.int 2)).on frameTree = (.ok (.sym "x"), after) ∧
      after.bound? 2 "x" = some (.int 2) := by
  obtain ⟨_, defines, _, assigns, _⟩ := scopes_obey_laws frameTree frameTree_nested
  have inside : frameTree.Captures 2 1 (.sym "x") :=
    (Store.Captures.outward_iff frameTree_nested rfl rfl).mpr (.inr (.here frameTree_nested))
  have aside : ¬ frameTree.Captures 3 1 (.sym "x") := by
    intro captures
    rcases (Store.Captures.outward_iff frameTree_nested rfl rfl).mp captures with same | captures
    · cases same
    · exact absurd (captures.eq_of_binds (by decide)) (by decide)
  refine ⟨frameTree_nested, ?_, ?_⟩
  · obtain ⟨after, defined, laws⟩ := defines 1 (by decide) "x" (.int 2)
    refine ⟨after, defined, (laws.captured 2 inside).2, ?_⟩
    rw [(laws.others 3 "x" fun apart => aside apart.2).2]
    cbv
  · obtain ⟨after, assigned, laws⟩ := assigns 3 "x" (.int 2) 0 (by cbv)
    exact ⟨after, assigned, laws.shared 2 (by cbv)⟩

end ThunkLisp
