import Mathlib
import ThunkLisp.Proofs.Operations
import ThunkLisp.Proofs.Runs

/-!
Kept values of suspensions. A force of a suspension evaluates its code and then keeps the value, so
a force that is nested in the evaluation of the code keeps one too, and the outer one keeps its own
over it. This is the only way in which a kept value changes.
-/

namespace ThunkLisp

open Machine (effect)
open Value (Every)

namespace Store

def kept? (store : Store) (id : ThunkId) : Option Value :=
  match store.thunks[id]? with
  | some (.settled v) => some v
  | _ => none

/-- Whether a suspension keeps a value, or will once it is forced. -/
def keeps (store : Store) (id : ThunkId) : Bool :=
  match store.thunks[id]? with
  | some (.settled _) => true
  | some (.waiting _ _ kept) => kept
  | none => false

end Store

/-- What the suspension kept at the older event it keeps at the newer one. -/
def Event.KeepsOn (id : ThunkId) (newer older : Event) : Prop :=
  ∀ v, older.store.kept? id = some v → newer.store.kept? id = some v

/-- The value of a use of a variable, if the variable was bound to the suspension and that one keeps
its value. -/
def Event.reference? (id : ThunkId) : Event → Option Value
  | .ended (.evaluate (.sym name) frame) before (.ok v) _ =>
      match before.bound? frame name with
      | some (.thunk found) => if found = id ∧ before.keeps id = true then some v else none
      | _ => none
  | _ => none

namespace Recording

/-- No kept value of the suspension changes from one event to a later one. -/
def CacheStays (r : Recording) (id : ThunkId) : Prop := r.events.Pairwise (Event.KeepsOn id)

/-- A force of the suspension began when it kept no value yet, and gave a value other than the one
that was kept when the code had been evaluated. -/
def Overwrites (r : Recording) (id : ThunkId) : Prop :=
  ∃ newer before v after last older w,
    r.events = newer ++ .ended (.force id) before (.ok v) after :: last :: older ∧
      before.kept? id = none ∧ after.keeps id = true ∧ last.store.kept? id = some w ∧ w ≠ v

def References (r : Recording) (id : ThunkId) (v : Value) : Prop :=
  ∃ event ∈ r.events, event.reference? id = some v

end Recording

/-- What the events of a recording say of kept values. -/
structure Settling (r : Recording) : Prop where
  /-- a kept value lasts until the next event, unless that is the end of a force -/
  linked : r.events.IsChain fun newer older => ∀ id w, older.store.kept? id = some w →
    newer.store.kept? id = some w ∨ ∃ before v after, newer =
      .ended (.force id) before (.ok v) after ∧
      before.kept? id = none ∧ after.keeps id = true ∧ w ≠ v
  last : ∀ event ∈ r.events.head?, ∀ id v,
    event.store.kept? id = some v → r.store.kept? id = some v
  forces : ∀ id before v after, .ended (.force id) before (.ok v) after ∈ r.events →
    after.keeps id = true → after.kept? id = some v
  uses : ∀ event ∈ r.events, ∀ id v, event.reference? id = some v → event.store.kept? id = some v

def Store.Preserves (store after : Store) : Prop :=
  ∀ (id : ThunkId) (suspension : Suspension), store.thunks[id]? = some suspension →
    after.thunks[id]? = some suspension

namespace Store.Preserves

variable {store after : Store}

theorem of_eq (same : after.thunks = store.thunks) : store.Preserves after := by
  intro id suspension found
  rw [same, found]

theorem kept? (preserves : store.Preserves after) (id : ThunkId) (v : Value)
    (found : store.kept? id = some v) : after.kept? id = some v := by
  unfold Store.kept? at found ⊢
  split at found
  · next w waiting =>
      rw [preserves id _ waiting]
      exact found
  · cases found

theorem keeps (preserves : store.Preserves after) (id : ThunkId) (found : store.keeps id = true) :
    after.keeps id = true := by
  unfold Store.keeps at found ⊢
  split at found
  · next v waiting => rw [preserves id _ waiting]
  · next code frame kept waiting =>
      rw [preserves id _ waiting]
      exact found
  · cases found

theorem addThunk (store : Store) (code : Value) (frame : FrameId) (kept : Bool) :
    store.Preserves (store.addThunk code frame kept).2 := by
  intro id suspension found
  obtain ⟨less, _⟩ := Array.getElem?_eq_some_iff.mp found
  simp only [Store.addThunk, Array.getElem?_push]
  rw [if_neg (by omega), found]

end Store.Preserves

namespace Settling

variable {r : Recording}

theorem of_preserves {after : Store} (settling : Settling r) (preserves : r.store.Preserves after) :
    Settling ⟨after, r.events⟩ :=
  ⟨settling.linked, fun event member id v found => preserves.kept? id v
    (settling.last event member id v found), settling.forces, settling.uses⟩

theorem note (settling : Settling r) (event : Event) (here : event.store = r.store)
    (force : ∀ id before v after, event = .ended (.force id) before (.ok v) after →
      after.keeps id = true → after.kept? id = some v)
    (use : ∀ id v, event.reference? id = some v → event.store.kept? id = some v) :
    Settling (r.note event) := by
  refine ⟨?_, ?_, ?_, ?_⟩
  · refine List.IsChain.cons settling.linked fun older member => fun id w found => .inl ?_
    rw [here]
    exact settling.last older member id w found
  · intro found member id v kept
    obtain rfl := Option.some.inj member
    exact here ▸ kept
  · intro id before v after member keeps
    rcases List.mem_cons.mp member with same | member
    · exact force id before v after same.symm keeps
    · exact settling.forces id before v after member keeps
  · intro found member
    rcases List.mem_cons.mp member with rfl | member
    · exact use
    · exact settling.uses found member

end Settling

def caching : Discipline where
  sound := Settling
  later r s := (∀ id, r.store.keeps id = true → s.store.keeps id = true) ∧
    ∀ (id : ThunkId) code frame, r.store.thunks[id]? = some (.waiting code frame false) →
      s.store.thunks[id]? = some (.waiting code frame false)
  later_refl _ := ⟨fun _ keeps => keeps, fun _ _ _ waiting => waiting⟩
  later_trans _ _ _ first second :=
    ⟨fun id keeps => second.1 id (first.1 id keeps),
      fun id code frame waiting => second.2 id code frame (first.2 id code frame waiting)⟩
  view store := store
  datum _ := True
  leaf _ _ := True
  present _ _ := True
  uses _ _ _ := True
  delayed _ _ := True
  forcible _ _ := True
  forced r id v := r.store.keeps id = true → r.store.kept? id = some v
  opening _ _ _ := True
  placeholder _ _ := True
  shown _ := True

namespace Settling

variable {r : Recording}

theorem later_of_preserves {s : Recording} (preserves : r.store.Preserves s.store) :
    caching.later r s :=
  ⟨fun id => preserves.keeps id, fun id _ _ waiting => preserves id _ waiting⟩

theorem shows_all (failure : Failure) : failure.Shows caching.shown :=
  failure.shows_of_forall fun _ => trivial

theorem value_all (s : Recording) (v : Value) : caching.value s v :=
  Value.every_of_forall (fun _ => trivial) v

theorem code_all (s : Recording) (frame : FrameId) (code : Value) : caching.code s frame code :=
  .written code (Value.every_of_forall (fun _ => ⟨trivial, fun _ _ => trivial⟩) code)

theorem keeps_effect {α : Type} {x : Run α} {post : α → Recording → Prop}
    {outcome : Except Failure α} {after : Store} (settling : Settling r)
    (ran : x.on r.store = (outcome, after)) (preserves : r.store.Preserves after)
    (answer : ∀ v, outcome = .ok v → post v ⟨after, r.events⟩) : caching.KeepsEffect x r post := by
  refine Discipline.keeps_effect outcome after ran ran (settling.of_preserves preserves)
    (later_of_preserves preserves) ?_
  cases outcome with
  | ok v => exact answer v rfl
  | error failure => exact shows_all failure

theorem beginning (settling : Settling r) (task : Task) : Settling (r.beginning task) :=
  settling.note _ rfl (fun _ _ _ _ same => nomatch same) (fun _ _ same => nomatch same)

/-! Variables. -/

theorem evaluateVariable_keeps (inner : Inner Recorded) (plain : Inner Run) (name : String)
    (frame : FrameId) (keeps : caching.InnerKeeps inner plain) (settling : Settling r) :
    caching.Keeps (Evaluator.evaluateVariable inner name frame)
      (Evaluator.evaluateVariable plain name frame) r fun v s => ∀ id,
        r.store.bound? frame name = some (.thunk id) → s.store.keeps id = true →
          s.store.kept? id = some v := by
  have looking : caching.KeepsEffect (Scope.lookup frame (.sym name)) r
      fun v s => r.store.bound? frame name = some v := by
    rcases Scope.on_lookup_cases frame name r.store with ⟨v, bound, ran⟩ | ⟨failure, ran⟩
    · refine keeps_effect settling ran (.of_eq rfl) fun w same => ?_
      cases same
      exact bound
    · exact keeps_effect settling ran (.of_eq rfl) fun w same => nomatch same
  refine Discipline.Keeps.bind looking fun found s sound later bound => ?_
  split
  · next id =>
      refine (keeps s (.force id) sound trivial).bind fun v t sound' _ forced => ?_
      have checking : caching.KeepsEffect (Scope.checkAssigned frame (.sym name) v) t
          fun w u => u.store = t.store ∧ w = v := by
        rcases Scope.on_checkAssigned_cases frame (.sym name) v t.store with ran | ⟨_, _, ran⟩
        · refine keeps_effect sound' ran (.of_eq rfl) fun w same => ?_
          cases same
          exact ⟨rfl, rfl⟩
        · exact keeps_effect sound' ran (.of_eq rfl) fun w same => nomatch same
      refine Discipline.Keeps.imp checking fun w u _ checked id' bound' keeps' => ?_
      rw [bound] at bound'
      cases bound'
      rw [checked.1] at keeps' ⊢
      rw [checked.2]
      exact forced keeps'
  -- a plain value is no suspension that could be kept
  · next plainly =>
      refine Discipline.keeps_pure sound fun id bound' _ => ?_
      rw [bound] at bound'
      cases bound'
      exact absurd rfl (plainly id)

theorem variable_keeps (inner : Inner Recorded) (plain : Inner Run) (name : String)
    (frame : FrameId) (keeps : caching.InnerKeeps inner plain) (settling : Settling r) :
    caching.Keeps
      (Machine.duringTask (.evaluate (.sym name) frame)
        (Evaluator.evaluateVariable inner name frame))
      (Evaluator.evaluateVariable plain name frame) r fun v s => caching.value s v := by
  obtain ⟨outcome, after, ran, viewed, same, sound, later, answer⟩ :=
    evaluateVariable_keeps inner plain name frame keeps
      (settling.beginning (.evaluate (.sym name) frame))
  refine ⟨outcome, after.ending (.evaluate (.sym name) frame) r.store outcome, ?_, viewed,
    congrArg List.tail same, ?_, later, ?_⟩
  · simp [Recorded.on_duringTask, ran]
  · refine sound.note _ rfl (fun id before v end_ same => nomatch same) ?_
    intro id v found
    cases outcome with
    | error failure => cases found
    | ok w =>
        simp only [Event.reference?] at found
        split at found
        · next other bound =>
            split at found
            · next here =>
                obtain ⟨rfl, keeps⟩ := here
                cases found
                exact answer other bound (later.1 other keeps)
            · cases found
        · cases found
  · cases outcome with
    | ok v => exact value_all _ v
    | error failure => exact shows_all failure

end Settling

/-! Forcing. -/

namespace Inner

variable {id : ThunkId} {code : Value} {frame : FrameId} {kept : Bool}

theorem force_on_recording_settled (inner : Inner Recorded) (r : Recording) (v : Value)
    (settled : r.store.thunk id = .settled v) : (inner.force id).on r = (.ok v, r) := by
  simp only [force, Recorded.on_bind, Recorded.on_effect, Run.on_read, settled]
  rfl

theorem force_on_store_settled (inner : Inner Run) (store : Store) (v : Value)
    (settled : store.thunk id = .settled v) : (inner.force id).on store = (.ok v, store) := by
  have reading : (effect (Run.read fun store => store.thunk id) : Run Suspension).on store =
      (.ok (.settled v), store) := by
    rw [← settled]
    rfl
  simp only [force, Run.on_bind, reading]
  rfl

theorem force_on_recording (inner : Inner Recorded) (r : Recording)
    (waiting : r.store.thunk id = .waiting code frame kept) :
    (inner.force id).on r =
      match (inner.evaluate code frame >>= inner.concrete).on r with
      | (.ok v, after) =>
          (.ok v, if kept then { after with store := after.store.settle id v } else after)
      | (.error failure, after) => (.error failure, after) := by
  simp only [force, Recorded.on_bind, Recorded.on_effect, Run.on_read, waiting]
  cases (inner.evaluate code frame).on r with
  | mk outcome s =>
      cases outcome with
      | error failure => rfl
      | ok v =>
          simp only
          cases (inner.concrete v).on s with
          | mk outcome t =>
              cases outcome with
              | error failure => rfl
              | ok w => cases kept <;> rfl

theorem force_on_store (inner : Inner Run) (store : Store)
    (waiting : store.thunk id = .waiting code frame kept) :
    (inner.force id).on store =
      match (inner.evaluate code frame >>= inner.concrete).on store with
      | (.ok v, after) => (.ok v, if kept then after.settle id v else after)
      | (.error failure, after) => (.error failure, after) := by
  have reading : (effect (Run.read fun store => store.thunk id) : Run Suspension).on store =
      (.ok (.waiting code frame kept), store) := by
    rw [← waiting]
    rfl
  simp only [force, Run.on_bind, reading]
  cases (inner.evaluate code frame).on store with
  | mk outcome s =>
      cases outcome with
      | error failure => rfl
      | ok v =>
          simp only
          cases (inner.concrete v).on s with
          | mk outcome t =>
              cases outcome with
              | error failure => rfl
              | ok w => cases kept <;> rfl

end Inner

namespace Store

theorem getElem?_of_keeps {store : Store} {id : ThunkId} (keeps : store.keeps id = true) :
    ∃ suspension, store.thunks[id]? = some suspension := by
  cases found : store.thunks[id]? with
  | none => simp [Store.keeps, found] at keeps
  | some suspension => exact ⟨suspension, rfl⟩

theorem keeps_of_kept? {store : Store} {id : ThunkId} {v : Value}
    (found : store.kept? id = some v) :
    store.keeps id = true := by
  unfold Store.kept? at found
  split at found
  · next w waiting => simp [Store.keeps, waiting]
  · cases found

end Store

namespace Settling

variable {r s : Recording} {id : ThunkId} {v : Value}

theorem settle (settling : Settling s) (before : Store) (unsettled : before.kept? id = none)
    (present : s.store.keeps id = true) :
    Settling (Recording.ending ⟨s.store.settle id v, s.events⟩ (.force id) before (.ok v)) := by
  obtain ⟨suspension, found⟩ := Store.getElem?_of_keeps present
  have self := Store.settle_getElem?_self v suspension found
  have kept : (s.store.settle id v).kept? id = some v := by simp [Store.kept?, self]
  refine ⟨?_, ?_, ?_, ?_⟩
  -- another suspension has the value it had; this one may get another, which ends a second force
  · refine List.IsChain.cons settling.linked fun older member => fun other w was => ?_
    have now := settling.last older member other w was
    by_cases same : other = id
    · subst same
      by_cases equal : w = v
      · exact .inl (equal ▸ kept)
      · exact .inr ⟨before, v, _, rfl, unsettled, Store.keeps_of_kept? kept, equal⟩
    · refine .inl ?_
      change (s.store.settle id v).kept? other = some w
      simpa [Store.kept?, Store.settle_getElem?_of_ne v same] using now
  · intro event member other w found
    obtain rfl := Option.some.inj member
    exact found
  · intro other before' w after member keeps
    rcases List.mem_cons.mp member with same | member
    · cases same
      exact kept
    · exact settling.forces other before' w after member keeps
  · intro event member
    rcases List.mem_cons.mp member with rfl | member
    · exact fun _ _ found => nomatch found
    · exact settling.uses event member

theorem later_settle {events : List Event} (present : s.store.keeps id = true) :
    caching.later s ⟨s.store.settle id v, events⟩ := by
  obtain ⟨suspension, found⟩ := Store.getElem?_of_keeps present
  have self := Store.settle_getElem?_self v suspension found
  refine ⟨fun other keeps => ?_, fun other code frame waiting => ?_⟩
  · by_cases same : other = id
    · subst same
      simp [Store.keeps, self]
    · simpa [Store.keeps, Store.settle_getElem?_of_ne v same] using keeps
  · by_cases same : other = id
    · subst same
      simp [Store.keeps, waiting] at present
    · simpa [Store.settle_getElem?_of_ne v same] using waiting

theorem forced (settling : Settling s) (before : Store) (outcome : Except Failure Value)
    (holds : ∀ v, outcome = .ok v → s.store.keeps id = true → s.store.kept? id = some v) :
    Settling (s.ending (.force id) before outcome) := by
  refine settling.note _ rfl ?_ fun _ _ found => nomatch found
  intro other before' v after same keeps
  cases same
  exact holds v rfl keeps

theorem force_settled_keeps (inner : Inner Recorded) (plain : Inner Run) (settling : Settling r)
    (settled : r.store.thunk id = .settled v) :
    caching.Keeps (Machine.duringTask (.force id) (inner.force id)) (plain.force id) r
      fun v s => caching.forced s id v := by
  have holds : r.store.keeps id = true → r.store.kept? id = some v := by
    intro present
    obtain ⟨found, there⟩ := Store.getElem?_of_keeps present
    rw [Store.thunk_of_getElem? there] at settled
    simp [Store.kept?, there, settled]
  have ran := Inner.force_on_recording_settled inner (r.beginning (.force id)) v settled
  refine ⟨.ok v, (r.beginning (.force id)).ending (.force id) r.store (.ok v), ?_,
    Inner.force_on_store_settled plain r.store v settled, rfl, ?_, ?_, holds⟩
  · simp [Recorded.on_duringTask, ran]
  · refine (settling.beginning (.force id)).forced r.store (.ok v) fun w same => ?_
    cases same
    exact holds
  · exact later_of_preserves fun _ _ found => found

/-- What a force does before it keeps anything. -/
theorem evaluate_concrete_keeps (inner : Inner Recorded) (plain : Inner Run) (code : Value)
    (frame : FrameId) (keeps : caching.InnerKeeps inner plain) (settling : Settling r) :
    caching.Keeps (inner.evaluate code frame >>= inner.concrete)
      (plain.evaluate code frame >>= plain.concrete) r fun _ _ => True := by
  have first := keeps r (.evaluate code frame) settling ⟨trivial, .inl (code_all _ _ _)⟩
  refine Discipline.Keeps.bind first fun v s sound _ _ => ?_
  have rest := keeps.concrete (v := v) (fun _ _ _ => ⟨trivial, fun s v _ => value_all s v⟩) sound
    (value_all s v)
  exact rest.imp fun _ _ _ _ => trivial

theorem force_keeps (inner : Inner Recorded) (plain : Inner Run)
    (keeps : caching.InnerKeeps inner plain) (settling : Settling r) :
    caching.Keeps (Machine.duringTask (.force id) (inner.force id)) (plain.force id) r
      fun v s => caching.forced s id v := by
  cases suspension : r.store.thunk id with
  | settled v => exact force_settled_keeps inner plain settling suspension
  | waiting code frame kept =>
      have there := Store.getElem?_of_waiting suspension
      have unsettled : r.store.kept? id = none := by simp [Store.kept?, there]
      obtain ⟨outcome, s, ran, viewed, same, sound, later, _⟩ :=
        evaluate_concrete_keeps inner plain code frame keeps (settling.beginning (.force id))
      have closed : (pending s.events).tail = pending r.events := congrArg List.tail same
      have ran' := Inner.force_on_recording inner (r.beginning (.force id)) suspension
      have viewed' := Inner.force_on_store plain r.store suspension
      have viewed : (plain.evaluate code frame >>= plain.concrete).on r.store =
        (outcome, s.store) := viewed
      rw [ran] at ran'
      rw [viewed] at viewed'
      cases outcome with
      | error failure =>
          refine ⟨.error failure, s.ending (.force id) r.store (.error failure), ?_, viewed',
            closed, ?_, later, shows_all failure⟩
          · simp [Recorded.on_duringTask, ran']
          · exact sound.forced r.store _ fun v same => nomatch same
      | ok v =>
          cases kept with
          | false =>
              -- such a suspension never keeps a value, so nothing is asked of the store
              have still := later.2 id code frame there
              have apart : s.store.keeps id = false := by simp [Store.keeps, still]
              refine ⟨.ok v, s.ending (.force id) r.store (.ok v), ?_, viewed', closed, ?_, later,
                ?_⟩
              · simp [Recorded.on_duringTask, ran']
              · exact sound.forced r.store _ fun w _ keeps => by simp [apart] at keeps
              · exact fun keeps => absurd (show s.store.keeps id = true from keeps)
                  (by simp [apart])
          | true =>
              -- a force inside this one may have settled it meanwhile, and now it is settled again
              have present : s.store.keeps id = true := later.1 id (by
                change r.store.keeps id = true
                simp [Store.keeps, there])
              have final := sound.settle (v := v) r.store unsettled present
              refine ⟨.ok v, Recording.ending ⟨s.store.settle id v, s.events⟩
                (.force id) r.store (.ok v), ?_, viewed', closed, final, ?_, fun keeps => ?_⟩
              · simp [Recorded.on_duringTask, ran']
              · exact caching.later_trans _ _ _ later (later_settle present)
              · exact final.forces id r.store v _ (List.mem_cons_self ..) keeps

/-! The laws. -/

theorem applying (settling : Settling r) (p : Primitive) (given : List Value) :
    Settling (r.applying p given) :=
  settling.note _ rfl (fun _ _ _ _ same => nomatch same) (fun _ _ same => nomatch same)

theorem operation_preserves (added : AddedActions)
    (leaves : ∀ name given (store : Store), store.Preserves ((added name given).on store).2)
    (operation : Operation) (given : List Value) (store : Store) :
    store.Preserves ((operation.run added given).on store).2 := by
  rcases operation.added_or_apart added given store with ⟨name, rfl⟩ | ⟨-, same⟩
  · exact leaves name given store
  · exact .of_eq same

theorem lawful (added : AddedActions) (strategy : Strategy)
    (leaves : ∀ name given (store : Store), store.Preserves ((added name given).on store).2) :
    caching.Lawful added strategy where
  -- nothing is asked of code, values and frames, so their laws are trivial
  basics := ⟨fun _ => trivial, trivial, fun _ => trivial⟩
  leaf_of_datum _ _ _ := trivial
  shown_of_leaf _ _ _ := trivial
  leaf_later _ _ _ _ _ := trivial
  present_later _ _ _ _ _ := trivial
  uses_later _ _ _ _ _ _ _ := trivial
  delayed_later _ _ _ _ _ := trivial
  placeholder_later _ _ _ _ _ := trivial
  opening_later _ _ _ _ _ _ _ _ := trivial
  thunk_leaf _ _ _ := ⟨trivial, fun s v _ => value_all s v⟩
  procedure_leaf _ _ _ _ _ := ⟨fun _ => ⟨trivial, fun form _ => code_all _ _ form⟩, fun _ =>
    trivial⟩
  placeholder_unassigned _ := trivial
  variable_keeps inner plain r name frame keeps settling _ _ :=
    variable_keeps inner plain name frame keeps settling
  force_keeps inner plain r id keeps settling _ := force_keeps inner plain keeps settling
  assign_keeps r name v frame settling _ _ _ := by
    have ran := Scope.on_assign frame name v r.store
    cases found : r.store.find? frame (.sym name) with
    | none =>
        rw [found] at ran
        exact keeps_effect settling ran (.of_eq rfl) fun w same => nomatch same
    | some owner =>
        rw [found] at ran
        exact keeps_effect settling ran (.of_eq rfl) fun w _ => value_all _ w
  define_keeps r name v frame settling _ _ _ :=
    keeps_effect settling (Scope.on_define frame name v r.store) (.of_eq rfl) fun w _ =>
      value_all _ w
  identity_keeps r settling :=
    keeps_effect settling (on_takeIdentity r.store) (.of_eq rfl) fun _ _ => rfl
  suspend_keeps r code frame kept settling _ _ :=
    keeps_effect settling (on_suspend code frame kept r.store) (.addThunk _ _ _ _) fun w same => by
      cases same
      exact ⟨_, rfl, trivial⟩
  suspend_mark_keeps r frame _ settling _ :=
    keeps_effect settling (on_suspend mark frame false r.store) (.addThunk _ _ _ _) fun _ _ =>
      ⟨trivial, rfl⟩
  enter_keeps r params frame given settling _ _ := by
    have ran := on_bindParams params frame given r.store
    split at ran
    · exact keeps_effect settling ran (.of_eq rfl) fun _ _ => ⟨trivial, fun _ _ => trivial⟩
    · exact keeps_effect settling ran (.of_eq rfl) fun _ same => nomatch same
  open_keeps r params frame given settling _ _ _ := by
    have ran := on_bindParams params frame given r.store
    split at ran
    · exact keeps_effect settling ran (.of_eq rfl) fun _ _ => ⟨trivial, fun _ _ => trivial⟩
    · exact keeps_effect settling ran (.of_eq rfl) fun _ same => nomatch same
  perform_keeps r p given settling _ _ := by
    have performing : caching.KeepsEffect (p.operation.run added given) (r.applying p given)
        fun v s => caching.value s v :=
      keeps_effect (settling.applying p given) (Prod.eta _).symm
        (operation_preserves added leaves p.operation given r.store) fun w _ => value_all _ w
    exact performing
  begins r code frame settling _ := ⟨settling.beginning _, later_of_preserves fun _ _ found =>
    found⟩
  ends r code frame before outcome settling unnamed _ := by
    refine ⟨settling.note _ rfl (fun _ _ _ _ same => nomatch same) fun id v found => ?_,
      later_of_preserves fun _ _ found => found⟩
    unfold Event.reference? at found
    split at found
    · next name _ _ _ _ same =>
        cases same
        exact absurd rfl (unnamed name)
    · cases found
  letrec_begins _ _ _ _ _ _ := trivial

theorem open_ : caching.Open := ⟨fun _ _ => trivial, fun _ _ _ => trivial⟩

end Settling

/-! New sessions. -/

def Preserving {α : Type} (x : Run α) : Prop := ∀ store : Store, store.Preserves (x.on store).2

namespace Preserving

variable {α β : Type}

theorem pure (v : α) : Preserving (pure v) := fun _ => .of_eq rfl

theorem throw (failure : Failure) : Preserving (throw failure : Run α) := fun _ => .of_eq rfl

theorem bind {x : Run α} {next : α → Run β} (first : Preserving x)
    (rest : ∀ v, Preserving (next v)) :
    Preserving (x >>= next) := by
  intro store id suspension found
  have between := first store id suspension found
  rw [Run.on_bind]
  cases ran : x.on store with
  | mk outcome after =>
      rw [ran] at between
      cases outcome with
      | ok v => exact rest v after id suspension between
      | error failure => exact between

theorem text (view? : Store → Option String) : Preserving (Run.text view?) := by
  refine bind (fun _ => .of_eq rfl) fun found => ?_
  cases found with
  | none => exact throw _
  | some text => exact pure text

theorem suppliedBindings (supplies : List (Value × Supply)) :
    Preserving (suppliedBindings supplies) := by
  induction supplies with
  | nil => exact pure []
  | cons supply rest ih =>
      rcases supply with ⟨name, v | action⟩
      · exact ih.bind fun _ => pure _
      · refine (text _).bind fun name => ?_
        refine bind (bind (fun _ => .of_eq rfl) fun _ => pure _) fun primitive => ?_
        exact ih.bind fun _ => pure _

theorem defineAll (frame : FrameId) (bindings : Bindings) :
    Preserving (Scope.defineAll frame bindings) := by
  induction bindings with
  | nil => exact pure ()
  | cons entry rest ih =>
      refine bind ?_ fun _ => ih
      unfold Scope.define
      split
      · exact bind (fun _ => .of_eq rfl) fun _ => pure _
      · exact throw _

theorem makeGlobals (supplies : List (Value × Supply)) (checked : Bool) :
    Preserving (makeGlobals supplies checked) := by
  refine bind (fun _ => .of_eq rfl) fun globals => ?_
  exact (suppliedBindings supplies).bind fun bindings => (defineAll globals bindings).bind fun _ =>
    pure _

end Preserving

theorem settling_of_ran (setup : Setup) (texts : List String) (session : Session) (r : Recording)
    (leaves : ∀ name given, Preserving (setup.added name given))
    (ran : setup.ran? texts = some (session, r)) : Settling r := by
  obtain ⟨opened, started, rfl⟩ := setup.ran?_eq_some texts session r ran
  have lawful (strategy : Strategy) := Settling.lawful setup.added strategy leaves
  have empty : Settling {} := ⟨.nil, by simp, by simp, by simp⟩
  obtain ⟨outcome, after, begun, _, _, sound, _, answer⟩ :=
    Discipline.start_keeps setup (fun strategy _ => lawful strategy) Settling.open_ empty
      fun checked _ =>
      Settling.keeps_effect empty (Prod.eta _).symm
        (Preserving.makeGlobals setup.supplies checked _)
        fun _ _ => trivial
  rw [started] at begun
  cases begun
  obtain ⟨⟨strategy, _, same⟩, _⟩ := answer
  obtain ⟨evaluator, globals⟩ := session
  obtain rfl : evaluator = _ := same
  exact (Discipline.after_keeps (lawful strategy) Settling.open_ setup.limit globals texts sound
    trivial).1

namespace Settling

variable {r : Recording} {id : ThunkId}

/-- If no force overwrites the kept value, it lasts. -/
theorem cacheStays (settling : Settling r) (never : ¬ r.Overwrites id) : r.CacheStays id := by
  have chain : r.events.IsChain (Event.KeepsOn id) := by
    have linked := settling.linked
    unfold Recording.Overwrites at never
    generalize r.events = events at linked never
    induction linked with
    | nil => exact .nil
    | singleton event => exact .singleton event
    | @cons_cons newer older rest link _ ih =>
        refine .cons_cons (fun v found => ?_) (ih ?_)
        · rcases link id v found with stays | ⟨before, w, after, rfl, unsettled, keeps, different⟩
          · exact stays
          · exact absurd ⟨[], before, w, after, older, rest, v, rfl, unsettled, keeps, found,
              different⟩ never
        · rintro ⟨front, before, w, after, last, back, v, split, facts⟩
          exact never ⟨newer :: front, before, w, after, last, back, v, by rw [split]; rfl, facts⟩
  have : Trans (Event.KeepsOn id) (Event.KeepsOn id) (Event.KeepsOn id) :=
    ⟨fun first second v found => first v (second v found)⟩
  exact chain.pairwise

theorem not_overwrites (settling : Settling r) (stays : r.CacheStays id) : ¬ r.Overwrites id := by
  rintro ⟨newer, before, v, after, last, older, w, split, unsettled, keeps, found, different⟩
  have forced := settling.forces id before v after (by simp [split]) keeps
  have rest : (.ended (.force id) before (.ok v) after :: last :: older).Pairwise
      (Event.KeepsOn id) := by
    unfold Recording.CacheStays at stays
    rw [split] at stays
    exact (List.pairwise_append.mp stays).2.1
  have still := (List.pairwise_cons.mp rest).1 last (by simp) w found
  have same := still.symm.trans forced
  exact different (Option.some.inj same)

/-- While the kept value lasts, all uses of variables bound to the suspension agree. -/
theorem references_agree (settling : Settling r) (stays : r.CacheStays id) (v w : Value)
    (first : r.References id v) (second : r.References id w) : v = w := by
  obtain ⟨one, member, found⟩ := first
  obtain ⟨other, member', found'⟩ := second
  have kept := settling.uses one member id v found
  have kept' := settling.uses other member' id w found'
  have : Std.Symm fun one other : Event => ∀ v w,
      one.store.kept? id = some v → other.store.kept? id = some w → v = w :=
    ⟨fun _ _ agree v w found found' => (agree w v found' found).symm⟩
  have agree := List.Pairwise.forall_of_forall
    (R := fun one other : Event => ∀ v w, one.store.kept? id = some v →
      other.store.kept? id = some w → v = w)
    (l := r.events) (fun event _ v w found found' => Option.some.inj (found.symm.trans found'))
    (stays.imp fun lasts v w found found' =>
      Option.some.inj (found.symm.trans (lasts w found')))
  exact agree member member' v w kept kept'

end Settling

/-- In a session, whatever it evaluates, the kept value of a suspension lasts if and only if no
force of it overwrites the value that a force nested in it has kept; and while it lasts, all uses of
variables that are bound to the suspension give one value. -/
theorem kept_value_stays_iff (setup : Setup) (texts : List String) (session : Session)
    (r : Recording) (id : ThunkId) (leaves : ∀ name given, Preserving (setup.added name given))
    (ran : setup.ran? texts = some (session, r)) :
    (r.CacheStays id ↔ ¬ r.Overwrites id) ∧
      (r.CacheStays id → ∀ v w, r.References id v → r.References id w → v = w) := by
  have settling := settling_of_ran setup texts session r leaves ran
  exact ⟨⟨settling.not_overwrites, settling.cacheStays⟩, settling.references_agree⟩

/-- An operand that uses its own parameter by way of a procedure. The use gives 7, and the one
inside it gave 2. -/
def nestedUse : String :=
  "(define n 0) (define seen nil) (define use nil)
   ((lambda ((x lazy-memo)) (set! use (lambda () x)) (list x seen))
    (begin (set! n (+ n 1)) (if (= n 1) (begin (set! seen (use)) 7) n)))"

set_option maxRecDepth 20000 in
theorem nestedUse_references :
    ((Setup.plain "mixed" true).ran? [nestedUse]).map
      (fun ran => ran.2.events.filterMap (Event.reference? 0)) = some [.int 7, .int 2] := by
  cbv

theorem nestedUse_kept_value_changes :
    ∃ session r, (Setup.plain "mixed" true).ran? [nestedUse] = some (session, r) ∧
      r.References 0 (.int 2) ∧ r.References 0 (.int 7) ∧ ¬ r.CacheStays 0 := by
  obtain ⟨⟨session, r⟩, ran, values⟩ := Option.map_eq_some_iff.mp nestedUse_references
  have referenced (v : Value) (member : v ∈ [Value.int 7, .int 2]) : r.References 0 v := by
    rw [← values] at member
    exact List.mem_filterMap.mp member
  have first := referenced (.int 2) (by simp)
  have second := referenced (.int 7) (by simp)
  refine ⟨session, r, ran, first, second, fun stays => ?_⟩
  have settling := settling_of_ran _ _ session r (fun _ _ => Preserving.pure _) ran
  have same := settling.references_agree stays (.int 2) (.int 7) first second
  cases same

theorem kept_value_stays_iff_doubled :
    ∃ session r,
      (Setup.plain "mixed" true).ran? ["((lambda ((x lazy-memo)) (+ x x)) 2)"] = some (session, r) ∧
      ((r.CacheStays 0 ↔ ¬ r.Overwrites 0) ∧
        (r.CacheStays 0 → ∀ v w, r.References 0 v → r.References 0 w → v = w)) := by
  have started : ((Setup.plain "mixed" true).ran?
      ["((lambda ((x lazy-memo)) (+ x x)) 2)"]).isSome = true := by cbv
  obtain ⟨⟨session, r⟩, ran⟩ := Option.isSome_iff_exists.mp started
  exact ⟨session, r, ran, kept_value_stays_iff _ _ session r 0 (fun _ _ => Preserving.pure _) ran⟩

end ThunkLisp
