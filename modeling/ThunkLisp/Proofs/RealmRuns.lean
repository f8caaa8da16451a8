import ThunkLisp.Proofs.Realm

/-!
Runs inside a realm. A run that begins with code and a frame of a realm stays in the realm, its
result is in the realm, and from each of its events to the next one the store only grows.
-/

namespace ThunkLisp

open Machine (effect)
open Value (Every)

structure Recording.Grows (r s : Recording) : Prop where
  store : r.store.ExtendsTo s.store
  events : ∃ newer, s.events = newer ++ r.events ∧
    (∀ event ∈ newer, r.store.ExtendsTo event.store ∧ event.store.ExtendsTo s.store) ∧
      newer.Pairwise fun later earlier => earlier.store.ExtendsTo later.store

namespace Recording.Grows

variable {r s t : Recording}

theorem trans (first : r.Grows s) (second : s.Grows t) : r.Grows t := by
  obtain ⟨newer, split, around, inside⟩ := first.events
  obtain ⟨newest, split', around', inside'⟩ := second.events
  constructor
  · exact first.store.trans second.store
  · refine ⟨newest ++ newer, by rw [split', split, List.append_assoc], ?_, ?_⟩
    · intro event member
      rcases List.mem_append.mp member with late | early
      · exact ⟨first.store.trans (around' event late).1, (around' event late).2⟩
      · exact ⟨(around event early).1, (around event early).2.trans second.store⟩
    · apply List.pairwise_append.mpr
      exact ⟨inside', inside, fun late member early member' =>
        (around early member').2.trans (around' late member).1⟩

theorem of_extendsTo {after : Store} (grows : r.store.ExtendsTo after) :
    r.Grows ⟨after, r.events⟩ :=
  ⟨grows, [], rfl, by simp, .nil⟩

theorem note (r : Recording) (event : Event) (here : event.store = r.store) :
    r.Grows (r.note event) := by
  refine ⟨.refl _, [event], rfl, ?_, List.pairwise_singleton _ _⟩
  intro found member
  obtain rfl := List.mem_singleton.mp member
  rw [here]
  exact ⟨.refl _, .refl _⟩

end Recording.Grows

namespace Realm

variable (realm : Realm)

def discipline : Discipline where
  sound r := realm.Sound r.store
  later := Recording.Grows
  later_refl r := .of_extendsTo (.refl r.store)
  later_trans _ _ _ := .trans
  view store := store
  datum := realm.Written
  leaf r v := realm.Leaf r.store v
  present r frame := realm.Holds r.store (.frame frame)
  uses _ _ _ := True
  delayed r id := realm.Holds r.store (.thunk id)
  forcible r id := realm.Holds r.store (.thunk id)
  forced r _ v := Every (realm.Leaf r.store) v
  opening _ _ _ := True
  placeholder r v := Every (realm.Leaf r.store) v
  shown _ := True

variable {realm} {r : Recording}

theorem written_of_refs_nil {code : Value} (free : code.refs = []) : realm.Written code := by
  intro ref member
  rw [free] at member
  cases member

theorem basics : HasBasics realm.Written :=
  ⟨fun _ => written_of_refs_nil rfl, written_of_refs_nil rfl, fun _ => written_of_refs_nil rfl⟩

theorem code_iff (r : Recording) (frame : FrameId) (code : Value) :
    realm.discipline.code r frame code ↔ realm.Written code := by
  constructor
  · intro whole
    exact (Value.every_refs_iff realm.within code).mp (whole.data basics)
  · intro written
    have every := (Value.every_refs_iff realm.within code).mpr written
    exact .written code (every.imp fun leaf holds => ⟨holds, fun _ _ => trivial⟩)

theorem keeps_effect {α : Type} {x : Run α} {post : α → Recording → Prop}
    {outcome : Except Failure α} {after : Store} (ran : x.on r.store = (outcome, after))
    (sound : realm.Sound after) (grows : r.store.ExtendsTo after)
    (answer : ∀ v, outcome = .ok v → post v ⟨after, r.events⟩) :
    realm.discipline.KeepsEffect x r post := by
  refine Discipline.keeps_effect outcome after ran ran sound (.of_extendsTo grows) ?_
  cases outcome with
  | ok v => exact answer v rfl
  | error failure => exact failure.shows_of_forall fun _ => trivial

theorem keeps_failure {α : Type} {x : Run α} {post : α → Recording → Prop} {failure : Failure}
    (ran : x.on r.store = (.error failure, r.store)) (sound : realm.Sound r.store) :
    realm.discipline.KeepsEffect x r post :=
  keeps_effect ran sound (.refl _) fun _ same => nomatch same

theorem task_keeps {x : Recorded Value} {y : Run Value} (task : Task)
    (doing : realm.discipline.Keeps x y (r.beginning task) fun v s =>
      Every (realm.Leaf s.store) v) :
    realm.discipline.Keeps (Machine.duringTask task x) y r fun v s =>
      Every (realm.Leaf s.store) v := by
  obtain ⟨outcome, after, ran, viewed, same, sound, later, answer⟩ := doing
  have begun : r.Grows (r.beginning task) := .note r _ rfl
  have ended : after.Grows (after.ending task r.store outcome) := .note after _ rfl
  refine ⟨outcome, after.ending task r.store outcome, ?_, viewed, congrArg List.tail same, sound,
    (begun.trans later).trans ended, ?_⟩
  · simp [Recorded.on_duringTask, ran]
  · cases outcome with
    | ok v => exact answer
    | error failure => exact answer

/-! Variables. -/

theorem holds_of_mem_chain {store : Store} (sound : realm.Sound store) (frame : FrameId)
    (held : realm.Holds store (.frame frame)) :
    ∀ owner ∈ store.chain frame, realm.Holds store (.frame owner) := by
  induction frame using Nat.strongRecOn with
  | ind frame ih =>
      intro owner member
      rw [Store.chain] at member
      rcases List.mem_cons.mp member with rfl | around
      · exact held
      · split at around
        · cases around
        · next outer found =>
            split at around
            · next less => exact ih outer less ((sound.frame frame held).1 outer found) owner around
            · cases around

theorem holds_of_find? {store : Store} (sound : realm.Sound store) {frame owner : FrameId}
    {name : Value} (held : realm.Holds store (.frame frame))
    (found : store.find? frame name = some owner) :
    realm.Holds store (.frame owner) :=
  holds_of_mem_chain sound frame held owner (store.find?_mem_chain frame owner name found)

theorem value_of_bound? {store : Store} (sound : realm.Sound store) {frame : FrameId}
    {name : String} {v : Value} (held : realm.Holds store (.frame frame))
    (bound : store.bound? frame name = some v) :
    Every (realm.Leaf store) v := by
  obtain ⟨owner, near, member⟩ := Store.mem_of_bound? bound
  exact (sound.frame owner (holds_of_find? sound held near)).2 _ member

theorem checkAssigned_keeps (sound : realm.Sound r.store) (frame : FrameId) (name v : Value)
    (value : Every (realm.Leaf r.store) v) :
    realm.discipline.KeepsEffect (Scope.checkAssigned frame name v) r
      fun w s => Every (realm.Leaf s.store) w := by
  rcases Scope.on_checkAssigned_cases frame name v r.store with ran | ⟨_, _, ran⟩
  · apply keeps_effect ran sound (.refl _)
    intro w same
    cases same
    exact value
  · exact keeps_failure ran sound

theorem evaluateVariable_keeps (inner : Inner Recorded) (plain : Inner Run) (name : String)
    (frame : FrameId) (keeps : realm.discipline.InnerKeeps inner plain)
    (sound : realm.Sound r.store) (held : realm.Holds r.store (.frame frame)) :
    realm.discipline.Keeps (Evaluator.evaluateVariable inner name frame)
      (Evaluator.evaluateVariable plain name frame) r fun v s => Every (realm.Leaf s.store) v := by
  have looking : realm.discipline.KeepsEffect (Scope.lookup frame (.sym name)) r
      fun v s => Every (realm.Leaf s.store) v := by
    rcases Scope.on_lookup_cases frame name r.store with ⟨v, bound, ran⟩ | ⟨failure, ran⟩
    · apply keeps_effect ran sound (.refl _)
      intro w same
      cases same
      exact value_of_bound? sound held bound
    · exact keeps_failure ran sound
  refine Discipline.Keeps.bind looking fun v s sound' later value => ?_
  split
  · next id =>
      have leaf := (Value.every_of_flat rfl).mp value
      have forcible : realm.Holds s.store (.thunk id) := leaf _ (by simp [Value.refs])
      refine (keeps s (.force id) sound' forcible).bind fun w t sound'' _ forced => ?_
      exact checkAssigned_keeps sound'' frame (.sym name) w forced
  · exact Discipline.keeps_pure sound' value

/-! Forcing. -/

theorem thunk_leaf (s : Recording) (id : ThunkId) (leaf : realm.discipline.leaf s (.thunk id)) :
    realm.discipline.forcible s id ∧
      ∀ t v, realm.discipline.forced t id v → realm.discipline.value t v :=
  ⟨leaf _ (by simp [Value.refs]), fun _ _ forced => forced⟩

theorem force_keeps (inner : Inner Recorded) (plain : Inner Run) (id : ThunkId)
    (keeps : realm.discipline.InnerKeeps inner plain) (sound : realm.Sound r.store)
    (held : realm.Holds r.store (.thunk id)) :
    realm.discipline.Keeps (inner.force id) (plain.force id) r fun v s =>
      Every (realm.Leaf s.store) v := by
  have reading : realm.discipline.KeepsEffect (Run.read fun store => store.thunk id) r
      fun suspension s => s = r ∧ suspension = r.store.thunk id := by
    apply keeps_effect (Run.on_read _ r.store) sound (.refl _)
    intro suspension same
    cases same
    exact ⟨rfl, rfl⟩
  refine Discipline.Keeps.bind reading fun suspension s _ _ same => ?_
  obtain ⟨rfl, rfl⟩ := same
  have holds := sound.thunk id held
  have found := Array.getElem?_eq_getElem (sound.has_of_holds held)
  rw [← Store.thunk_of_getElem? found] at found
  split
  · next v settled =>
      rw [settled] at holds
      exact Discipline.keeps_pure sound holds
  · next code home kept waiting =>
      rw [waiting] at holds found
      have whole := (code_iff s home code).mpr holds.2
      refine (keeps s (.evaluate code home) sound ⟨holds.1, .inl whole⟩).bind
        fun v t sound' later done => ?_
      refine (keeps.concrete thunk_leaf sound' (done.1 whole)).bind
        fun w u sound'' later' value => ?_
      cases kept with
      | false => exact Discipline.keeps_pure sound'' value
      | true =>
          -- the suspension is still one that is kept, since it can only have got a value
          have evolves := later.store.toEvolves.trans later'.store.toEvolves
          obtain ⟨new, found', becomes⟩ := evolves.thunks id _ found
          have still : new.isKept = true := by
            rcases becomes with rfl | ⟨_, w, rfl⟩ <;> rfl
          have settling : realm.discipline.KeepsEffect (Run.change fun store => store.settle id w) u
              fun _ s => Every (realm.Leaf s.store) w := by
            have grows := Store.ExtendsTo.settle u.store id w new found' still
            apply keeps_effect (Run.on_change _ u.store)
              (sound''.settle id w new found' still (held.grow evolves) value) grows
            intro _ _
            exact value_grow grows.toEvolves value
          refine Discipline.Keeps.bind settling fun _ v sound''' _ value' => ?_
          exact Discipline.keeps_pure sound''' value'

/-! Frames, suspensions and primitives. -/

theorem value_of_argument {v : Value} (argument : realm.discipline.argument r v) :
    Every (realm.Leaf r.store) v := by
  rcases argument with value | ⟨id, rfl, held⟩
  · exact value
  · apply (Value.every_of_flat rfl).mpr
    intro ref member
    obtain rfl := List.mem_singleton.mp member
    exact held

theorem suspend_keeps (sound : realm.Sound r.store) (code : Value) (frame : FrameId) (kept : Bool)
    (held : realm.Holds r.store (.frame frame)) (written : realm.Written code) :
    realm.discipline.KeepsEffect (suspend code frame kept) r
      fun v s => (∃ id, v = .thunk id ∧ realm.Holds s.store (.thunk id)) ∧
        s.store.frames = r.store.frames := by
  apply keeps_effect (on_suspend code frame kept r.store)
    (sound.addThunk code frame kept held written) (.addThunk r.store code frame kept)
  intro v same
  cases same
  exact ⟨⟨_, rfl, sound.holds_addThunk code frame kept⟩, rfl⟩

theorem enter_keeps (sound : realm.Sound r.store) (params : List Param) (frame : FrameId)
    (given : List Value) (held : realm.Holds r.store (.frame frame))
    (values : ∀ v ∈ given, Every (realm.Leaf r.store) v) :
    realm.discipline.KeepsEffect (bindParams params frame given) r fun inside s =>
      realm.Holds s.store (.frame inside) ∧ ∀ name, realm.discipline.uses r frame name →
        realm.discipline.uses s inside name := by
  have ran := on_bindParams params frame given r.store
  by_cases right : given.length = params.length
  · rw [if_pos right] at ran
    have each : ∀ entry ∈ (params.map fun p => Value.sym p.name).zip given,
        Every (realm.Leaf r.store) entry.2 := fun entry member =>
          values _ (List.of_mem_zip member).2
    apply keeps_effect ran (sound.extend frame _ held each)
      (.extend r.store frame _ (sound.has_of_holds held))
    intro inside same
    cases same
    exact ⟨sound.holds_extend frame _, fun _ _ => trivial⟩
  · rw [if_neg right] at ran
    exact keeps_failure ran sound

theorem bind_keeps {x : Run Value} (sound : realm.Sound r.store) (owner : FrameId) (name : String)
    (v : Value) (held : realm.Holds r.store (.frame owner)) (value : Every (realm.Leaf r.store) v)
    (ran : x.on r.store = (.ok (.sym name), r.store.bind owner (.sym name) v)) :
    realm.discipline.KeepsEffect x r fun w s => Every (realm.Leaf s.store) w := by
  apply keeps_effect ran (sound.bind owner (.sym name) v held value)
    (.bind r.store owner (.sym name) v)
  intro w same
  cases same
  exact (Value.every_sym name).mpr (leaf_of_refs_nil _ rfl)

theorem assign_keeps (sound : realm.Sound r.store) (name : String) (v : Value) (frame : FrameId)
    (held : realm.Holds r.store (.frame frame)) (value : Every (realm.Leaf r.store) v) :
    realm.discipline.KeepsEffect (Scope.assign frame (.sym name) v) r fun w s =>
      Every (realm.Leaf s.store) w := by
  have ran := Scope.on_assign frame name v r.store
  cases found : r.store.find? frame (.sym name) with
  | none =>
      rw [found] at ran
      exact keeps_failure ran sound
  | some owner =>
      rw [found] at ran
      exact bind_keeps sound owner name v (holds_of_find? sound held found) value ran

theorem leaf_results (store : Store) : HasResults (realm.Leaf store) :=
  ⟨leaf_of_refs_nil _ rfl, fun _ => leaf_of_refs_nil _ rfl, fun _ => leaf_of_refs_nil _ rfl,
    fun _ => leaf_of_refs_nil _ rfl, fun _ => leaf_of_refs_nil _ rfl, fun _ =>
      leaf_of_refs_nil _ rfl⟩

theorem operation_stays (added : AddedActions)
    (tame : ∀ name, realm.within (.action name) → Tame (added name)) (store : Store) (p : Primitive)
    (leaf : realm.Leaf store (.primitive p)) (given : List Value)
    (values : ∀ v ∈ given, Every (realm.Leaf store) v) :
    ((p.operation.run added given).on store).2.frames = store.frames ∧
      ((p.operation.run added given).on store).2.thunks = store.thunks ∧
        ∀ v, ((p.operation.run added given).on store).1 = .ok v → Every (realm.Leaf store) v := by
  by_cases foreign : ∃ name, p.operation = .added name
  · obtain ⟨name, same⟩ := foreign
    -- no run creates actions, so this one is within the realm from the start
    have held := leaf (.action name) (by simp [Value.refs, same, Operation.refs])
    have within := held.resolve_right fun created => created.1 trivial
    have acts := tame name within
    rw [same]
    exact ⟨acts.frames given store, acts.thunks given store, fun v ran =>
      acts.result _ leaf_of_refs_nil given store v values ran⟩
  · have default_ (name : String) (same : p.operation = .added name) := foreign ⟨name, same⟩
    obtain ⟨outcome, fresh, printed, ran, result⟩ :=
      Mild.operation_on (leaf_results store) added p.operation default_ given values store
    rw [ran]
    exact ⟨rfl, rfl, result⟩

theorem perform_keeps (added : AddedActions)
    (tame : ∀ name, realm.within (.action name) → Tame (added name)) (sound : realm.Sound r.store)
    (p : Primitive) (given : List Value) (leaf : realm.Leaf r.store (.primitive p))
    (values : ∀ v ∈ given, Every (realm.Leaf r.store) v) :
    realm.discipline.Keeps (Machine.duringPrimitive p given (effect (p.operation.run added given)))
      (p.operation.run added given) r fun v s => Every (realm.Leaf s.store) v := by
  obtain ⟨frames, thunks, result⟩ := operation_stays added tame r.store p leaf given values
  have evolves : r.store.Evolves ((p.operation.run added given).on r.store).2 :=
    .of_same frames thunks
  have performing : realm.discipline.KeepsEffect (p.operation.run added given) (r.applying p given)
      fun v s => Every (realm.Leaf s.store) v := by
    refine keeps_effect (r := r.applying p given) (Prod.eta _).symm (sound.of_same frames thunks)
      (.of_frames evolves frames) ?_
    intro v ran
    exact value_grow evolves (result v ran)
  obtain ⟨outcome, after, ran, viewed, same, sound', later, answer⟩ := performing
  exact ⟨outcome, after, ran, viewed, same, sound',
    Recording.Grows.trans (.note r (.applied p given r.store) rfl) later, answer⟩

/-! The laws. -/

theorem lawful (realm : Realm) (added : AddedActions) (strategy : Strategy)
    (tame : ∀ name, realm.within (.action name) → Tame (added name)) :
    realm.discipline.Lawful added strategy where
  basics := basics
  leaf_of_datum _ v written := leaf_of_written v written
  shown_of_leaf _ _ _ := trivial
  leaf_later _ _ v later leaf := leaf_grow later.store.toEvolves v leaf
  present_later _ _ _ later held := held.grow later.store.toEvolves
  uses_later _ _ _ _ _ _ _ := trivial
  delayed_later _ _ _ later held := held.grow later.store.toEvolves
  placeholder_later _ _ _ later value := value_grow later.store.toEvolves value
  opening_later _ _ _ _ _ _ _ _ := trivial
  thunk_leaf := thunk_leaf
  procedure_leaf r _ _ _ frame := and_congr_right fun _ =>
    forall_congr' fun form => imp_congr_right fun _ => (code_iff r frame form).symm
  placeholder_unassigned _ := (Value.every_of_flat rfl).mpr (leaf_of_refs_nil _ rfl)
  variable_keeps inner plain r name frame keeps sound held _ :=
    task_keeps _ (evaluateVariable_keeps (r := r.beginning _) inner plain name frame keeps sound
      held)
  force_keeps inner plain r id keeps sound held :=
    task_keeps _ (force_keeps (r := r.beginning _) inner plain id keeps sound held)
  assign_keeps _ name v frame sound held _ value := assign_keeps sound name v frame held value
  define_keeps r name v frame sound held _ value :=
    bind_keeps sound frame name v held value (Scope.on_define frame name v r.store)
  identity_keeps r sound := keeps_effect (on_takeIdentity r.store) (sound.of_same rfl rfl)
    (.of_frames (.of_same rfl rfl) rfl) fun _ _ => rfl
  suspend_keeps r code frame kept sound held whole :=
    Discipline.Keeps.imp (suspend_keeps sound code frame kept held
      ((code_iff r frame code).mp whole))
      fun _ _ _ made => made.1
  suspend_mark_keeps _ frame _ sound held :=
    Discipline.Keeps.imp (suspend_keeps sound mark frame false held (written_of_refs_nil rfl))
      fun _ _ _ made => ⟨value_of_argument (.inr made.1), made.2⟩
  enter_keeps _ params frame given sound held arguments :=
    enter_keeps sound params frame given held fun v member => value_of_argument (arguments v member)
  open_keeps _ params frame given sound held _ values :=
    enter_keeps sound params frame given held values
  perform_keeps _ p given sound leaf values := perform_keeps added tame sound p given leaf values
  begins r _ _ sound _ := ⟨sound, .note r _ rfl⟩
  ends r _ _ _ _ sound _ _ := ⟨sound, .note r _ rfl⟩
  letrec_begins _ _ _ _ _ _ := trivial

end Realm

end ThunkLisp
