import ThunkLisp.Proofs.DefaultAccords

/-!
Where suspensions are. In sessions with the default primitives no value that evaluation gives, that
a primitive is applied to or that a suspension keeps has a suspension inside, and neither has code.
A suspension is only ever bound to a parameter of a procedure, in a frame that an application of the
procedure has made.
-/

namespace ThunkLisp

open Value (Every)

/-! Values without suspensions. -/

def Value.body : Value → List Value
  | .procedure _ _ body _ => body
  | _ => []

/-- No suspension is in the value, at any depth of lists, nor in the code of its procedures. -/
def ThunkFree (v : Value) : Prop :=
  Every (fun leaf => leaf.isThunk = false ∧ ∀ form ∈ leaf.body, Unsuspended form) v

abbrev Data (v : Value) : Prop := Every (DataLeaf (fun _ => True) Value.IsWritten) v

abbrev Written (form : Value) : Prop := Every Value.IsWritten form

theorem unsuspended_of_written {form : Value} (written : Written form) : Unsuspended form :=
  written.imp fun leaf holds => by
    rcases holds with readable | rfl
    · cases leaf <;> first | rfl | cases readable
    · rfl

theorem thunkFree_of_data {v : Value} (data : Data v) : ThunkFree v :=
  data.imp fun leaf holds => by
    cases leaf with
    | thunk id => exact holds.elim
    | procedure identity params body home =>
        exact ⟨rfl, fun form member => unsuspended_of_written (holds.2 form member)⟩
    | _ => exact ⟨rfl, fun form member => nomatch member⟩

theorem data_of_written {form : Value} (written : Written form) : Data form :=
  written.imp fun _ holds => DataLeaf.of_isWritten holds

/-! Frames of applications. -/

/-- An application of the function is under way: the innermost task is to evaluate a combination
that is no special form, and its head has given the function. -/
def Applying (events : List Event) (fn : Value) : Prop :=
  ∃ head operands caller outer, (∀ word, head = .sym word → FormTable.full.find? word = none) ∧
    underWay events = (.evaluate (.list (head :: operands)) caller, some fn) :: outer

/-- An application of a procedure has made the frame: it came into being while that was under way,
stands inside the frame that the procedure was made in, and binds its parameters before all other
names. -/
structure Recording.Called (r : Recording) (frame : FrameId) (params : List Param) : Prop where
  present : frame < r.store.frames.size
  names : (params.map fun p => Value.sym p.name) <+: (r.store.frame frame).bindings.map Prod.fst
  applied : ∃ newer older identity body home, r.events = newer ++ older ∧
    (∀ event ∈ newer, frame < event.store.frames.size) ∧
      (∀ event ∈ older, event.store.frames.size ≤ frame) ∧
    Applying older (.procedure identity params body home) ∧ (r.store.frame frame).outer = some home

/-- The name is a parameter in a frame that an application of its procedure has made. -/
def Recording.Parameter (r : Recording) (frame : FrameId) (name : Value) : Prop :=
  ∃ params, r.Called frame params ∧ ∃ p ∈ params, name = .sym p.name

structure Store.Widens (store after : Store) : Prop where
  size : store.frames.size ≤ after.frames.size
  outer : ∀ frame < store.frames.size, (after.frame frame).outer = (store.frame frame).outer
  names : ∀ frame < store.frames.size,
    (store.frame frame).bindings.map Prod.fst <+: (after.frame frame).bindings.map Prod.fst

theorem Bindings.names_put (bindings : Bindings) (name v : Value) :
    bindings.map Prod.fst <+: (bindings.put name v).map Prod.fst := by
  induction bindings with
  | nil => exact List.nil_prefix
  | cons entry rest ih =>
      unfold Bindings.put
      split
      · exact List.prefix_rfl
      · exact (List.prefix_cons_inj entry.1).mpr ih

namespace Store.Widens

variable {store after : Store}

theorem names_of_eq {frame : FrameId} (same : after.frame frame = store.frame frame) :
    (store.frame frame).bindings.map Prod.fst <+: (after.frame frame).bindings.map Prod.fst := by
  simp only [same, List.prefix_rfl]

theorem of_frames (frames : after.frames = store.frames) : store.Widens after := by
  have same (frame : FrameId) : after.frame frame = store.frame frame := by
    simp [Store.frame, frames]
  exact ⟨Nat.le_of_eq (by rw [frames]), fun frame _ => by
    rw [same], fun frame _ => names_of_eq (same frame)⟩

theorem bind (store : Store) (frame : FrameId) (name v : Value) :
    store.Widens (store.bind frame name v) := by
  have evolves := Store.Evolves.bind store frame name v
  refine ⟨evolves.size, evolves.outer, fun other present => ?_⟩
  by_cases here : other = frame
  · subst here
    rw [store.frame_bind_self other name v present]
    exact Bindings.names_put _ name v
  · exact names_of_eq (store.frame_bind_of_ne frame other name v here)

theorem extend (store : Store) (frame : FrameId) (bindings : Bindings) :
    store.Widens (store.extend frame bindings).2 := by
  have evolves : store.Evolves (store.extend frame bindings).2 :=
    .addFrame store bindings (some frame) none
  exact ⟨evolves.size, evolves.outer,
    fun other present => names_of_eq (store.frame_addFrame_of_lt bindings (some frame) none other
      present)⟩

end Store.Widens

namespace Recording.Called

variable {r : Recording} {frame : FrameId} {params : List Param}

theorem widen {after : Store} (called : r.Called frame params) (widens : r.store.Widens after) :
    Recording.Called ⟨after, r.events⟩ frame params := by
  obtain ⟨newer, older, identity, body, home, split, later, earlier, applying, outer⟩ :=
    called.applied
  refine ⟨Nat.lt_of_lt_of_le called.present widens.size,
    called.names.trans (widens.names frame called.present), newer, older, identity, body, home,
    split, later, earlier, applying, ?_⟩
  rw [widens.outer frame called.present, outer]

theorem note (called : r.Called frame params) (event : Event) (same : event.store = r.store) :
    (r.note event).Called frame params := by
  obtain ⟨newer, older, identity, body, home, split, later, earlier, applying, outer⟩ :=
    called.applied
  refine ⟨called.present, called.names, event :: newer, older, identity, body, home, ?_, ?_,
    earlier, applying, outer⟩
  · simp [Recording.note, split]
  · exact List.forall_mem_cons.mpr ⟨same ▸ called.present, later⟩

theorem extend {identity : Nat} {body : List Value} {home : FrameId} {given : List Value}
    (applying : Applying r.events (.procedure identity params body home))
    (fits : given.length = params.length)
    (sizes : ∀ event ∈ r.events, event.store.frames.size ≤ r.store.frames.size) :
    Recording.Called ⟨(r.store.extend home ((params.map fun p => .sym p.name).zip given)).2,
      r.events⟩
      r.store.frames.size params := by
  -- no event so far has seen the frame, so all of them come before it
  have paired : (params.map fun p => Value.sym p.name).length ≤ given.length := by simp [fits]
  refine ⟨by simp [Store.extend, Store.addFrame], ?_, [], r.events, identity, body, home, rfl, by
    simp, sizes, applying, ?_⟩
  · simp only [Store.frame_extend_self, List.map_fst_zip paired, List.prefix_rfl]
  · rw [Store.frame_extend_self]

end Recording.Called

theorem Recording.Parameter.widen {r : Recording} {frame : FrameId} {name : Value} {after : Store}
    (parameter : r.Parameter frame name) (widens : r.store.Widens after) :
    Recording.Parameter ⟨after, r.events⟩ frame name := by
  obtain ⟨params, called, among⟩ := parameter
  exact ⟨params, called.widen widens, among⟩

theorem Recording.Parameter.note {r : Recording} {frame : FrameId} {name : Value}
    (parameter : r.Parameter frame name) (event : Event) (same : event.store = r.store) :
    (r.note event).Parameter frame name := by
  obtain ⟨params, called, among⟩ := parameter
  exact ⟨params, called.note event same, among⟩

/-! Every moment. -/

def Suspension.IsData : Suspension → Prop
  | .settled v => Data v
  | .waiting form _ _ => Written form

def Event.IsData : Event → Prop
  | .began (.evaluate form _) _ => Written form
  | .ended _ _ (.ok v) _ => Data v
  | .applied _ given _ => ∀ v ∈ given, Data v
  | _ => True

/-- A variable holds a value, or a suspension if it is a parameter. -/
def Recording.Holds (r : Recording) (strategy : Strategy) (frame : FrameId)
    (entry : Value × Value) : Prop :=
  Data entry.2 ∨ strategy ≠ .strict ∧ entry.2.isThunk = true ∧ r.Parameter frame entry.1

structure Recording.Orderly (strategy : Strategy) (r : Recording) : Prop where
  bound : ∀ frame, ∀ entry ∈ (r.store.frame frame).bindings, r.Holds strategy frame entry
  suspended : ∀ (id : ThunkId) suspension, r.store.thunks[id]? = some suspension → suspension.IsData
  sizes : ∀ event ∈ r.events, event.store.frames.size ≤ r.store.frames.size
  events : ∀ event ∈ r.events, event.IsData

namespace Recording.Orderly

variable {strategy : Strategy} {r : Recording}

theorem note (orderly : r.Orderly strategy) (event : Event) (same : event.store = r.store)
    (data : event.IsData) :
    (r.note event).Orderly strategy := by
  constructor
  · exact fun frame entry member =>
      (orderly.bound frame entry member).imp_right fun held =>
        ⟨held.1, held.2.1, held.2.2.note event same⟩
  · exact orderly.suspended
  · exact List.forall_mem_cons.mpr ⟨Nat.le_of_eq (by rw [same]; rfl), orderly.sizes⟩
  · exact List.forall_mem_cons.mpr ⟨data, orderly.events⟩

theorem widen {after : Store} (orderly : r.Orderly strategy) (widens : r.store.Widens after)
    (bound : ∀ frame, ∀ entry ∈ (after.frame frame).bindings,
      entry ∈ (r.store.frame frame).bindings ∨ Recording.Holds ⟨after, r.events⟩ strategy frame
        entry)
    (suspended : ∀ (id : ThunkId) suspension, after.thunks[id]? = some suspension →
      r.store.thunks[id]? = some suspension ∨ suspension.IsData) :
    Recording.Orderly strategy ⟨after, r.events⟩ := by
  constructor
  · intro frame entry member
    rcases bound frame entry member with before | new
    · exact (orderly.bound frame entry before).imp_right fun held =>
        ⟨held.1, held.2.1, held.2.2.widen widens⟩
    · exact new
  · intro id suspension found
    rcases suspended id suspension found with before | new
    · exact orderly.suspended id suspension before
    · exact new
  · exact fun event member => Nat.le_trans (orderly.sizes event member) widens.size
  · exact orderly.events

theorem of_same {after : Store} (orderly : r.Orderly strategy)
    (frames : after.frames = r.store.frames)
    (suspended : ∀ (id : ThunkId) suspension, after.thunks[id]? = some suspension →
      r.store.thunks[id]? = some suspension ∨ suspension.IsData) :
    Recording.Orderly strategy ⟨after, r.events⟩ := by
  refine orderly.widen (.of_frames frames) (fun frame entry member => .inl ?_) suspended
  simpa [Store.frame, frames] using member

theorem bind (orderly : r.Orderly strategy) (frame : FrameId) (name : String) {v : Value}
    (data : Data v) :
    Recording.Orderly strategy ⟨r.store.bind frame (.sym name) v, r.events⟩ := by
  refine orderly.widen (.bind r.store frame (.sym name) v) ?_ fun _ _ found => .inl found
  intro other entry member
  rcases Store.mem_bindings_bind member with before | ⟨same, -⟩
  · exact .inl before
  · exact .inr (.inl (same ▸ data))

theorem suspend (orderly : r.Orderly strategy) {form : Value} (frame : FrameId) (kept : Bool)
    (written : Written form) : Recording.Orderly strategy
      ⟨(r.store.addThunk form frame kept).2, r.events⟩ := by
  refine orderly.of_same rfl fun id suspension found => ?_
  simp only [Store.addThunk, Array.getElem?_push] at found
  split at found
  · cases found
    exact .inr written
  · exact .inl found

theorem settle (orderly : r.Orderly strategy) (id : ThunkId) {v : Value} (data : Data v) :
    Recording.Orderly strategy ⟨r.store.settle id v, r.events⟩ := by
  refine orderly.of_same rfl fun other suspension found => ?_
  simp only [Store.settle, Array.set!_eq_setIfInBounds, Array.getElem?_setIfInBounds] at found
  split at found
  · split at found
    · cases found
      exact .inr data
    · cases found
  · exact .inl found

theorem call (orderly : r.Orderly strategy) {identity : Nat} {params : List Param}
    {body : List Value} {home : FrameId} {given : List Value}
    (applying : Applying r.events (.procedure identity params body home))
    (fits : given.length = params.length)
    (arguments : ∀ v ∈ given, Data v ∨ strategy ≠ .strict ∧ v.isThunk = true) :
    Recording.Orderly strategy
      ⟨(r.store.extend home ((params.map fun p => .sym p.name).zip given)).2, r.events⟩ := by
  have called := Recording.Called.extend applying fits orderly.sizes
  refine orderly.widen (.extend r.store home _) ?_ fun _ _ found => .inl found
  intro frame entry member
  rcases Store.mem_bindings_addFrame member with before | ⟨rfl, among⟩
  · exact .inl before
  · obtain ⟨name, argument⟩ := List.of_mem_zip among
    obtain ⟨p, inside, same⟩ := List.mem_map.mp name
    exact .inr ((arguments entry.2 argument).imp_right fun suspended =>
      ⟨suspended.1, suspended.2, params, called, p, inside, same.symm⟩)

theorem isData (orderly : r.Orderly strategy) (id : ThunkId) : (r.store.thunk id).IsData := by
  cases found : r.store.thunks[id]? with
  | none =>
      simp only [Store.thunk, Array.getD_eq_getD_getElem?, found]
      exact (Value.every_of_flat rfl).mpr trivial
  | some suspension =>
      rw [Store.thunk_of_getElem? found]
      exact orderly.suspended id suspension found

end Recording.Orderly

def containing (added : AddedActions) (strategy : Strategy) : Accord where
  added := added
  strategy := strategy
  other := strategy
  datum := Value.IsWritten
  leaf := DataLeaf (fun _ => True) Value.IsWritten
  sound := Recording.Always (Recording.Orderly strategy)

theorem containing_lawful (added : AddedActions) (strategy : Strategy) :
    (containing added strategy).Lawful := by
  constructor
  case words => exact written_words
  case leaf_of_datum => exact fun v written => DataLeaf.of_isWritten written
  case body => exact fun identity params body home leaf => leaf.2
  case procedure => exact fun identity spec params body home _ _ each => ⟨fun _ _ => trivial, each⟩
  case agrees => exact fun inner fn frame operands _ => rfl
  case shallower => exact fun fn operands => Nat.le_refl _
  case bound =>
    intro r frame name v orderly bound
    obtain ⟨owner, -, member⟩ := Store.mem_of_bound? bound
    exact (orderly.now.bound owner _ member).imp_right fun held => ⟨held.1, held.2.1⟩
  case waiting =>
    intro r id form frame kept orderly waiting
    have data := orderly.now.isData id
    rw [waiting] at data
    exact data
  case settled =>
    intro r id v orderly settled
    have data := orderly.now.isData id
    rw [settled] at data
    exact ⟨data, DataLeaf.isThunk_of_every data⟩
  case begins =>
    intro r task orderly ready
    refine orderly.note _ rfl (orderly.now.note _ rfl ?_)
    cases task with
    | evaluate form frame => exact ready
    | force id => trivial
  case ends =>
    intro r task before outcome orderly done
    refine orderly.note _ rfl (orderly.now.note _ rfl ?_)
    cases outcome with
    | error failure => trivial
    | ok v =>
        have made := done v rfl
        cases task with
        | evaluate form frame => exact made.1
        | force id => exact made.1
  case binds =>
    exact fun r frame name v orderly value => orderly.withStore (orderly.now.bind frame name value)
  case numbers =>
    exact fun r orderly => orderly.withStore (orderly.now.of_same rfl fun _ _ found => .inl found)
  case suspends =>
    exact fun r form frame kept _ orderly written => orderly.withStore
      (orderly.now.suspend frame kept written)
  case settles =>
    exact fun r id v orderly data _ => orderly.withStore (orderly.now.settle id data)
  -- what a primitive prints, and the identities that it takes, touch no binding
  case performs =>
    intro r p given orderly default_ values
    have data : ∀ v ∈ given, Data v := fun v member => (values v member).1
    apply Accord.performs_default (a := containing added strategy) DataLeaf.results default_ data
    intro fresh printed
    have noted := orderly.now.note (.applied p given r.store) rfl data
    exact (orderly.note _ rfl noted).withStore (noted.of_same rfl fun _ _ found => .inl found)
  case calls =>
    intro r head operands caller identity params body home outer given orderly ordinary here fits
      arguments
    have applying : Applying r.events (.procedure identity params body home) :=
      ⟨head, operands, caller, outer, ordinary, here⟩
    exact orderly.withStore (orderly.now.call applying fits arguments)

/-- No suspension gets into data. A variable that holds one is a parameter, and under the strict
strategy there is none. -/
structure Recording.Contained (r : Recording) (strategy : Strategy) : Prop where
  code : ∀ form frame store, .began (.evaluate form frame) store ∈ r.events → ThunkFree form
  results : ∀ task before v after, .ended task before (.ok v) after ∈ r.events → ThunkFree v
  arguments : ∀ p given store, .applied p given store ∈ r.events → ∀ v ∈ given, ThunkFree v
  kept : ∀ store ∈ r.moments, ∀ id v, store.thunk id = .settled v → ThunkFree v
  waiting : ∀ store ∈ r.moments, ∀ id form frame kept,
    store.thunk id = .waiting form frame kept → ThunkFree form
  bound : ∀ past ∈ r.pasts, ∀ frame, ∀ entry ∈ (past.store.frame frame).bindings,
    ThunkFree entry.2 ∨
    strategy ≠ .strict ∧ (∃ id, entry.2 = .thunk id) ∧ past.Parameter frame entry.1

theorem Recording.Always.contained {r : Recording} {strategy : Strategy}
    (orderly : r.Always (Recording.Orderly strategy)) : r.Contained strategy := by
  have suspension : ∀ store ∈ r.moments, ∀ id, (store.thunk id).IsData := by
    rw [r.moments_eq]
    exact List.forall_mem_map.mpr fun past member => (orderly past member).isData
  constructor
  · exact fun form frame store member => thunkFree_of_data
      (data_of_written (orderly.now.events _ member))
  · exact fun task before v after member => thunkFree_of_data (orderly.now.events _ member)
  · exact fun p given store member v among => thunkFree_of_data
      (orderly.now.events _ member v among)
  · intro store member id v settled
    have data := suspension store member id
    rw [settled] at data
    exact thunkFree_of_data data
  · intro store member id form frame kept waiting
    have data := suspension store member id
    rw [waiting] at data
    exact thunkFree_of_data (data_of_written data)
  · intro past member frame entry inside
    rcases (orderly past member).bound frame entry inside with data | ⟨lazily, suspended, parameter⟩
    · exact .inl (thunkFree_of_data data)
    · refine .inr ⟨lazily, ?_, parameter⟩
      cases same : entry.2 with
      | thunk id => exact ⟨id, rfl⟩
      | _ => simp [same, Value.isThunk] at suspended

theorem emptyGlobals_orderly (strategy : Strategy) (checked : Bool) :
    Recording.Orderly strategy ⟨emptyGlobals checked, []⟩ := by
  constructor
  · intro frame entry member
    cases frame with
    | zero => cases member
    | succ frame => simp [emptyGlobals, Store.addFrame, Store.frame,
        Array.getD_eq_getD_getElem?] at member
  · exact fun id suspension found => by simp [emptyGlobals, Store.addFrame] at found
  · exact fun _ member => absurd member List.not_mem_nil
  · exact fun _ member => absurd member List.not_mem_nil

theorem nothing_orderly (strategy : Strategy) : Recording.Orderly strategy {} := by
  constructor
  · exact fun _ _ member => absurd member List.not_mem_nil
  · exact fun id suspension found => by simp at found
  · exact fun _ member => absurd member List.not_mem_nil
  · exact fun _ member => absurd member List.not_mem_nil

theorem contained_of_ran {setup : Setup} {texts : List String} {session : Session} {r : Recording}
    (supplied : setup.supplies = defaultSupplies) (ran : setup.ran? texts = some (session, r)) :
    r.Contained session.evaluator.strategy := by
  obtain ⟨strategy, chosen⟩ := Setup.strategy_of_ran ran
  have reads (text : String) : (containing setup.added strategy).Reads text :=
    Accord.reads_of_readable (a := containing setup.added strategy)
      (fun _ readable => Or.inl readable) text
  have opens : (containing setup.added strategy).Opens setup :=
    Accord.opens_default rfl supplied (fun _ default_ => default_)
      (.nothing (nothing_orderly strategy))
      (fun checked => (Recording.Always.nothing (nothing_orderly strategy)).withStore
        (emptyGlobals_orderly strategy checked)) (reads _)
  obtain ⟨orderly, same⟩ := Accord.sound_of_ran (containing_lawful setup.added strategy) opens
    chosen
    (fun text _ => reads text) ran
  rw [same]
  exact orderly.contained

end ThunkLisp
