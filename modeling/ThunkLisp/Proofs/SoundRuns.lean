import ThunkLisp.Proofs.Recoding
import ThunkLisp.Proofs.Runs

/-!
Sound runs. Under a policy, runs of code that may be run keep the store sound, and so is every store
that an event holds; what a task gives and what a primitive is applied to are values that the policy
allows. If the policy hides a suspension, the run is the same for any code in it.
-/

namespace ThunkLisp

open Machine (effect)
open Value (Every)

/-- The frame was opened where a `letrec` of the name stood, as the first one since the `letrec` had
begun and before it ended. -/
def Opened (events : List Event) (store : Store) (frame : FrameId) (name : String) : Prop :=
  ∃ entries forms home before newer older, events = newer ++ older ∧
    (.evaluate (Derived.letrecForm entries forms) home, before) ∈ pending older ∧
      before.frames.size = frame ∧ (∀ event ∈ newer, frame < event.store.frames.size) ∧
      (store.frame frame).outer = some home ∧ name ∈ entries.map Prod.fst

def Recording.Continues (r s : Recording) : Prop :=
  r.store.Evolves s.store ∧ ∃ newer, s.events = newer ++ r.events ∧
    ∀ event ∈ newer, r.store.frames.size ≤ event.store.frames.size

theorem Recording.Continues.trans {r s t : Recording} (first : r.Continues s)
    (second : s.Continues t) :
    r.Continues t := by
  obtain ⟨evolves, newer, split, bound⟩ := first
  obtain ⟨evolves', newer', split', bound'⟩ := second
  refine ⟨evolves.trans evolves', newer' ++ newer, by rw [split', split, List.append_assoc], ?_⟩
  intro event member
  rcases List.mem_append.mp member with member | member
  · exact Nat.le_trans evolves.size (bound' event member)
  · exact bound event member

theorem Store.lt_of_outer {store : Store} {frame around : FrameId}
    (found : (store.frame frame).outer = some around) : frame < store.frames.size := by
  by_cases present : frame < store.frames.size
  · exact present
  · simp [Store.frame, Array.getD_eq_getD_getElem?, present] at found

theorem Opened.evolve {r s : Recording} {frame : FrameId} {name : String} (goes : r.Continues s)
    (opened : Opened r.events r.store frame name) : Opened s.events s.store frame name := by
  obtain ⟨evolves, more, split, bound⟩ := goes
  obtain ⟨entries, forms, home, before, newer, older, parts, waiting, size, since, outer, named⟩ :=
    opened
  have present := Store.lt_of_outer outer
  refine ⟨entries, forms, home, before, more ++ newer, older, by
    rw [split, parts, List.append_assoc], waiting, size, fun event member => ?_, ?_, named⟩
  · rcases List.mem_append.mp member with member | member
    · exact Nat.lt_of_lt_of_le present (bound event member)
    · exact since event member
  · rw [evolves.outer frame present, outer]

theorem Recording.Continues.of_evolves {r : Recording} {after : Store}
    (evolves : r.store.Evolves after) :
    r.Continues ⟨after, r.events⟩ :=
  ⟨evolves, [], rfl, by simp⟩

theorem Recording.Continues.note (r : Recording) (event : Event) (here : event.store = r.store) :
    r.Continues (r.note event) :=
  ⟨.refl _, [event], rfl, by simp [here]⟩

namespace Policy

variable (policy : Policy)

def EventSound : Event → Prop
  | .ended (.evaluate code _) _ (.ok v) after =>
      Every (policy.Leaf after) v ∨ code = mark ∧ v = .unassigned
  | .applied _ given store => ∀ v ∈ given, Every (policy.Leaf store) v
  | _ => True

def EventsSound : List Event → Prop
  | [] => True
  | event :: older => policy.Sound (Opened older
      event.store) event.store ∧ policy.EventSound event ∧
      EventsSound older

def discipline : Discipline where
  sound r := policy.Sound (Opened r.events r.store) r.store ∧ policy.EventsSound r.events
  later := Recording.Continues
  later_refl r := .of_evolves (.refl r.store)
  later_trans _ _ _ := .trans
  view := policy.view
  datum leaf := leaf.isInert = true
  leaf r v := policy.Leaf r.store v
  present r frame := frame < r.store.frames.size
  uses r frame name := policy.Uses r.store frame name
  delayed r id := policy.Delayed r.store id
  forcible r id := ¬ policy.Hides id ∧ id < r.store.thunks.size
  forced r _ v := Every (policy.Leaf r.store) v ∨ v = .unassigned
  opening r frame names := ∃ entries forms before,
    (.evaluate (Derived.letrecForm entries forms) frame, before) ∈ pending r.events ∧
      before.frames.size = r.store.frames.size ∧ names = entries.map Prod.fst
  placeholder r v := policy.Placeholder r.store v
  shown v := v.isThunk = false

variable {policy : Policy} {r : Recording}

theorem eventsSound_split {newer : List Event} {event : Event} {older : List Event}
    (sound : policy.EventsSound (newer ++ event :: older)) :
    policy.Sound (Opened older event.store) event.store ∧ policy.EventSound event := by
  induction newer with
  | nil => exact ⟨sound.1, sound.2.1⟩
  | cons first rest ih => exact ih sound.2.2

theorem eventSound_of_mem {events : List Event} {event : Event}
    (sound : policy.EventsSound events) (member : event ∈ events) : policy.EventSound event := by
  obtain ⟨newer, older, rfl⟩ := List.append_of_mem member
  exact (eventsSound_split sound).2

/-! Effects. -/

theorem keeps_opening {α : Type} {x : Run α} {post : α → Recording → Prop}
    (sound : policy.discipline.sound r) (outcome : Except Failure α) (after : Store)
    (ran : x.on r.store = (outcome, after))
    (viewed : x.on (policy.view r.store) = (outcome, policy.view after))
    (evolves : r.store.Evolves after) (sound' : policy.Sound (Opened r.events after) after)
    (answer : policy.discipline.Answers post outcome ⟨after, r.events⟩) :
    policy.discipline.KeepsEffect x r post :=
  Discipline.keeps_effect outcome after ran viewed ⟨sound', sound.2⟩ (.of_evolves evolves) answer

theorem keeps_effect {α : Type} {x : Run α} {post : α → Recording → Prop}
    (sound : policy.discipline.sound r) (outcome : Except Failure α) (after : Store)
    (ran : x.on r.store = (outcome, after))
    (viewed : x.on (policy.view r.store) = (outcome, policy.view after))
    (evolves : r.store.Evolves after) (sound' : policy.Sound (Opened r.events r.store) after)
    (answer : policy.discipline.Answers post outcome ⟨after, r.events⟩) :
    policy.discipline.KeepsEffect x r post :=
  keeps_opening sound outcome after ran viewed evolves
    (sound'.more fun _ _ => Opened.evolve (.of_evolves evolves)) answer

theorem keeps_outcome {α : Type} {x : Run α} {post : α → Recording → Prop}
    (sound : policy.discipline.sound r) (outcome : Except Failure α)
    (ran : x.on r.store = (outcome, r.store))
    (viewed : x.on (policy.view r.store) = (outcome, policy.view r.store))
    (answer : policy.discipline.Answers post outcome r) : policy.discipline.KeepsEffect x r post :=
  keeps_effect sound outcome r.store ran viewed (.refl _) sound.1 answer

theorem note (sound : policy.discipline.sound r) (event : Event) (here : event.store = r.store)
    (holds : policy.EventSound event) :
    policy.discipline.sound (r.note event) ∧ policy.discipline.later r (r.note event) := by
  have goes := Recording.Continues.note r event here
  exact ⟨⟨sound.1.more fun _ _ => Opened.evolve goes, here ▸ sound.1, holds, sound.2⟩, goes⟩

theorem unsuspended_leaf (store : Store) (v : Value) (leaf : policy.Leaf store v) :
    v.isThunk = false := by
  cases v <;> first | rfl | cases leaf

theorem leaf_results (store : Store) : HasResults (policy.Leaf store) :=
  ⟨rfl, fun _ => rfl, fun _ => rfl, fun _ => rfl, fun _ => rfl, fun _ => rfl⟩

theorem value_sym (store : Store) (name : String) : Every (policy.Leaf store) (.sym name) :=
  (Value.every_sym name).mpr rfl

theorem shows_name {failure : Failure} (name : String)
    (phrases : ∀ phrase ∈ failure.phrases, (∃ text, phrase = .words text) ∨
      phrase = .displayed (.sym name)) :
    failure.Shows policy.discipline.shown := by
  intro phrase member
  rcases phrases phrase member with ⟨text, rfl⟩ | rfl
  · trivial
  · exact (Value.every_sym name).mpr rfl

/-! Variables. -/

theorem bound_of_bound? {opened : FrameId → String → Prop} {store : Store} {frame : FrameId}
    {name : String} {v : Value} (sound : policy.Sound opened store)
    (found : store.bound? frame name = some v) :
    ∃ owner ∈ store.chain frame, policy.Bound opened store owner name v := by
  obtain ⟨owner, near, member⟩ := Store.mem_of_bound? found
  refine ⟨owner, store.find?_mem_chain frame owner _ near, ?_⟩
  obtain ⟨symbol, same, bound⟩ := sound.bound owner _ member
  cases same
  exact bound

theorem bound_cases {opened : FrameId → String → Prop} {store : Store} {frame : FrameId}
    {name : String} {v : Value} (sound : policy.Sound opened store)
    (used : policy.Uses store frame name) (found : store.bound? frame name = some v) :
    (Every (policy.Leaf store) v ∨ v = .unassigned) ∨
      ∃ id, v = .thunk id ∧ ¬ policy.Hides id ∧ id < store.thunks.size := by
  obtain ⟨owner, around, bound⟩ := bound_of_bound? sound found
  cases bound with
  | value v every => exact .inl (.inl every)
  | delayed id holds =>
      obtain ⟨visible, suspension, there, _⟩ := holds
      exact .inr ⟨id, rfl, visible, (Array.getElem?_eq_some_iff.mp there).1⟩
  | placeholder v here holds =>
      rcases holds with rfl | ⟨id, home, rfl, visible, _, there⟩
      · exact .inl (.inr rfl)
      · exact .inr ⟨id, rfl, visible, (Array.getElem?_eq_some_iff.mp there).1⟩
  | hidden id here hides => exact absurd rfl (used owner name here around)

theorem checkAssigned_keeps (sound : policy.discipline.sound r) (name : String) (frame : FrameId)
    (v : Value) (present : frame < r.store.frames.size)
    (forced : Every (policy.Leaf r.store) v ∨ v = .unassigned) :
    policy.discipline.KeepsEffect (Scope.checkAssigned frame (.sym name) v) r
      fun w s => policy.discipline.value s w := by
  have viewed : (policy.view r.store).frame frame = r.store.frame frame := by
    simp [Store.frame, policy.view_frames]
  by_cases assigned : v = .unassigned
  · subst assigned
    have ran := Scope.on_checkAssigned_unassigned frame (.sym name) r.store
    have ran' := Scope.on_checkAssigned_unassigned frame (.sym name) (policy.view r.store)
    rw [viewed] at ran'
    refine keeps_outcome sound _ ran ran' ?_
    cases loose : policy.loose with
    | true =>
        split
        · exact shows_name name (by simp [Failure.phrases])
        · exact (Value.every_of_flat rfl).mpr loose
    | false =>
        rw [sound.1.checked loose frame present]
        exact shows_name name (by simp [Failure.phrases])
  · have ran := Scope.on_checkAssigned frame (.sym name) v r.store assigned
    have ran' := Scope.on_checkAssigned frame (.sym name) v (policy.view r.store) assigned
    exact keeps_outcome sound (.ok v) ran ran' (forced.resolve_right assigned)

theorem lookup_keeps (sound : policy.discipline.sound r) (name : String) (frame : FrameId)
    (present : frame < r.store.frames.size) (used : policy.Uses r.store frame name) :
    policy.discipline.KeepsEffect (Scope.lookup frame (.sym name)) r fun v s =>
      policy.discipline.value s v ∨ ∃ id, v = .thunk id ∧ policy.discipline.forcible s id := by
  have viewed : (policy.view r.store).frame frame = r.store.frame frame := by
    simp [Store.frame, policy.view_frames]
  have ran := Scope.on_lookup frame name r.store
  have ran' := Scope.on_lookup frame name (policy.view r.store)
  rw [Store.bound?_of_frames (policy.view_frames r.store)] at ran'
  cases found : r.store.bound? frame name with
  | none =>
      rw [found] at ran ran'
      exact keeps_outcome sound _ ran ran' (shows_name name (by simp [Failure.phrases]))
  | some v =>
      rw [found] at ran ran'
      rcases bound_cases sound.1 used found with forced | ⟨id, rfl, visible, there⟩
      · have checking := checkAssigned_keeps sound name frame v present forced
        refine Discipline.KeepsEffect.congr (Discipline.Keeps.imp checking fun w s _ value => ?_)
          ran ran'
        exact .inl value
      · refine keeps_outcome sound (.ok (.thunk id)) ?_ ?_ (.inr ⟨id, rfl, visible, there⟩)
        · exact ran.trans (Scope.on_checkAssigned frame _ _ _ (by simp))
        · exact ran'.trans (Scope.on_checkAssigned frame _ _ _ (by simp))

theorem evaluateVariable_keeps (inner : Inner Recorded) (plain : Inner Run) (name : String)
    (frame : FrameId) (keeps : policy.discipline.InnerKeeps inner plain)
    (sound : policy.discipline.sound r) (present : frame < r.store.frames.size)
    (used : policy.Uses r.store frame name) :
    policy.discipline.Keeps (Evaluator.evaluateVariable inner name frame)
      (Evaluator.evaluateVariable plain name frame) r fun v s => policy.discipline.value s v := by
  refine Discipline.Keeps.bind (lookup_keeps sound name frame present used)
    fun v s sound' later found => ?_
  split
  · next id =>
      have forcible : policy.discipline.forcible s id := by
        rcases found with value | ⟨other, same, forcible⟩
        · have leaf := (Value.every_of_flat rfl).mp value
          cases leaf
        · cases same
          exact forcible
      refine (keeps s (.force id) sound' forcible).bind fun v t sound'' later' forced => ?_
      have before := later.1.trans later'.1
      exact checkAssigned_keeps sound'' name frame v (Nat.lt_of_lt_of_le present before.size) forced
  · next plainly =>
      refine Discipline.keeps_pure sound' ?_
      rcases found with value | ⟨id, same, _⟩
      · exact value
      · exact absurd same (plainly id)

theorem task_keeps {x : Recorded Value} {y : Run Value} {task : Task}
    {post : Value → Recording → Prop} (sound : policy.discipline.sound r) (doing :
    policy.discipline.Keeps x y (r.beginning task) post)
    (holds : ∀ v s, post v s → policy.EventSound (.ended task r.store (.ok v) s.store))
    (stays : ∀ v s, post v s → post v (s.ending task r.store (.ok v))) :
    policy.discipline.Keeps (Machine.duringTask task x) y r post := by
  have begun := note sound (.began task r.store) rfl trivial
  obtain ⟨outcome, after, ran, viewed, same, sound', later, answer⟩ := doing
  have ended : policy.EventSound (.ended task r.store outcome after.store) := by
    cases outcome with
    | ok v => exact holds v after answer
    | error failure =>
        unfold EventSound
        split <;> first | trivial | simp_all
  have finished := note sound' _ rfl ended
  refine ⟨outcome, after.ending task r.store outcome, ?_, viewed, congrArg List.tail same,
    finished.1, ?_, ?_⟩
  · simp [Recorded.on_duringTask, ran]
  · exact policy.discipline.later_trans _ _ _
      (policy.discipline.later_trans _ _ _ begun.2 later) finished.2
  · cases outcome with
    | ok v => exact stays v after answer
    | error failure => exact answer

/-! Forcing. -/

theorem read_thunk_keeps (sound : policy.discipline.sound r) (id : ThunkId)
    (visible : ¬ policy.Hides id) :
    policy.discipline.KeepsEffect (Run.read fun store => store.thunk id) r
      fun suspension s => s = r ∧ suspension = r.store.thunk id := by
  refine keeps_outcome sound (.ok (r.store.thunk id)) rfl ?_ ⟨rfl, rfl⟩
  rw [Run.on_read, policy.view_thunk r.store id visible]

theorem settle_keeps (sound : policy.discipline.sound r) (id : ThunkId) (v : Value)
    (visible : ¬ policy.Hides id) (suspension : Suspension)
    (found : r.store.thunks[id]? = some suspension) (kept : suspension.isKept = true)
    (value : policy.discipline.value r v) :
    policy.discipline.KeepsEffect (Run.change fun store => store.settle id v) r
      fun _ s => policy.discipline.value s v := by
  have evolves := Store.Evolves.settle r.store id v suspension found kept
  refine keeps_effect sound (.ok ()) (r.store.settle id v) rfl ?_ evolves
    (sound.1.settle id v suspension visible found kept value) (evolves.value value)
  rw [Run.on_change, policy.view_settle r.store id v visible]

theorem thunk_leaf (s : Recording) (id : ThunkId) (leaf : policy.discipline.leaf s (.thunk id)) :
    policy.discipline.forcible s id ∧
      ∀ t v, policy.discipline.forced t id v → policy.discipline.value t v := by
  cases leaf

/-- Evaluating suspended code gives a value, or the mark if that is what is suspended. -/
theorem suspended_keeps (inner : Inner Recorded) (plain : Inner Run) (code : Value) (home : FrameId)
    (kept : Bool) (keeps : policy.discipline.InnerKeeps inner plain)
    (sound : policy.discipline.sound r) (id : ThunkId) (visible : ¬ policy.Hides id)
    (found : r.store.thunks[id]? = some (.waiting code home kept)) :
    policy.discipline.Keeps (inner.evaluate code home >>= inner.concrete)
      (plain.evaluate code home >>= plain.concrete) r
      fun v s => policy.discipline.value s v ∨ kept = false ∧ v = .unassigned := by
  rcases sound.1.suspended id _ found with hides | ⟨_, frame, present, same⟩ | ⟨present, runs⟩
  · exact absurd hides visible
  · cases same
    refine (keeps r (.evaluate mark home) sound ⟨present, .inr rfl⟩).bind
      fun v s sound' _ done => ?_
    obtain rfl := done.2 rfl
    exact Discipline.keeps_pure sound' (.inr ⟨rfl, rfl⟩)
  · refine (keeps r (.evaluate code home) sound ⟨present, .inl runs⟩).bind fun v s sound' _ done =>
    ?_
    exact (keeps.concrete thunk_leaf sound' (done.1 runs)).imp fun w t _ value => .inl value

theorem force_doing_keeps (inner : Inner Recorded) (plain : Inner Run) (id : ThunkId)
    (keeps : policy.discipline.InnerKeeps inner plain) (sound : policy.discipline.sound r)
    (visible : ¬ policy.Hides id) (present : id < r.store.thunks.size) :
    policy.discipline.Keeps (inner.force id) (plain.force id) r
      fun v s => policy.discipline.forced s id v := by
  refine Discipline.Keeps.bind (read_thunk_keeps sound id visible) fun suspension s _ _ same => ?_
  obtain ⟨rfl, rfl⟩ := same
  have found := Array.getElem?_eq_getElem present
  rw [← Store.thunk_of_getElem? found] at found
  split
  · next v settled =>
      rw [settled] at found
      rcases sound.1.suspended id _ found with hides | ⟨_, _, _, same⟩ | every
      · exact absurd hides visible
      · cases same
      · exact Discipline.keeps_pure sound (.inl every)
  · next code home kept waiting =>
      rw [waiting] at found
      have working := suspended_keeps inner plain code home kept keeps sound id visible found
      rw [← bind_assoc, ← bind_assoc]
      refine working.bind fun v t sound' later value => ?_
      cases kept with
      | false =>
          rcases value with value | ⟨_, rfl⟩
          · exact Discipline.keeps_pure sound' (.inl value)
          · exact Discipline.keeps_pure sound' (.inr rfl)
      | true =>
          have value := value.resolve_right (by simp)
          -- a force inside may have settled it already
          obtain ⟨new, found', becomes⟩ := later.1.thunks id _ found
          have still : new.isKept = true := by
            rcases becomes with rfl | ⟨_, w, rfl⟩ <;> rfl
          refine Discipline.Keeps.bind (settle_keeps sound' id v visible new found' still value)
            fun _ u sound'' _ value' => ?_
          exact Discipline.keeps_pure sound'' (.inl value')

theorem force_keeps (inner : Inner Recorded) (plain : Inner Run) (id : ThunkId)
    (keeps : policy.discipline.InnerKeeps inner plain) (sound : policy.discipline.sound r)
    (forcible : policy.discipline.forcible r id) :
    policy.discipline.Keeps (Machine.duringTask (.force id) (inner.force id)) (plain.force id) r
      fun v s => policy.discipline.forced s id v := by
  have begun := note sound (.began (.force id) r.store) rfl trivial
  exact task_keeps sound (force_doing_keeps inner plain id keeps begun.1 forcible.1 forcible.2)
    (fun _ _ _ => trivial) fun _ _ forced => forced

/-! Frames and suspensions. -/

theorem not_runs_mark (store : Store) (frame : FrameId) : ¬ policy.Runs store frame mark := by
  intro runs
  have data := (Value.every_list _).mp (runs.data inert_basics)
  cases (Value.every_of_flat rfl).mp (data .unassigned (by simp))

theorem suspend_keeps (sound : policy.discipline.sound r) (code : Value) (frame : FrameId)
    (kept : Bool) (present : frame < r.store.frames.size) (runs : policy.Runs r.store frame code) :
    policy.discipline.KeepsEffect (suspend code frame kept) r
      fun v s => ∃ id, v = .thunk id ∧ policy.discipline.delayed s id := by
  have ran := on_suspend code frame kept (policy.view r.store)
  rw [policy.view_addThunk r.store code frame kept sound.1.present_of_hides] at ran
  have size : (policy.view r.store).thunks.size = r.store.thunks.size := by
    unfold view
    split <;> simp [Store.recode]
  rw [size] at ran
  refine keeps_effect sound (.ok (.thunk r.store.thunks.size)) _
    (on_suspend code frame kept r.store) ran
    (.addThunk _ _ _ _) (sound.1.addThunk code frame kept (.inr (.inr ⟨present, runs⟩)))
    ⟨r.store.thunks.size, rfl, fun hides => ?_, .waiting code frame kept, ?_, fun home same => ?_⟩
  · exact Nat.lt_irrefl _ (sound.1.present_of_hides _ hides)
  · simp [Store.addThunk]
  · cases same
    exact not_runs_mark r.store frame runs

theorem suspend_mark_keeps (sound : policy.discipline.sound r) (frame : FrameId)
    (suspends : policy.suspends = true) (present : frame < r.store.frames.size) :
    policy.discipline.KeepsEffect (suspend mark frame false) r
      fun v s => policy.discipline.placeholder s v ∧ s.store.frames = r.store.frames := by
  have ran := on_suspend mark frame false (policy.view r.store)
  rw [policy.view_addThunk r.store mark frame false sound.1.present_of_hides] at ran
  have size : (policy.view r.store).thunks.size = r.store.thunks.size := by
    unfold view
    split <;> simp [Store.recode]
  rw [size] at ran
  refine keeps_effect sound (.ok (.thunk r.store.thunks.size)) _
    (on_suspend mark frame false r.store) ran
    (.addThunk _ _ _ _)
    (sound.1.addThunk mark frame false (.inr (.inl ⟨suspends, present, rfl, rfl⟩)))
    ⟨.inr ⟨r.store.thunks.size, frame, rfl, fun hides => ?_, suspends, ?_⟩, rfl⟩
  · exact Nat.lt_irrefl _ (sound.1.present_of_hides _ hides)
  · simp [Store.addThunk]

/-- Code that may run in the frame around a new one may run in the new one. -/
theorem uses_extend {opened : FrameId → String → Prop} {store : Store}
    (sound : policy.Sound opened store) (frame : FrameId) (bindings : Bindings)
    (present : frame < store.frames.size) (name : String) (used : policy.Uses store frame name) :
    policy.Uses (store.extend frame bindings).2 store.frames.size name := by
  have evolves : store.Evolves (store.extend frame bindings).2 := Store.Evolves.addFrame store _ _ _
  have outer : ((store.extend frame bindings).2.frame store.frames.size).outer = some frame := by
    simp [Store.extend, Store.addFrame, Store.frame, Array.getD_eq_getD_getElem?]
  intro owner unused here around
  rw [Store.chain, outer] at around
  simp only [present, if_true] at around
  rcases List.mem_cons.mp around with rfl | around
  · exact absurd (sound.place _ unused here) (Nat.lt_irrefl _)
  · rw [evolves.chain frame present] at around
    exact used owner unused here around

theorem bindParams_keeps (sound : policy.discipline.sound r) (params : List Param) (frame : FrameId)
    (given : List Value) (present : frame < r.store.frames.size)
    (bound : ∀ (bindings : Bindings), ∀ param ∈ params, ∀ v ∈ given,
      policy.Bound (Opened r.events (r.store.extend frame bindings).2)
        (r.store.extend frame bindings).2
        r.store.frames.size param.name v) :
    policy.discipline.KeepsEffect (bindParams params frame given) r fun inside s =>
      inside < s.store.frames.size ∧
        ∀ name, policy.Uses r.store frame name → policy.Uses s.store inside name := by
  have ran := on_bindParams params frame given r.store
  have ran' := on_bindParams params frame given (policy.view r.store)
  rw [policy.view_extend, policy.view_frames] at ran'
  split at ran
  · next count =>
      rw [if_pos count] at ran'
      generalize zipped : (params.map fun p => Value.sym p.name).zip given = bindings at ran ran'
      have evolves : r.store.Evolves (r.store.extend frame bindings).2 :=
        Store.Evolves.addFrame _ _ _ _
      have opened : policy.Sound (Opened r.events (r.store.extend frame bindings).2) r.store :=
        sound.1.more fun _ _ => Opened.evolve (.of_evolves evolves)
      refine keeps_opening sound (.ok r.store.frames.size) _ ran ran' evolves
        (opened.extend frame bindings present fun entry member => ?_) ⟨?_, fun name used => ?_⟩
      · rw [← zipped] at member
        obtain ⟨named, valued⟩ := List.of_mem_zip member
        obtain ⟨param, inside, same⟩ := List.mem_map.mp named
        exact ⟨param.name, same.symm, bound bindings param inside entry.2 valued⟩
      · simp [Store.extend, Store.addFrame]
      · exact uses_extend sound.1 frame bindings present name used
  · next count =>
      rw [if_neg count] at ran'
      exact keeps_outcome sound _ ran ran'
        (by simp [Discipline.Answers, Failure.Shows, Failure.phrases, Phrase.Shows])

theorem enter_keeps (sound : policy.discipline.sound r) (params : List Param) (frame : FrameId)
    (given : List Value) (present : frame < r.store.frames.size)
    (arguments : ∀ v ∈ given, policy.discipline.argument r v) :
    policy.discipline.KeepsEffect (bindParams params frame given) r fun inside s =>
      inside < s.store.frames.size ∧
        ∀ name, policy.Uses r.store frame name → policy.Uses s.store inside name := by
  refine bindParams_keeps sound params frame given present fun bindings param _ v member => ?_
  have evolves : r.store.Evolves (r.store.extend frame bindings).2 := Store.Evolves.addFrame _ _ _ _
  rcases arguments v member with value | ⟨id, rfl, delayed⟩
  · exact .value v (evolves.value value)
  · exact .delayed id (delayed.evolve evolves)

theorem open_keeps (sound : policy.discipline.sound r) (params : List Param) (frame : FrameId)
    (given : List Value) (present : frame < r.store.frames.size)
    (opening : policy.discipline.opening r frame (params.map Param.name))
    (placeholders : ∀ v ∈ given, policy.discipline.placeholder r v) :
    policy.discipline.KeepsEffect (bindParams params frame given) r fun inside s =>
      inside < s.store.frames.size ∧
        ∀ name, policy.Uses r.store frame name → policy.Uses s.store inside name := by
  refine bindParams_keeps sound params frame given present fun bindings param inside v member => ?_
  have evolves : r.store.Evolves (r.store.extend frame bindings).2 := Store.Evolves.addFrame _ _ _ _
  obtain ⟨entries, forms, before, waiting, size, names⟩ := opening
  refine .placeholder v
    (.inr ⟨entries, forms, frame, before, [], r.events, rfl, waiting, size, by simp, ?_, ?_⟩)
    (Placeholder.evolve evolves (placeholders v member))
  · simp [Store.extend, Store.addFrame, Store.frame, Array.getD_eq_getD_getElem?]
  · rw [← names]
    exact List.mem_map_of_mem inside

/-! Assignments and primitives. -/

theorem bind_keeps {x : Run Value} (sound : policy.discipline.sound r) (name : String) (v : Value)
    (frame : FrameId) (value : policy.discipline.value r v)
    (ran : ∀ store : Store, store.frames = r.store.frames →
      x.on store = (.ok (.sym name), store.bind frame (.sym name) v)) :
    policy.discipline.KeepsEffect x r fun w s => policy.discipline.value s w := by
  refine keeps_effect sound (.ok (.sym name)) _ (ran r.store rfl) ?_ (.bind _ _ _ _)
    (sound.1.bind frame name v value) (value_sym _ name)
  rw [ran _ (policy.view_frames r.store), policy.view_bind]

theorem assign_keeps (sound : policy.discipline.sound r) (name : String) (v : Value)
    (frame : FrameId) (value : policy.discipline.value r v) :
    policy.discipline.KeepsEffect (Scope.assign frame (.sym name) v) r
      fun w s => policy.discipline.value s w := by
  cases found : r.store.find? frame (.sym name) with
  | none =>
      have ran (store : Store) (same : store.frames = r.store.frames) :
          (Scope.assign frame (.sym name) v).on store =
            (.error (.unboundTarget (.sym name)), store) := by
        rw [Scope.on_assign, Store.find?_of_frames same, found]
      exact keeps_outcome sound _ (ran r.store rfl) (ran _ (policy.view_frames r.store))
        (shows_name name (by simp [Failure.phrases]))
  | some owner =>
      refine bind_keeps sound name v owner value fun store same => ?_
      rw [Scope.on_assign, Store.find?_of_frames same, found]

theorem identity_keeps (sound : policy.discipline.sound r) :
    policy.discipline.KeepsEffect (Run.make Store.takeIdentity) r
      fun _ s => s.store.frames = r.store.frames := by
  have mild : Mild policy.view (fun _ => True) (fun _ => True) (Run.make Store.takeIdentity) :=
    Mild.takeIdentity policy.clear_view
  obtain ⟨outcome, fresh, printed, ran, viewed, _⟩ := mild r.store
  refine keeps_effect sound outcome _ ran ?_ (.of_same rfl rfl) (sound.1.of_same rfl rfl) ?_
  · exact viewed.trans (congrArg (Prod.mk outcome)
      (policy.clear_view.update r.store fresh printed).symm)
  · rw [on_takeIdentity] at ran
    cases ran
    rfl

theorem perform_keeps (added : AddedActions) (sound : policy.discipline.sound r) (p : Primitive)
    (given : List Value) (leaf : policy.Leaf r.store (.primitive p))
    (values : ∀ v ∈ given, policy.discipline.value r v) :
    policy.discipline.Keeps (Machine.duringPrimitive p given (effect (p.operation.run added given)))
      (p.operation.run added given) r fun v s => policy.discipline.value s v := by
  have applied := note sound (.applied p given r.store) rfl values
  have mild := Mild.operation policy.clear_view (leaf_results r.store)
    (unsuspended_leaf r.store) added
    p.operation ((Operation.isDefault_iff _).mp leaf) given values fun v member store =>
      displayed_of_unsuspended _ _ v ((values v member).imp (unsuspended_leaf r.store))
  obtain ⟨outcome, fresh, printed, ran, viewed, fine⟩ := mild r.store
  have evolves : r.store.Evolves { r.store with fresh := fresh, printed := printed } :=
    .of_same rfl rfl
  have performing : policy.discipline.KeepsEffect (p.operation.run added given)
      (r.note (.applied p given r.store)) fun v s => policy.discipline.value s v := by
    refine keeps_effect applied.1 outcome _ ran ?_ evolves (applied.1.1.of_same rfl rfl) ?_
    · exact viewed.trans (congrArg (Prod.mk outcome)
        (policy.clear_view.update r.store fresh printed).symm)
    · cases outcome with
      | ok v => exact evolves.value fine
      | error failure => exact fine
  obtain ⟨result, after, ran', viewed', same, sound', later, answer⟩ := performing
  exact ⟨result, after, ran', viewed', same, sound',
    policy.discipline.later_trans _ _ _ applied.2 later, answer⟩

/-! The laws. -/

theorem lawful (policy : Policy) (added : AddedActions) (strategy : Strategy)
    (suspends : strategy = .lazy → policy.suspends = true) :
      policy.discipline.Lawful added strategy where
  basics := inert_basics
  leaf_of_datum _ v datum := by cases v <;> first | exact datum | cases datum
  shown_of_leaf r v leaf := unsuspended_leaf r.store v leaf
  leaf_later _ _ v later leaf := later.1.leaf v leaf
  present_later _ _ _ later present := Nat.lt_of_lt_of_le present later.1.size
  uses_later _ _ frame name later present used := (later.1.uses_iff frame present name).mpr used
  delayed_later _ _ _ later delayed := delayed.evolve later.1
  placeholder_later _ _ _ later placeholder := placeholder.evolve later.1
  opening_later r s frame names later same more opening := by
    obtain ⟨entries, forms, before, waiting, size, names⟩ := opening
    exact ⟨entries, forms, before, more _ waiting, by rw [size, same], names⟩
  thunk_leaf := thunk_leaf
  procedure_leaf _ _ _ _ _ := Iff.rfl
  placeholder_unassigned _ := .inl rfl
  variable_keeps inner plain r name frame keeps sound present used := by
    have begun := note sound (.began (.evaluate (.sym name) frame) r.store) rfl trivial
    exact task_keeps sound (evaluateVariable_keeps inner plain name frame keeps begun.1 present
      used)
      (fun v s value => .inl value) fun v s value => value
  force_keeps inner plain r id keeps sound forcible :=
    force_keeps inner plain id keeps sound forcible
  assign_keeps r name v frame sound _ _ value := assign_keeps sound name v frame value
  define_keeps r name v frame sound _ _ value :=
    bind_keeps sound name v frame value fun store _ => Scope.on_define frame name v store
  identity_keeps r sound := identity_keeps sound
  suspend_keeps r code frame kept sound present runs :=
    suspend_keeps sound code frame kept present runs
  suspend_mark_keeps r frame lazily sound present :=
    suspend_mark_keeps sound frame (suspends lazily) present
  enter_keeps r params frame given sound present arguments :=
    enter_keeps sound params frame given present arguments
  open_keeps r params frame given sound present opening placeholders :=
    open_keeps sound params frame given present opening placeholders
  perform_keeps r p given sound leaf values := perform_keeps added sound p given leaf values
  begins r code frame sound _ := note sound _ rfl trivial
  ends r code frame before outcome sound _ done := by
    refine note sound _ rfl ?_
    cases outcome with
    | ok v => exact done v rfl
    | error failure =>
        unfold EventSound
        split <;> first | trivial | simp_all
  letrec_begins r entries forms frame _ _ :=
    ⟨entries, forms, r.store, List.mem_cons_self .., rfl, rfl⟩

/-! New sessions. -/

theorem on_suppliedBindings (bindings : Bindings) (store : Store) :
    (suppliedBindings (bindings.map fun entry => (entry.1, .value entry.2))).on store =
      (.ok bindings, store) := by
  induction bindings with
  | nil => rfl
  | cons entry rest ih => simp only [List.map_cons, suppliedBindings, Run.on_bind, ih, Run.on_pure]

theorem sound_root {opened : FrameId → String → Prop} {store : Store}
    (sound : policy.Sound opened store) (checked : Bool)
    (strict : policy.loose = false → checked = true) :
    policy.Sound opened (store.addFrame [] none (some checked)).2 := by
  refine sound.addFrame [] none (some checked) nofun (List.forall_mem_nil _) fun tight => ?_
  simpa [Store.addFrame, Store.frame, Array.getD_eq_getD_getElem?] using strict tight

theorem defineAll_keeps (globals : FrameId) (bindings : Bindings)
    (sound : policy.discipline.sound r) (present : globals < r.store.frames.size)
    (each : ∀ entry ∈ bindings, ∃ name operation, entry =
    (.sym name, defaultPrimitive name operation) ∧
      ∀ name, operation ≠ .added name) :
    policy.discipline.KeepsEffect (Scope.defineAll globals bindings) r
      fun _ s => globals < s.store.frames.size := by
  induction bindings generalizing r with
  | nil => exact Discipline.keeps_pure sound present
  | cons entry rest ih =>
      obtain ⟨name, operation, rfl, default_⟩ := each entry (by simp)
      have value : policy.discipline.value r (defaultPrimitive name operation) :=
        (Value.every_of_flat rfl).mpr ((Operation.isDefault_iff operation).mpr default_)
      have defining := bind_keeps (x := Scope.define globals (.sym name)
        (defaultPrimitive name operation))
        sound name _ globals value fun store _ => Scope.on_define globals name _ store
      refine Discipline.KeepsEffect.bind defining fun _ s sound' later _ => ?_
      exact ih sound' (Nat.lt_of_lt_of_le present later.1.size) fun found member =>
        each found (by simp [member])

theorem defaultPrimitives_each (entry : Value × Value) (member : entry ∈ defaultPrimitives) :
    ∃ name operation, entry = (.sym name, defaultPrimitive name operation) ∧
      ∀ name, operation ≠ .added name := by
  obtain ⟨⟨name, operation⟩, inside, rfl⟩ := List.mem_map.mp member
  refine ⟨name, operation, rfl, fun action same => ?_⟩
  subst same
  simp [defaultOperations] at inside

theorem makeGlobals_keeps (visible : policy.hidden = none) (checked : Bool)
    (strict : policy.loose = false → checked = true) (sound : policy.discipline.sound r) :
    policy.discipline.KeepsEffect (makeGlobals defaultSupplies checked) r
      fun globals s => globals < s.store.frames.size := by
  have same (store : Store) : policy.view store = store := by simp [view, visible]
  have rooting : policy.discipline.KeepsEffect
      (Run.make fun store => store.addFrame [] none (some checked)) r
      fun globals s => globals < s.store.frames.size := by
    refine keeps_effect sound (.ok r.store.frames.size) _ (Run.on_make _ r.store) ?_
      (.addFrame _ _ _ _)
      (sound_root sound.1 checked strict) ?_
    · rw [same, same]
      rfl
    · simp [Discipline.Answers, Store.addFrame]
  refine Discipline.KeepsEffect.bind rooting fun globals s sound' _ present => ?_
  have supplying : policy.discipline.KeepsEffect (suppliedBindings defaultSupplies) s
      fun bindings t => bindings = defaultPrimitives ∧ t = s :=
    keeps_outcome sound' (.ok defaultPrimitives) (on_suppliedBindings defaultPrimitives _)
      (on_suppliedBindings defaultPrimitives _) ⟨rfl, rfl⟩
  refine Discipline.KeepsEffect.bind supplying fun bindings t _ _ supplied => ?_
  obtain ⟨rfl, rfl⟩ := supplied
  refine Discipline.KeepsEffect.bind
    (defineAll_keeps globals defaultPrimitives sound' present defaultPrimitives_each)
    fun _ u sound'' _ still => ?_
  exact Discipline.keeps_pure sound'' still

theorem open_ (unplaced : policy.place = none) : policy.discipline.Open :=
  ⟨fun _ => inert_of_isReadable, fun _ _ _ owner unused here => by
    rw [unplaced] at here; cases here⟩

theorem sound_empty (visible : policy.hidden = none) (unplaced : policy.place = none) :
    policy.discipline.sound {} := by
  refine ⟨⟨?_, ?_, ?_, ?_, ?_, ?_⟩, trivial⟩
  · intro frame around found
    cases found
  · intro frame entry member
    cases member
  · intro id suspension found
    simp at found
  · intro _ frame less
    simp at less
  · rintro id ⟨code, hides⟩
    rw [visible] at hides
    cases hides
  · intro owner name here
    rw [unplaced] at here
    cases here

/-- A session with the default primitives is sound, whatever it evaluates. -/
theorem sound_of_ran (policy : Policy) (visible : policy.hidden = none)
    (unplaced : policy.place = none) (setup : Setup) (texts : List String) (session : Session)
    (r : Recording) (default_ : setup.supplies = defaultSupplies)
    (strict : policy.loose = false → setup.checked = .ok true)
    (suspends : setup.strategy = .ok .lazy → policy.suspends = true)
    (ran : setup.ran? texts = some (session, r)) :
    policy.discipline.sound r ∧ session.globals < r.store.frames.size ∧
      ∃ strategy, setup.strategy = .ok strategy ∧
        session.evaluator = Discipline.evaluator setup.added strategy := by
  obtain ⟨opened, started, rfl⟩ := setup.ran?_eq_some texts session r ran
  have laws (strategy : Strategy) (chosen : setup.strategy = .ok strategy) :
      policy.discipline.Lawful setup.added strategy :=
    lawful policy setup.added strategy fun lazily => suspends (by rw [chosen, lazily])
  have free := open_ unplaced
  obtain ⟨outcome, after, begun, _, _, sound, _, answer⟩ :=
    Discipline.start_keeps setup laws free (sound_empty visible unplaced) fun checked decided =>
      default_ ▸ makeGlobals_keeps visible checked
        (fun tight => by simpa [decided] using strict tight) (sound_empty visible unplaced)
  rw [started] at begun
  cases begun
  obtain ⟨⟨strategy, chosen, same⟩, present⟩ := answer
  obtain ⟨evaluator, globals⟩ := session
  obtain rfl : evaluator = _ := same
  have evaluated := Discipline.after_keeps (laws strategy chosen) free setup.limit globals texts
    sound present
  exact ⟨evaluated.1, Nat.lt_of_lt_of_le present evaluated.2.1.size, strategy, chosen, rfl⟩

end Policy

end ThunkLisp
