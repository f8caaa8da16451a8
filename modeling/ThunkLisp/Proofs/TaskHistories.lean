import Mathlib
import ThunkLisp.Proofs.Couplings
import ThunkLisp.Proofs.KeptValues
import ThunkLisp.Proofs.SessionGrowth

/-!
Histories of tasks. Whatever a session is asked for, each task that has begun was run to its end
from the recording it began in, so what has happened meanwhile is known from the rule of the task.
What has happened in the course of a force is worked out here.
-/

namespace ThunkLisp

open Machine (effect)

/-! Parts of a history. A part that ends with what is older than an event is from that event on. -/

theorem suffix_cases {event : Event} {older part events : List Event}
    (here : (event :: older) <:+ events) (part_ : part <:+ events) :
    (event :: older) <:+ part ∨ part <:+ older := by
  rcases List.suffix_or_suffix_of_suffix here part_ with inside | inside
  · exact .inl inside
  · rcases List.suffix_cons_iff.mp inside with rfl | inside
    · exact .inl List.suffix_rfl
    · exact .inr inside

theorem not_cons_suffix_of_suffix {event : Event} {older part : List Event}
    (here : (event :: older) <:+ part) (since : part <:+ older) : False := by
  have longer := here.length_le
  have shorter := since.length_le
  rw [List.length_cons] at longer
  omega

theorem suffix_cases_since {event first : Event} {older base events : List Event}
    (here : (event :: older) <:+ events) (from_ : (first :: base) <:+ events)
    (since : base <:+ older) :
    event = first ∧ older = base ∨ (first :: base) <:+ older := by
  rcases suffix_cases here from_ with inside | inside
  · rcases List.suffix_cons_iff.mp inside with same | inside
    · exact .inl (List.cons.inj same)
    · exact (not_cons_suffix_of_suffix inside since).elim
  · exact .inr inside

/-- The task is that of the suspension's own code, if it is an evaluation, and the suspension waits.
-/
def Task.Serves (task : Task) (id : ThunkId) (store : Store) : Prop :=
  ∀ code frame, task = .evaluate code frame → ∃ kept, store.thunk id = .waiting code frame kept

/-- If the innermost task around it is a force, the task serves it. -/
def Task.Called (task : Task) (store : Store) (around : List (Task × Store)) : Prop :=
  ∀ id begun outer, around = (.force id, begun) :: outer → task.Serves id store

namespace Recording

/-- The tasks that have begun since, and not inside of others that have, are as told. -/
def Begins (r s : Recording) (post : Task → Store → Prop) : Prop :=
  ∀ task store older, (.began task store :: older) <:+ s.events → r.events <:+ older →
    pending older = pending r.events → post task store

/-- What is known of a task that has begun between two recordings. -/
structure Accounts (evaluator : Evaluator) (r s : Recording) (task : Task) (store : Store)
    (older : List Event) :
    Prop where
  around : pending r.events <:+ pending older
  ran : ∃ limit, ((evaluator.run (limit + 1) task : Recorded Value).on ⟨store, older⟩).2.events <:+
    s.events
  called : pending older = pending r.events ∨ task.Called store (pending older)

/-- Between two recordings all tasks that have begun were run to their end. -/
structure Completes (evaluator : Evaluator) (r s : Recording) : Prop where
  goesOn : r.events <:+ s.events
  closed : pending s.events = pending r.events
  began : ∀ task store older, (.began task store :: older) <:+ s.events → r.events <:+ older →
    Accounts evaluator r s task store older

variable {evaluator : Evaluator} {r s t : Recording}

theorem Begins.imp {post weaker : Task → Store → Prop} (begins : r.Begins s post)
    (weakens : ∀ task store, post task store → weaker task store) : r.Begins s weaker :=
  fun task store older here since level => weakens task store
    (begins task store older here since level)

theorem Begins.of_events {post : Task → Store → Prop} (same : s.events = r.events) :
    r.Begins s post :=
  fun _ _ _ here since _ => (not_cons_suffix_of_suffix (same ▸ here) since).elim

theorem Begins.trans {post : Task → Store → Prop} (between : s.events <:+ t.events)
    (closed : pending s.events = pending r.events) (first : r.Begins s post)
    (second : s.Begins t post) :
    r.Begins t post := by
  intro task store older here since level
  rcases suffix_cases here between with early | late
  · exact first task store older early since level
  · exact second task store older here late (level.trans closed.symm)

namespace Completes

theorem of_events (same : s.events = r.events) : Completes evaluator r s :=
  ⟨same ▸ List.suffix_rfl, congrArg pending same,
    fun _ _ _ here since => (not_cons_suffix_of_suffix (same ▸ here) since).elim⟩

theorem applied (p : Primitive) (given : List Value) (store after : Store) :
    Completes evaluator r ⟨after, .applied p given store :: r.events⟩ := by
  refine ⟨List.suffix_cons _ _, rfl, fun task begun older here since => ?_⟩
  rcases List.suffix_cons_iff.mp here with same | inside
  · cases same
  · exact (not_cons_suffix_of_suffix inside since).elim

theorem trans (first : Completes evaluator r s) (second : Completes evaluator s t) :
    Completes evaluator r t := by
  refine ⟨first.goesOn.trans second.goesOn, second.closed.trans first.closed, ?_⟩
  intro task store older here since
  rcases suffix_cases here second.goesOn with early | late
  · obtain ⟨around, ⟨limit, ran⟩, called⟩ := first.began task store older early since
    exact ⟨around, ⟨limit, ran.trans second.goesOn⟩, called⟩
  · obtain ⟨around, ran, called⟩ := second.began task store older here late
    rw [first.closed] at around called
    exact ⟨around, ran, called⟩

end Completes

theorem pending_beginning (r : Recording) (task : Task) :
    pending (r.beginning task).events = (task, r.store) :: pending r.events := rfl

theorem began_cases {task other : Task} {store before : Store} {outcome : Except Failure Value}
    {older : List Event} (goesOn : (r.beginning task).events <:+ s.events)
    (here : (.began other store :: older) <:+ (s.ending task before outcome).events)
    (since : r.events <:+ older) :
    (other = task ∧ store = r.store ∧ older = r.events) ∨
      (.began other store :: older) <:+ s.events ∧ (r.beginning task).events <:+ older := by
  rcases List.suffix_cons_iff.mp here with same | here
  · cases same
  · rcases suffix_cases_since here goesOn since with ⟨same, rfl⟩ | later
    · cases same
      exact .inl ⟨rfl, rfl, rfl⟩
    · exact .inr ⟨here, later⟩

/-- A task that is done leaves all tasks done that have begun since, and is the only one at its
level. -/
theorem Completes.ending {limit : Nat} {task : Task} {outcome : Except Failure Value}
    (inside : Completes evaluator (r.beginning task) s)
    (ran : ((evaluator.run (limit + 1) task : Recorded Value).on r).2 =
      s.ending task r.store outcome)
    (calls : ∀ id, task = .force id → (r.beginning task).Begins s fun other store =>
      other.Serves id store) :
    Completes evaluator r (s.ending task r.store outcome) ∧
      r.Begins (s.ending task r.store outcome) fun other store => other = task ∧
        store = r.store := by
  have before : r.events <:+ (r.beginning task).events := List.suffix_cons _ _
  have ends : s.events <:+ (s.ending task r.store outcome).events := List.suffix_cons _ _
  refine ⟨⟨(before.trans inside.goesOn).trans ends, congrArg List.tail inside.closed,
    fun other store older here since => ?_⟩, fun other store older here since level => ?_⟩
  · rcases began_cases inside.goesOn here since with ⟨rfl, rfl, rfl⟩ | ⟨deeper, later⟩
    · exact ⟨List.suffix_rfl, ⟨limit, by rw [ran]⟩, .inl rfl⟩
    · obtain ⟨around, ⟨limit', ran'⟩, called⟩ := inside.began other store older deeper later
      refine ⟨(List.suffix_cons _ _).trans around, ⟨limit', ran'.trans ends⟩, .inr ?_⟩
      rcases called with level | called
      · -- right inside of the task, which has to be a force
        intro id begun outer forcing
        rw [level, pending_beginning] at forcing
        cases forcing
        exact calls id rfl other store older deeper later level
      · exact called
  · rcases began_cases inside.goesOn here since with ⟨rfl, rfl, -⟩ | ⟨deeper, later⟩
    · exact ⟨rfl, rfl⟩
    · have around := (inside.began other store older deeper later).around.length_le
      rw [level, pending_beginning, List.length_cons] at around
      omega

end Recording

/-! Runs. -/

def completing (evaluator : Evaluator) : Coupling Recorded Recorded where
  holds post x _ := ∀ r, Recording.Completes evaluator r (x.on r).2 ∧ ∀ v, (x.on r).1 = .ok v →
    post v
  does _ x _ := ∀ r, Recording.Completes evaluator r (x.on r).2
  code _ := True
  value _ := True
  fails _ := True

namespace completing

variable {evaluator : Evaluator} {α β : Type}

theorem gives {post : α → Prop} {v : α} {y : Recorded α} (holds : post v) :
    (completing evaluator).holds post (pure v) y := by
  refine fun r => ⟨.of_events rfl, ?_⟩
  rintro _ ⟨⟩
  exact holds

theorem effects {post : α → Prop} {x : Run α} (gives : ∀ store v, (x.on store).1 = .ok v → post v) :
    (completing evaluator).HoldsEffect post x :=
  fun r => ⟨.of_events rfl, gives r.store⟩

theorem chains {between : α → Prop} {post : β → Prop} {x y : Recorded α}
    {next following : α → Recorded β} (first : (completing evaluator).holds between x y)
    (behind : ∀ v, between v → (completing evaluator).holds post (next v) (following v)) :
    (completing evaluator).holds post (x >>= next) (y >>= following) := by
  intro r
  obtain ⟨done, gives⟩ := first r
  rw [Recorded.on_bind]
  cases ran : x.on r with
  | mk outcome s =>
      rw [ran] at done gives
      cases outcome with
      | error failure => exact ⟨done, nofun⟩
      | ok v =>
          obtain ⟨done', gives'⟩ := behind v (gives v rfl) s
          exact ⟨done.trans done', gives'⟩

theorem chainsEnd {between : α → Prop} {task : Task} {x y : Recorded α}
    {next following : α → Recorded Value} (first : (completing evaluator).holds between x y)
    (behind : ∀ v, between v → (completing evaluator).does task (next v) (following v)) :
    (completing evaluator).does task (x >>= next) (y >>= following) := by
  intro r
  have whole : (completing evaluator).holds (fun _ => True) (x >>= next) (y >>= following) :=
    chains first fun v holds s => ⟨behind v holds s, fun _ _ => trivial⟩
  exact (whole r).1

theorem forces {inner inner' : Inner Recorded}
    (related : (completing evaluator).InnerHolds inner inner') (id : ThunkId) :
    (completing evaluator).holds (fun _ => True) (inner.force id) (inner'.force id) := by
  have concrete (v : Value) :
      (completing evaluator).holds (fun _ => True) (inner.concrete v) (inner'.concrete v) := by
    cases v with
    | thunk id => exact related (.force id) trivial
    | _ => exact gives trivial
  have reading : (completing evaluator).HoldsEffect (fun _ => True)
      (Run.read fun store => store.thunk id) :=
    effects fun _ _ _ => trivial
  refine chains reading fun suspension _ => ?_
  split
  · exact gives trivial
  · next code frame kept =>
      refine chains (related (.evaluate code frame) trivial) fun v _ => ?_
      refine chains (concrete v) fun found _ => ?_
      split
      · have settling : (completing evaluator).HoldsEffect (fun _ => True)
            (Run.change fun store => store.settle id found) := effects fun _ _ _ => trivial
        exact chains settling fun _ _ => gives trivial
      · exact gives trivial

end completing

theorem completing_lawful (evaluator : Evaluator) : (completing evaluator).Lawful evaluator where
  toCodeLaws := .all _
  gives := completing.gives
  chains := completing.chains
  finishes holds := fun r => (holds r).1
  chainsEnd := completing.chainsEnd
  effectGives holds := completing.gives holds
  effectChains first behind := by
    unfold Coupling.HoldsEffect
    rw [Recorded.effect_bind]
    exact completing.chains first behind
  refuses _ := completing.effects nofun
  lookup _ _ := completing.effects fun _ _ _ => trivial
  check _ _ _ _ := completing.effects fun _ _ _ => trivial
  assign _ _ _ _ _ _ := fun r => .of_events rfl
  define _ _ _ _ _ _ := fun r => .of_events rfl
  identity := completing.effects fun _ _ _ => trivial
  suspend _ _ _ _ := completing.effects fun _ _ _ => trivial
  enter _ _ _ _ := completing.effects fun _ _ _ => trivial
  perform p given _ _ := fun r => ⟨.applied p given _ _, fun _ _ => trivial⟩
  force _ _ id related := completing.forces related id

theorem Inner.force_begins {inner : Inner Recorded} {evaluator : Evaluator}
    (one : ∀ task r, Recording.Completes evaluator r ((inner task).on r).2 ∧
      r.Begins ((inner task).on r).2 fun other store => other = task ∧ store = r.store)
    (id : ThunkId) (r : Recording) :
    r.Begins ((inner.force id).on r).2 fun other store => other.Serves id store := by
  cases found : r.store.thunk id with
  | settled v =>
      rw [inner.force_on_recording_settled r v found]
      exact .of_events rfl
  | waiting code frame kept =>
      obtain ⟨done, begins⟩ := one (.evaluate code frame) r
      have first : r.Begins ((inner (.evaluate code frame)).on r).2 fun other store =>
          other.Serves id store := by
        refine begins.imp ?_
        rintro _ _ ⟨rfl, rfl⟩ _ _ ⟨⟩
        exact ⟨kept, found⟩
      -- what is evaluated may give a suspension, which is forced then
      have both : r.Begins ((inner.evaluate code frame >>= inner.concrete).on r).2
          fun other store =>
          other.Serves id store := by
        rw [Recorded.on_bind]
        cases ran : (inner.evaluate code frame).on r with
        | mk outcome s =>
            rw [Inner.evaluate] at ran
            rw [ran] at done first
            cases outcome with
            | error failure => exact first
            | ok v =>
                cases v with
                | thunk other =>
                    obtain ⟨done', begins'⟩ := one (.force other) s
                    refine first.trans done'.goesOn done.closed (begins'.imp ?_)
                    rintro _ _ ⟨rfl, -⟩ _ _ ⟨⟩
                | _ => exact first
      rw [inner.force_on_recording r found]
      cases ran : (inner.evaluate code frame >>= inner.concrete).on r with
      | mk outcome s =>
          rw [ran] at both
          cases outcome <;> cases kept <;> exact both

/-- Whatever a run begins it also does. -/
theorem Evaluator.run_completes (evaluator : Evaluator) (limit : Nat) (task : Task)
    (r : Recording) :
    Recording.Completes evaluator r ((evaluator.run limit task : Recorded Value).on r).2 ∧
      r.Begins ((evaluator.run limit task : Recorded Value).on r).2 fun other store =>
        other = task ∧ store = r.store := by
  -- on the room: the tasks inside the step have less of it
  induction limit using Nat.strongRecOn generalizing task r with
  | ind limit ih =>
      cases limit with
      | zero => exact ⟨.of_events rfl, .of_events rfl⟩
      | succ limit =>
          have related : (completing evaluator).StackHolds (evaluator.stack limit)
              (evaluator.stack limit) :=
            .of_runs evaluator limit fun smaller le task _ r =>
              ⟨(ih smaller (Nat.lt_succ_of_le le) task r).1, fun _ _ => trivial⟩
          have ready : (completing evaluator).ready task := by cases task <;> trivial
          have inside := (completing_lawful evaluator).step_does related task ready
            (r.beginning task)
          refine inside.ending rfl ?_
          rintro id rfl
          have one (task : Task) (r : Recording) :
              Recording.Completes evaluator r
                (((evaluator.stack limit).above 0 task : Recorded Value).on r).2 ∧
                r.Begins (((evaluator.stack limit).above 0 task : Recorded Value).on r).2
                  fun other store =>
                  other = task ∧ store = r.store := by
            rw [above_stack]
            exact ih _ (by omega) task r
          exact Inner.force_begins one id (r.beginning (.force id))

theorem Evaluator.run_innerHolds (evaluator : Evaluator) (limit : Nat) :
    (completing evaluator).InnerHolds (evaluator.run limit) (evaluator.run limit) :=
  fun task _ r => ⟨(evaluator.run_completes limit task r).1, fun _ _ => trivial⟩

theorem Evaluator.stackHolds (evaluator : Evaluator) (limit : Nat) :
    (completing evaluator).StackHolds (evaluator.stack limit) (evaluator.stack limit) :=
  .of_runs evaluator limit fun smaller _ => evaluator.run_innerHolds smaller

theorem Evaluator.run_events (evaluator : Evaluator) (limit : Nat) (task : Task) (r : Recording) :
    ∃ outcome after inside, (evaluator.run (limit + 1) task : Recorded Value).on r =
      (outcome, after) ∧
      after.events = .ended task r.store outcome after.store :: inside ++ .began task r.store ::
        r.events := by
  have ready : (completing evaluator).ready task := by cases task <;> trivial
  have done := (completing_lawful evaluator).step_does (evaluator.stackHolds limit) task ready
    (r.beginning task)
  obtain ⟨inside, split⟩ := done.goesOn
  exact ⟨_, _, inside, rfl, congrArg (List.cons _) split.symm⟩

/-! Forces. -/

/-- What has happened once code has been evaluated and what came of it has been forced, since the
evaluation began in the store; the newest event is the first. -/
inductive ConcreteHistory (code : Value) (frame : FrameId) (store : Store) :
    Except Failure Value → Store → List Event → Prop where
  /-- The evaluation fails or gives a value that is no suspension, -/
  | evaluated (outcome : Except Failure Value) (plain : ∀ id, outcome ≠ .ok (.thunk id))
      (last : Store)
      (inside : List Event) :
      ConcreteHistory code frame store outcome last
        (.ended (.evaluate code frame) store outcome last :: inside ++
          [.began (.evaluate code frame) store])
  /-- or it gives one, which is forced in the store that it has left. -/
  | forced (id : ThunkId) (between : Store) (first : List Event) (outcome : Except Failure Value)
      (last : Store) (second : List Event) :
      ConcreteHistory code frame store outcome last
        (.ended (.force id) between outcome last :: second ++ .began (.force id) between ::
          .ended (.evaluate code frame) store (.ok (.thunk id)) between :: first ++
            [.began (.evaluate code frame) store])

/-- What has happened by the end of a force, since it began in the store. -/
inductive ForceHistory (id : ThunkId) (store : Store) : List Event → Prop where
  /-- A value that is there is given, -/
  | settled (v : Value) (found : store.thunk id = .settled v) :
      ForceHistory id store [.ended (.force id) store (.ok v) store]
  /-- there is no room for the evaluation, -/
  | refused (code : Value) (frame : FrameId) (kept : Bool)
      (found : store.thunk id = .waiting code frame kept) :
      ForceHistory id store [.ended (.force id) store (.error .recursion) store]
  /-- or the code is evaluated and what comes of it is forced. A value is written if it is to be
  kept, -/
  | gives (code : Value) (frame : FrameId) (kept : Bool)
      (found : store.thunk id = .waiting code frame kept) (v : Value) (last : Store)
      (inside : List Event) (history : ConcreteHistory code frame store (.ok v) last inside) :
      ForceHistory id store
        (.ended (.force id) store (.ok v) (if kept then last.settle id v else last) :: inside)
  /-- and after a failure nothing is. -/
  | fails (code : Value) (frame : FrameId) (kept : Bool)
      (found : store.thunk id = .waiting code frame kept) (failure : Failure) (last : Store)
      (inside : List Event) (history : ConcreteHistory code frame store (.error failure) last
        inside) :
      ForceHistory id store (.ended (.force id) store (.error failure) last :: inside)

namespace Evaluator

/-- Where the evaluation has room, so has the force of what it gives. -/
theorem concrete_history (evaluator : Evaluator) (limit : Nat) (code : Value) (frame : FrameId)
    (r : Recording) :
    let inner : Inner Recorded := (evaluator.stack (limit + 3)).above 0
    ∃ outcome after inside,
      (inner.evaluate code frame >>= inner.concrete).on r = (outcome, after) ∧
      ConcreteHistory code frame r.store outcome after.store inside ∧
      after.events = inside ++ r.events := by
  intro inner
  obtain ⟨outcome, s, first, ran, split⟩ := evaluator.run_events limit (.evaluate code frame) r
  have evaluated : inner.evaluate code frame = evaluator.run (limit + 1) (.evaluate code frame) :=
    evaluator.evaluate_above (limit + 3) 0 code frame
  rw [Recorded.on_bind, evaluated, ran]
  have done (plain : ∀ id, outcome ≠ .ok (.thunk id)) :
      ConcreteHistory code frame r.store outcome s.store
        (.ended (.evaluate code frame) r.store outcome s.store :: first ++
          [.began (.evaluate code frame) r.store]) := .evaluated outcome plain s.store first
  cases outcome with
  | error failure => exact ⟨_, s, _, rfl, done nofun, by simp [split]⟩
  | ok v =>
      cases v with
      | thunk id =>
          obtain ⟨outcome, t, second, ran', split'⟩ := evaluator.run_events (limit + 1)
            (.force id) s
          have forced : inner (.force id) = evaluator.run (limit + 2) (.force id) :=
            evaluator.above_stack (limit + 3) 0 (.force id)
          refine ⟨outcome, t, _, ?_, .forced id s.store first outcome t.store second, by
            simp [split', split]⟩
          exact (congrArg (Recorded.on · s) forced).trans ran'
      | _ => exact ⟨_, s, _, rfl, done nofun, by simp [split]⟩

theorem force_history (evaluator : Evaluator) (limit : Nat) (id : ThunkId) (r : Recording) :
    ∃ inside, ForceHistory id r.store inside ∧
      ((evaluator.run (limit + 1) (.force id) : Recorded Value).on r).2.events =
        inside ++ .began (.force id) r.store :: r.events := by
  have running : (evaluator.run (limit + 1) (.force id) : Recorded Value).on r = _ :=
    Recorded.on_duringTask (.force id) (Inner.force ((evaluator.stack limit).above 0) id) r
  rw [running]
  cases found : r.store.thunk id with
  | settled v =>
      rw [Inner.force_on_recording_settled _ (r.beginning (.force id)) v found]
      exact ⟨_, .settled v found, rfl⟩
  | waiting code frame kept =>
      rw [Inner.force_on_recording _ (r.beginning (.force id)) found]
      -- with less room not even the code is evaluated
      rcases Nat.lt_or_ge limit 3 with little | enough
      · have none_ : limit - 2 = 0 := by omega
        rw [Recorded.on_bind, evaluate_above, none_]
        exact ⟨_, .refused code frame kept found, rfl⟩
      · obtain ⟨room, rfl⟩ : ∃ room, limit = room + 3 := ⟨limit - 3, by omega⟩
        obtain ⟨outcome, s, inside, ran, history, split⟩ :=
          evaluator.concrete_history room code frame (r.beginning (.force id))
        rw [ran]
        cases outcome with
        | error failure =>
            refine ⟨_, .fails code frame kept found failure s.store inside history, ?_⟩
            simp [Recording.ending, Recording.note, Recording.beginning, split]
        | ok v =>
            refine ⟨_, .gives code frame kept found v s.store inside history, ?_⟩
            cases kept <;> simp [Recording.ending, Recording.note, Recording.beginning, split]

end Evaluator

/-! Sessions. -/

/-- The recordings of a session that is asked for anything: from its start on, texts are evaluated,
tasks are done, functions are applied, names are bound and suspensions are made, of any code and
values and in any order. -/
inductive Setup.Served (setup : Setup) (session : Session) : Recording → Prop where
  | started {r : Recording} (starts : (Session.start setup : Recorded Session).on {} =
      (.ok session, r)) :
      Served setup session r
  | text {r : Recording} (served : Served setup session r) (limit : Nat) (source : String) :
      Served setup session ((session.evaluateTextWithin limit source : Recorded Value).on r).2
  | task {r : Recording} (served : Served setup session r) (limit : Nat) (task : Task) :
      Served setup session ((session.evaluator.run limit task : Recorded Value).on r).2
  | applied {r : Recording} (served : Served setup session r) (limit : Nat) (fn : Value)
      (given : List Value) :
      Served setup session
        ((apply session.evaluator.added ((session.evaluator.stack limit).above appliedCalls) fn
          given :
          Recorded Value).on r).2
  | bound {r : Recording} (served : Served setup session r) (name v : Value) :
      Served setup session ⟨((session.define name v).on r.store).2, r.events⟩
  | suspended {r : Recording} (served : Served setup session r) (code : Value) (frame : FrameId)
      (kept : Bool) :
      Served setup session ⟨(r.store.addThunk code frame kept).2, r.events⟩

theorem Session.start_eventless {setup : Setup} {session : Session} {r : Recording}
    (starts : (Session.start setup : Recorded Session).on {} = (.ok session, r)) :
    ∃ strategy store, session.evaluator = ⟨FormTable.full, strategy, setup.added⟩ ∧
      r = ((session.evaluateTextWithin setup.limit setup.prelude : Recorded Value).on
        ⟨store, []⟩).2 := by
  obtain ⟨strategy, checked, globals, filled, made, rfl, rfl⟩ := Session.start_eq_ok starts
  rw [Recorded.on_effect] at made
  obtain ⟨_, rfl⟩ := Prod.mk.inj made
  exact ⟨strategy, _, rfl, rfl⟩

theorem Session.evaluateForms_completes (session : Session) (limit : Nat) (last : Value)
    (forms : List Value) (r : Recording) :
    Recording.Completes session.evaluator r
      ((session.evaluateForms limit last forms : Recorded Value).on r).2 := by
  suffices whole : (completing session.evaluator).holds (fun _ => True)
      (session.evaluateForms limit last forms)
      (session.evaluateForms limit last forms) from (whole r).1
  induction forms generalizing last with
  | nil => exact completing.gives trivial
  | cons form rest ih =>
      have first := session.evaluator.run_innerHolds limit (.evaluate form session.globals) trivial
      exact completing.chains first fun v _ => ih v

theorem Session.evaluateText_completes (session : Session) (limit : Nat) (source : String)
    (r : Recording) :
    Recording.Completes session.evaluator r
      ((session.evaluateTextWithin limit source : Recorded Value).on r).2 := by
  simp only [evaluateTextWithin, Recorded.on_bind, Recorded.on_effect, Run.on_ofExcept]
  cases readAll source with
  | error failure => exact .of_events rfl
  | ok forms => exact session.evaluateForms_completes limit .nil forms r

theorem completes_of_served {setup : Setup} {session : Session} {r : Recording}
    (served : setup.Served session r) :
    Recording.Completes session.evaluator {} r := by
  induction served with
  | started starts =>
      obtain ⟨strategy, store, _, rfl⟩ := Session.start_eventless starts
      have opened : Recording.Completes session.evaluator {} ⟨store, []⟩ := .of_events rfl
      exact opened.trans (session.evaluateText_completes setup.limit setup.prelude ⟨store, []⟩)
  | text _ limit source ih => exact ih.trans (session.evaluateText_completes limit source _)
  | task _ limit task ih => exact ih.trans (session.evaluator.run_completes limit task _).1
  | applied _ limit fn given ih =>
      have related := (session.evaluator.stackHolds limit).above appliedCalls
      have whole := (completing_lawful session.evaluator).apply_holds related fn given trivial
        fun _ _ => trivial
      exact ih.trans (whole _).1
  | bound _ name v ih => exact ih.trans (.of_events rfl)
  | suspended _ code frame kept ih => exact ih.trans (.of_events rfl)

section Served

variable {setup : Setup} {session : Session} {r : Recording}

theorem force_history_of_served (served : setup.Served session r) {id : ThunkId} {store : Store}
    {older : List Event} (here : (.began (.force id) store :: older) <:+ r.events) :
    ∃ inside, ForceHistory id store inside ∧ (inside ++ .began (.force id) store :: older) <:+
      r.events := by
  obtain ⟨limit, ran⟩ := ((completes_of_served served).began (.force id) store older here
    List.nil_suffix).ran
  obtain ⟨inside, history, split⟩ := session.evaluator.force_history limit id ⟨store, older⟩
  exact ⟨inside, history, split ▸ ran⟩

theorem evaluate_called_of_served (served : setup.Served session r) {id : ThunkId} {code : Value}
    {frame : FrameId} {begun store : Store} {older : List Event} {outer : List (Task × Store)}
    (here : (.began (.evaluate code frame) store :: older) <:+ r.events)
    (inside : pending older = (.force id, begun) :: outer) :
    ∃ kept, store.thunk id = .waiting code frame kept := by
  have known := ((completes_of_served served).began _ store older here List.nil_suffix).called
  rcases known with none_ | called
  · rw [inside] at none_
    cases none_
  · exact called id begun outer inside code frame rfl

end Served

end ThunkLisp
