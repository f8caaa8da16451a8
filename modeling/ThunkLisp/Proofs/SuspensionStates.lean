import Mathlib
import ThunkLisp.Proofs.EvaluatedCode
import ThunkLisp.Proofs.Suspensions
import ThunkLisp.Proofs.TaskHistories

/-!
The states of suspensions. A suspension waits with the code and the frame that it was made of, or it
is kept and has a value, which is no suspension. Only the end of a force that gives a value takes it
from the one state to the other, and a force that fails writes nothing itself. Primitives may give
suspensions, make them and force them.
-/

namespace ThunkLisp

open Machine (effect)
open Value (Every)

/-- Suspensions stay, and wait as they did or have come to have a value if they are kept. -/
def Store.ThunksEvolve (store after : Store) : Prop :=
  ∀ (id : ThunkId) old, store.thunks[id]? = some old → ∃ new, after.thunks[id]? = some new ∧
    old.Becomes new

namespace Store.ThunksEvolve

variable {a b c : Store}

theorem of_thunks (same : b.thunks = a.thunks) : a.ThunksEvolve b :=
  fun _ old found => ⟨old, same ▸ found, .inl rfl⟩

theorem trans (first : a.ThunksEvolve b) (second : b.ThunksEvolve c) : a.ThunksEvolve c := by
  intro id old found
  obtain ⟨new, found', step⟩ := first id old found
  obtain ⟨newer, found'', step'⟩ := second id new found'
  exact ⟨newer, found'', step.trans step'⟩

theorem addThunk (store : Store) (code : Value) (frame : FrameId) (kept : Bool) :
    store.ThunksEvolve (store.addThunk code frame kept).2 :=
  (Store.Evolves.addThunk store code frame kept).thunks

theorem settle {store : Store} {id : ThunkId} {old : Suspension}
    (found : store.thunks[id]? = some old) (kept : old.isKept = true) (v : Value) :
    store.ThunksEvolve (store.settle id v) :=
  (Store.Evolves.settle store id v old found kept).thunks

end Store.ThunksEvolve

/-- What added primitives do may be anything, but they leave the code and the frame of suspensions
that wait, and give a value, which is no suspension, to kept ones only. -/
structure RespectingSuspensions (added : AddedActions) : Prop where
  evolves : ∀ name given (store : Store), store.ThunksEvolve ((added name given).on store).2
  keepingNoThunk : KeepingNoThunk added

theorem Operation.run_thunksEvolve {added : AddedActions} (respects : RespectingSuspensions added)
    (operation : Operation) (given : List Value) (store : Store) :
    store.ThunksEvolve ((operation.run added given).on store).2 := by
  rcases operation.added_or_apart added given store with ⟨name, rfl⟩ | ⟨-, same⟩
  · exact respects.evolves name given store
  · exact .of_thunks same

/-! Every moment. -/

def Recording.ThunksEvolve (r : Recording) : Prop :=
  r.moments.Pairwise fun later earlier => earlier.ThunksEvolve later

namespace Recording.ThunksEvolve

variable {r : Recording}

theorem withStore {after : Store} (evolves : r.ThunksEvolve) (step : r.store.ThunksEvolve after) :
    Recording.ThunksEvolve ⟨after, r.events⟩ := by
  obtain ⟨past, before⟩ := List.pairwise_cons.mp evolves
  exact List.pairwise_cons.mpr ⟨fun store member => (past store member).trans step, before⟩

theorem note (evolves : r.ThunksEvolve) (event : Event) (same : event.store = r.store) :
    (r.note event).ThunksEvolve := by
  have past := (List.pairwise_cons.mp evolves).1
  have moments : (r.note event).moments = r.store :: r.moments := by
    simp [Recording.moments, Recording.note, same]
  rw [Recording.ThunksEvolve, moments]
  exact List.pairwise_cons.mpr ⟨List.forall_mem_cons.mpr ⟨.of_thunks rfl, past⟩, evolves⟩

end Recording.ThunksEvolve

def evolving : Watch where
  sound := Recording.ThunksEvolve
  later r s := r.store.ThunksEvolve s.store
  code _ := True
  value _ := True
  fails _ := True

namespace evolving

variable {r s : Recording}

theorem moves {after : Store} (evolves : r.ThunksEvolve) (step : r.store.ThunksEvolve after) :
    evolving.Moves r after :=
  ⟨evolves.withStore step, step⟩

theorem answers (outcome : Except Failure Value) : evolving.Answers evolving.value outcome := by
  cases outcome <;> trivial

theorem ending (evolves : s.ThunksEvolve) (task : Task) (before : Store)
    (outcome : Except Failure Value) :
    evolving.sound (s.ending task before outcome) ∧ evolving.later s
      (s.ending task before outcome) :=
  ⟨evolves.note _ rfl, .of_thunks rfl⟩

theorem settles {id : ThunkId} {code : Value} {frame : FrameId}
    (found : r.store.thunk id = .waiting code frame true) (since : r.store.ThunksEvolve s.store)
    (evolves : s.ThunksEvolve) (v : Value) :
    evolving.Moves s (s.store.settle id v) := by
  obtain ⟨new, found', rfl | ⟨-, w, rfl⟩⟩ := since id _ (Store.getElem?_of_waiting found)
  · exact moves evolves (.settle found' rfl v)
  · exact moves evolves (.settle found' rfl v)

end evolving

theorem evolving_lawful {evaluator : Evaluator} (respects : RespectingSuspensions evaluator.added) :
    evolving.Lawful evaluator where
  toCodeLaws := .all _
  refl _ := .of_thunks rfl
  trans _ _ _ first second := first.trans second
  thunk _ := trivial
  bound _ _ _ _ _ _ := trivial
  waiting _ _ _ _ _ _ _ := trivial
  settled _ _ _ _ _ := trivial
  numbers _ evolves := evolving.moves evolves (.of_thunks rfl)
  suspends r code frame kept evolves _ := evolving.moves evolves (.addThunk r.store code frame kept)
  extends_ _ _ _ evolves _ := evolving.moves evolves (.of_thunks rfl)
  settles _ _ _ _ _ v found since evolves _ := evolving.settles found since evolves v
  performs r p given evolves _ _ := by
    have step := p.operation.run_thunksEvolve respects given r.store
    have noted : (r.applying p given).ThunksEvolve := evolves.note _ rfl
    exact Watch.keeps_primitive rfl (noted.withStore step) step (evolving.answers _)
  begins r task evolves _ := ⟨evolves.note _ rfl, .of_thunks rfl⟩
  ends _ task r s outcome _ _ evolves _ _ := evolving.ending evolves task r.store outcome
  stores _ task r s owner name v _ _ evolves _ _ _ := by
    have bound : Recording.ThunksEvolve ⟨s.store.bind owner (.sym name) v, s.events⟩ :=
      evolves.withStore (.of_thunks rfl)
    obtain ⟨ended, since⟩ := evolving.ending bound task r.store (.ok (.sym name))
    exact ⟨ended, Store.ThunksEvolve.trans (.of_thunks rfl) since⟩

/-! Sessions. -/

theorem Scope.define_thunks (frame : FrameId) (name v : Value) (store : Store) :
    ((Scope.define frame name v).on store).2.thunks = store.thunks := by
  unfold Scope.define
  split <;> rfl

section Served

variable {setup : Setup} {session : Session} {r : Recording}

theorem evaluator_of_served (served : setup.Served session r) :
    ∃ strategy, session.evaluator = ⟨FormTable.full, strategy, setup.added⟩ := by
  induction served with
  | started starts =>
      obtain ⟨strategy, _, same, _⟩ := Session.start_eventless starts
      exact ⟨strategy, same⟩
  | text _ _ _ ih | task _ _ _ ih | applied _ _ _ _ ih | bound _ _ _ ih | suspended _ _ _ _ ih =>
      exact ih

theorem thunksEvolve_of_served (respects : RespectingSuspensions setup.added)
    (served : setup.Served session r) :
    r.ThunksEvolve := by
  obtain ⟨strategy, same⟩ := evaluator_of_served served
  have lawful : evolving.Lawful session.evaluator := evolving_lawful (same ▸ respects)
  have text (limit : Nat) (source : String) {past : Recording} (evolves : past.ThunksEvolve) :
      ((session.evaluateTextWithin limit source : Recorded Value).on past).2.ThunksEvolve := by
    obtain ⟨_, _, ran, _, sound, _⟩ :=
      lawful.evaluateText_keeps limit session.globals source evolves fun _ _ _ _ => trivial
    rw [ran]
    exact sound
  -- on the requests, each in the recording that those before it have left
  induction served with
  | started starts =>
      obtain ⟨_, store, _, rfl⟩ := Session.start_eventless starts
      have opened : Recording.ThunksEvolve ⟨store, []⟩ := List.pairwise_singleton _ _
      exact text setup.limit setup.prelude opened
  | text _ limit source ih => exact text limit source ih
  | task _ limit task ih =>
      obtain ⟨_, _, ran, _, sound, _⟩ := lawful.run_keeps limit task (by cases task <;> trivial) _
        ih
      rw [ran]
      exact sound
  | applied _ limit fn given ih =>
      have related := Coupling.StackHolds.of_runs session.evaluator limit fun smaller _ =>
        lawful.run_keeps smaller
      obtain ⟨_, _, ran, _, sound, _⟩ :=
        lawful.coupling.apply_holds (related.above appliedCalls) fn given trivial
          (fun _ _ => trivial) _ ih
      rw [ran]
      exact sound
  | bound _ name v ih => exact ih.withStore (.of_thunks
      (Scope.define_thunks session.globals name v _))
  | suspended _ code frame kept ih => exact ih.withStore (.addThunk _ code frame kept)

theorem forcing_apply_leads {added : AddedActions} (keeping : KeepingNoThunk added)
    (strategy : Strategy) {inner : Inner Recorded}
    (leads : (forcing added strategy).InnerLeads inner inner) (fn : Value) (given : List Value)
    (forced : r.Always Recording.Forced) :
    (forcing added strategy).Leads (apply added inner fn given) (apply added inner fn given) r
      fun _ _ => True := by
  have lawful := forcing_lawful keeping strategy
  unfold apply
  split
  · next params body home =>
      have entering : (forcing added strategy).LeadsEffect (bindParams params home given) r
          fun _ _ => True := by
        have ran := on_bindParams params home given r.store
        split at ran
        · exact Accord.leads_effect ran (forced.withKept (forced.now.kept.of_thunks rfl)) fun _ _ =>
            trivial
        · exact Accord.leads_effect ran forced fun _ _ => trivial
      refine Accord.Leads.bind entering fun inside s sound _ _ => ?_
      exact (Accord.sequence_leads lawful leads body sound fun form _ => forcing_code form).imp
        fun _ _ _ => trivial
  · next p =>
      have concrete := Accord.concreteAll_leads leads given forced fun v _ => forcing_value v
      refine concrete.bind fun vs s sound _ values => ?_
      exact (lawful.performs s p vs sound trivial values).imp fun _ _ _ => trivial
  · exact Accord.leads_throw forced

theorem forced_of_served (keeping : KeepingNoThunk setup.added) (served : setup.Served session r) :
    r.Always Recording.Forced := by
  obtain ⟨strategy, same⟩ := evaluator_of_served served
  have evaluator : session.evaluator = (forcing setup.added strategy).evaluator' := same
  have lawful := forcing_lawful keeping strategy
  -- on the requests, each in the recording that those before it have left
  induction served with
  | @started r starts =>
      have ran : setup.ran? [] = some (session, r) := by
        rw [Setup.ran?, starts]
        rfl
      obtain ⟨_, _, forced⟩ := forced_of_ran keeping ran
      exact forced
  | text _ limit source ih =>
      obtain ⟨_, _, _, ran, _, sound, _⟩ :=
        Accord.evaluateText_leads lawful limit session.globals ih
          (forcing_reads setup.added strategy source)
      rw [← evaluator] at ran
      rw [ran]
      exact sound
  | task _ limit task ih =>
      have ready : (forcing setup.added strategy).ready task := by
        cases task with
        | evaluate code frame => exact forcing_code code
        | force id => trivial
      obtain ⟨_, _, _, ran, _, sound, _⟩ := Accord.run_leads lawful (Nat.le_refl limit) _ task ih
        ready
      rw [evaluator, ran]
      exact sound
  | applied _ limit fn given ih =>
      obtain ⟨_, _, _, ran, _, sound, _⟩ :=
        forcing_apply_leads keeping strategy (Accord.above_leads lawful limit appliedCalls) fn given
          ih
      rw [evaluator]
      exact ran ▸ sound
  | bound _ name v ih =>
      exact ih.withKept (ih.now.kept.of_thunks (Scope.define_thunks session.globals name v _))
  | suspended _ code frame kept ih => exact ih.withKept (ih.now.kept.addThunk code frame kept)

end Served

/-! The states. -/

structure Making where
  code : Value
  frame : FrameId
  kept : Bool

/-- Not forced, with the code and the frame that it was made of, or forced, and then it is kept and
has dropped both for a value that is no suspension. -/
inductive Suspension.InState (made : Making) : Suspension → Prop where
  | waiting : InState made (.waiting made.code made.frame made.kept)
  | settled (v : Value) (kept : made.kept = true) (concrete : v.isThunk = false) :
      InState made (.settled v)

/-- The moments at which a suspension waits agree in what it is made of, and if there is one, the
suspension has a value at another moment only if it is kept. -/
theorem Recording.ThunksEvolve.agree {r : Recording} (evolves : r.ThunksEvolve)
    {store other : Store} {id : ThunkId} {code : Value} {frame : FrameId} {kept : Bool}
    {suspension : Suspension} (member : store ∈ r.moments)
    (waits : store.thunks[id]? = some (.waiting code frame kept)) (member' : other ∈ r.moments)
    (found : other.thunks[id]? = some suspension) :
    suspension = .waiting code frame kept ∨ kept = true ∧ ∃ v, suspension = .settled v := by
  have symmetric : Std.Symm fun one other : Store => one.ThunksEvolve other ∨
      other.ThunksEvolve one :=
    ⟨fun _ _ either => either.symm⟩
  have either := List.Pairwise.forall_of_forall
    (R := fun one other : Store => one.ThunksEvolve other ∨ other.ThunksEvolve one) (l := r.moments)
    (fun _ _ => .inl (.of_thunks rfl)) (evolves.imp .inr) member member'
  rcases either with since | before
  · obtain ⟨new, found', rfl | ⟨keeps, v, rfl⟩⟩ := since id _ waits
    · exact .inl (Option.some.inj (found.symm.trans found'))
    · exact .inr ⟨keeps, v, Option.some.inj (found.symm.trans found')⟩
  · obtain ⟨new, waits', rfl | ⟨_, v, rfl⟩⟩ := before id _ found
    · exact .inl (Option.some.inj (waits'.symm.trans waits))
    · cases waits'.symm.trans waits

/-- What is said of the suspensions in a recording, each of which was made in one way. -/
structure Recording.SuspensionStates (r : Recording) (made : ThunkId → Making) : Prop where
  states : ∀ store ∈ r.moments, ∀ id < store.thunks.size, (store.thunk id).InState (made id)
  /-- from each moment to every later one -/
  lasts : r.moments.Pairwise fun later earlier => earlier.ThunksEvolve later
  concrete : ∀ id before v after, .ended (.force id) before (.ok v) after ∈ r.events →
    v.isThunk = false
  /-- what each force has done, from its beginning on -/
  forces : ∀ id store older, (.began (.force id) store :: older) <:+ r.events →
    ∃ inside, ForceHistory id store inside ∧ (inside ++ .began (.force id) store :: older) <:+
      r.events
  /-- what is evaluated right inside of a force, and when -/
  calls : ∀ code frame store older id begun outer, (.began (.evaluate code frame) store :: older)
    <:+ r.events →
    pending older = (.force id, begun) :: outer → ∃ kept, store.thunk id = .waiting code frame kept

theorem Recording.ThunksEvolve.exists_making {r : Recording} (evolves : r.ThunksEvolve)
    (kept : ∀ store ∈ r.moments, store.KeepsNoThunk) (id : ThunkId) :
    ∃ made : Making, ∀ store ∈ r.moments, id < store.thunks.size →
      (store.thunk id).InState made := by
  by_cases waits : ∃ store ∈ r.moments, ∃ code frame kept, store.thunks[id]? =
    some (.waiting code frame kept)
  · obtain ⟨store, member, code, frame, keeps, waits⟩ := waits
    refine ⟨⟨code, frame, keeps⟩, fun other member' present => ?_⟩
    have found : other.thunks[id]? = some (other.thunk id) := by
      simp [Store.thunk, Array.getD_eq_getD_getElem?, present]
    rcases evolves.agree member waits member' found with same | ⟨rfl, v, same⟩
    · rw [same]
      exact .waiting
    · rw [same]
      exact .settled v rfl (kept other member' id v same)
  · -- a primitive has made it and given it a value at once
    refine ⟨⟨.nil, 0, true⟩, fun store member present => ?_⟩
    cases cell : store.thunk id with
    | waiting code frame keeps =>
        exact absurd ⟨store, member, code, frame, keeps, Store.getElem?_of_waiting cell⟩ waits
    | settled v => exact .settled v rfl (kept store member id v cell)

/-- Whatever a session is asked for, under any strategy and with any primitives that respect
suspensions, each suspension waits with what it was made of or is kept and has a value. A force
never gives a suspension; it evaluates the code of its suspension while that waits, and if it fails,
it leaves the store as the last task inside of it has left it, which may be a force of the same
suspension. -/
theorem suspensions_wait_or_keep (setup : Setup) (respects : RespectingSuspensions setup.added)
    (session : Session) (r : Recording) (served : setup.Served session r) :
    ∃ made, r.SuspensionStates made := by
  have evolves := thunksEvolve_of_served respects served
  have forced := forced_of_served respects.keepingNoThunk served
  have kept : ∀ store ∈ r.moments, store.KeepsNoThunk := by
    rw [Recording.moments_eq]
    exact List.forall_mem_map.mpr fun past member => (forced past member).kept
  choose made each using evolves.exists_making kept
  refine ⟨made, ?_, evolves, ?_, ?_, ?_⟩
  · exact fun store member id present => each id store member present
  · exact fun id before v after member => forced.now.events _ member
  · exact fun id store older here => force_history_of_served served here
  · exact fun code frame store older id begun outer here inside =>
      evaluate_called_of_served served here inside

/-! A force of the suspension succeeds inside of one that fails. -/

theorem respectingSuspensions_suspending : RespectingSuspensions suspending :=
  ⟨fun _ _ store => .addThunk store _ 0 false, keepingNoThunk_suspending⟩

def Event.keptAtFailure? (id : ThunkId) : Event → Option Value
  | .ended (.force other) _ (.error _) after => if other = id then after.kept? id else none
  | _ => none

/-- An operand that uses its own parameter by way of a procedure, and then fails. Where it is used
there, its value comes of a suspension that a primitive has made. -/
def failingUse : String :=
  "(define n 0) (define use nil)
   ((lambda ((x lazy-memo)) (set! use (lambda () x)) x)
    (begin (set! n (+ n 1)) (if (= n 1) (begin (use) (car 1)) (suspend n))))"

set_option maxRecDepth 20000 in
theorem failingUse_keeps :
    (Setup.withSuspending.ran? [failingUse]).map
      (fun ran => ran.2.events.filterMap (Event.keptAtFailure? 0)) = some [.int 2] := by
  cbv

theorem suspensions_wait_or_keep_failingUse :
    ∃ session r, RespectingSuspensions Setup.withSuspending.added ∧
      Setup.withSuspending.Served session r ∧
      r.events.filterMap (Event.keptAtFailure? 0) = [.int 2] ∧ ∃ made, r.SuspensionStates made := by
  obtain ⟨⟨session, r⟩, ran, kept⟩ := Option.map_eq_some_iff.mp failingUse_keeps
  obtain ⟨opened, started, rfl⟩ := Setup.ran?_eq_some _ [failingUse] session r ran
  have served := (Setup.Served.started started).text Setup.withSuspending.limit failingUse
  exact ⟨session, _, respectingSuspensions_suspending, served, kept,
    suspensions_wait_or_keep _ respectingSuspensions_suspending session _ served⟩

end ThunkLisp
