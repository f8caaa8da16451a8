import Mathlib
import ThunkLisp.Proofs.ParameterFrames

/-!
Suspensions never leak. With the default primitives they stay in the variables of procedures. Added
primitives may give suspensions, but a use of a variable, the test of a conditional and the
arguments of primitives are forced all the same.
-/

namespace ThunkLisp

open Machine (effect)
open Value (Every)

def Store.KeepsNoThunk (store : Store) : Prop := ∀ id v, store.thunk id = .settled v →
    v.isThunk = false

/-- A use of a variable, a force, and an application of a primitive let no suspension through. -/
def Event.IsForced : Event → Prop
  | .ended (.evaluate (.sym _) _) _ (.ok v) _ => v.isThunk = false
  | .ended (.force _) _ (.ok v) _ => v.isThunk = false
  | .applied _ given _ => ∀ v ∈ given, v.isThunk = false
  | _ => True

/-- What added primitives do may be anything, but they put no suspension into the value that one
keeps. -/
def KeepingNoThunk (added : AddedActions) : Prop :=
  ∀ name given store, store.KeepsNoThunk → ((added name given).on store).2.KeepsNoThunk

namespace Store.KeepsNoThunk

variable {store : Store}

theorem of_thunks {after : Store} (forced : store.KeepsNoThunk)
    (same : after.thunks = store.thunks) :
    after.KeepsNoThunk := by
  intro id v settled
  apply forced id v
  rw [← settled, Store.thunk, Store.thunk, same]

theorem addThunk (forced : store.KeepsNoThunk) (form : Value) (frame : FrameId) (kept : Bool) :
    (store.addThunk form frame kept).2.KeepsNoThunk := by
  intro id v settled
  simp only [Store.thunk, Store.addThunk, Array.getD_eq_getD_getElem?,
    Array.getElem?_push] at settled
  split at settled
  · cases settled
  · exact forced id v (by rw [Store.thunk, Array.getD_eq_getD_getElem?, settled])

theorem settle (forced : store.KeepsNoThunk) (id : ThunkId) (v : Value)
    (concrete : v.isThunk = false) :
    (store.settle id v).KeepsNoThunk := by
  intro other w settled
  by_cases present : id < store.thunks.size
  · rw [store.thunk_settle id other v present] at settled
    split at settled
    · cases settled
      exact concrete
    · exact forced other w settled
  · exact forced.of_thunks (by simp [Store.settle, Array.setIfInBounds, present]) other w settled

end Store.KeepsNoThunk

theorem Operation.run_keepsNoThunk {added : AddedActions} (keeping : KeepingNoThunk added)
    (operation : Operation) (given : List Value) {store : Store} (forced : store.KeepsNoThunk) :
    ((operation.run added given).on store).2.KeepsNoThunk := by
  rcases operation.added_or_apart added given store with ⟨name, rfl⟩ | ⟨-, same⟩
  · exact keeping name given store forced
  · exact forced.of_thunks same

/-! Every moment. -/

structure Recording.Forced (past : Recording) : Prop where
  kept : past.store.KeepsNoThunk
  events : ∀ event ∈ past.events, event.IsForced

namespace Recording.Always

variable {r : Recording}

theorem withKept {after : Store} (forced : r.Always Recording.Forced) (kept : after.KeepsNoThunk) :
    Always Recording.Forced ⟨after, r.events⟩ := forced.withStore ⟨kept, forced.now.events⟩

theorem noteForced (forced : r.Always Recording.Forced) (event : Event)
    (same : event.store = r.store) (here : event.IsForced) :
    (r.note event).Always Recording.Forced :=
  forced.note event same ⟨forced.now.kept, List.forall_mem_cons.mpr ⟨here, forced.now.events⟩⟩

end Recording.Always

def forcing (added : AddedActions) (strategy : Strategy) : Accord where
  added := added
  strategy := strategy
  other := strategy
  datum _ := True
  leaf _ := True
  sound := Recording.Always Recording.Forced

theorem forcing_value {added : AddedActions} {strategy : Strategy} (v : Value) :
    (forcing added strategy).value v :=
  Value.every_of_forall (fun _ => trivial) v

theorem forcing_code {added : AddedActions} {strategy : Strategy} (form : Value) :
    (forcing added strategy).code form := Value.every_of_forall (fun _ => trivial) form

theorem isForced_ended {added : AddedActions} {strategy : Strategy} (task : Task)
    (before after : Store) {outcome : Except Failure Value} (done :
    ∀ v, outcome = .ok v → (forcing added strategy).done task v) :
    (Event.ended task before outcome after).IsForced := by
  unfold Event.IsForced
  split
  · next name frame before v after same =>
      cases same
      exact (done v rfl).2 ⟨name, rfl⟩
  · next id before v after same =>
      cases same
      exact (done v rfl).2
  · next same => cases same
  · trivial

theorem forcing_lawful {added : AddedActions} (keeping : KeepingNoThunk added) (strategy :
    Strategy) :
    (forcing added strategy).Lawful := by
  constructor
  case words => exact ⟨fun _ _ => trivial, trivial, fun _ => trivial, trivial⟩
  case leaf_of_datum => exact fun _ _ => trivial
  case body => exact fun _ _ _ _ _ form _ => forcing_code form
  case procedure => exact fun _ _ _ _ _ _ _ _ => trivial
  case agrees => exact fun _ _ _ _ _ => rfl
  case shallower => exact fun _ _ => Nat.le_refl _
  case bound => exact fun _ _ _ v _ _ => .inl (forcing_value v)
  case waiting => exact fun _ _ form _ _ _ _ => forcing_code form
  case settled => exact fun r id v forced settled => ⟨forcing_value v, forced.now.kept id v settled⟩
  case begins => exact fun r task forced _ => forced.noteForced _ rfl trivial
  case ends =>
    exact fun r task before outcome forced done =>
      forced.noteForced _ rfl (isForced_ended task _ _ done)
  case binds => exact fun r frame name v forced _ => forced.withKept (forced.now.kept.of_thunks rfl)
  case numbers => exact fun r forced => forced.withKept (forced.now.kept.of_thunks rfl)
  case suspends =>
    exact fun r form frame kept _ forced _ =>
      forced.withKept (forced.now.kept.addThunk form frame kept)
  case settles => exact fun r id v forced _ concrete => forced.withKept (forced.now.kept.settle id v
      concrete)
  case performs =>
    intro r p given forced _ values
    have noted := forced.noteForced (.applied p given r.store) rfl fun v member =>
      (values v member).2
    have kept := p.operation.run_keepsNoThunk keeping given forced.now.kept
    exact Accord.leads_duringPrimitive (a := forcing added strategy) rfl (noted.withKept kept)
      fun v _ => forcing_value v
  case calls =>
    exact fun r _ _ _ _ _ _ _ _ _ forced _ _ _ _ => forced.withKept (forced.now.kept.of_thunks rfl)

/-! Tests. -/

/-- Whatever a conditional decides on is no suspension: the test is evaluated and forced, and what
comes of it decides which branch is evaluated. -/
def Inner.DecidesOnValues (inner : Inner Recorded) (r : Recording) : Prop :=
  ∀ frame test usual rest v after, rest.length ≤ 1 →
    (inner.evaluate test frame >>= inner.concrete).on r = (.ok v, after) →
    v.isThunk = false ∧ (Form.conditional.run inner frame (test :: usual :: rest)).on r =
      (inner.sequence frame (if v.isTrue then [usual] else rest)).on after

theorem Form.on_runConditional (inner : Inner Recorded) (frame : FrameId) (test usual : Value)
    {rest : List Value} (few : rest.length ≤ 1) {r after : Recording} {v : Value}
    (decided : (inner.evaluate test frame >>= inner.concrete).on r = (.ok v, after)) :
    (Form.conditional.run inner frame (test :: usual :: rest)).on r =
      (inner.sequence frame (if v.isTrue then [usual] else rest)).on after := by
  rw [Recorded.on_bind] at decided
  cases tested : (inner.evaluate test frame).on r with
  | mk outcome between =>
      rw [tested] at decided
      cases outcome with
      | error failure => cases decided
      | ok found =>
          match rest, few with
          | [], _ =>
              simp only [Form.run, Form.runConditional, Recorded.on_bind, tested, decided]
              cases v.isTrue <;> rfl
          | [otherwise], _ =>
              simp only [Form.run, Form.runConditional, Recorded.on_bind, tested, decided]
              cases v.isTrue <;> rfl

theorem decidesOnValues {added : AddedActions} (keeping : KeepingNoThunk added)
    (strategy : Strategy) (limit calls : Nat) {r : Recording} (forced : r.Always Recording.Forced) :
    Inner.DecidesOnValues (((forcing added strategy).evaluator.stack limit).above calls) r := by
  -- what an application gives may be a suspension, so the test is not decided before the force
  intro frame test usual rest v after few decided
  refine ⟨?_, Form.on_runConditional _ frame test usual few decided⟩
  have leads := Accord.above_leads (forcing_lawful keeping strategy) limit calls
  obtain ⟨outcome, final, -, ran, -, -, answer⟩ :=
    (leads.evaluate frame forced (forcing_code test)).bind fun found s sound _ value =>
      leads.concrete sound value
  cases decided.symm.trans ran
  exact (answer v rfl).2

/-- Where primitives may give suspensions: uses of variables, tests and arguments of primitives are
forced. -/
structure Session.Forces (session : Session) (r : Recording) : Prop where
  references : ∀ name frame before v after,
    .ended (.evaluate (.sym name) frame) before (.ok v) after ∈ r.events → v.isThunk = false
  arguments : ∀ p given store, .applied p given store ∈ r.events → ∀ v ∈ given, v.isThunk = false
  tests : ∀ past ∈ r.pasts, ∀ limit calls,
    Inner.DecidesOnValues ((session.evaluator.stack limit).above calls) past

theorem emptyGlobals_keepsNoThunk (checked : Bool) : (emptyGlobals checked).KeepsNoThunk := by
  intro id v settled
  simp only [emptyGlobals, Store.addFrame, Store.thunk, Array.getD_eq_getD_getElem?] at settled
  cases settled
  rfl

theorem forcing_reads (added : AddedActions) (strategy : Strategy) (text : String) :
    (forcing added strategy).Reads text := fun _ _ form _ => forcing_code form

theorem forcing_opens (setup : Setup) (strategy : Strategy) :
    (forcing setup.added strategy).Opens setup := by
  have nothing : Recording.Forced {} := ⟨fun id v settled => by
    cases settled; rfl, fun event member => nomatch member⟩
  constructor
  · rfl
  · exact .nothing nothing
  · exact fun checked => (Recording.Always.nothing nothing).withKept
      (emptyGlobals_keepsNoThunk checked)
  · exact fun _ v _ => forcing_value v
  · exact fun _ _ _ _ _ => trivial
  · exact forcing_reads setup.added strategy _

theorem forced_of_ran {setup : Setup} {texts : List String} {session : Session} {r : Recording}
    (keeping : KeepingNoThunk setup.added) (ran : setup.ran? texts = some (session, r)) :
    ∃ strategy, session.evaluator = (forcing setup.added strategy).evaluator ∧
      r.Always Recording.Forced := by
  obtain ⟨strategy, chosen⟩ := Setup.strategy_of_ran ran
  obtain ⟨forced, same⟩ := Accord.sound_of_ran (forcing_lawful keeping strategy)
    (forcing_opens setup strategy) chosen
    (fun text _ => forcing_reads setup.added strategy text) ran
  exact ⟨strategy, same, forced⟩

theorem forces_of_ran {setup : Setup} {texts : List String} {session : Session} {r : Recording}
    (keeping : KeepingNoThunk setup.added) (ran : setup.ran? texts = some (session, r)) :
      session.Forces r := by
  obtain ⟨strategy, same, forced⟩ := forced_of_ran keeping ran
  constructor
  · exact fun name frame before v after member => forced.now.events _ member
  · exact fun p given store member => forced.now.events _ member
  · intro past member limit calls
    rw [same]
    exact decidesOnValues keeping strategy limit calls (forced.past member)

/-- Suspensions never leak into data. In a session with the default primitives no evaluation gives
one, no list, no kept value and no argument of a primitive is one or has one inside, and a variable
that holds one is a parameter, in a frame that an application of its procedure has made. With any
primitives, also such that give suspensions, a use of a variable, the test of a conditional and the
arguments of primitives are none. -/
theorem suspensions_never_leak (setup : Setup) (texts : List String) (session : Session)
    (r : Recording) (ran : setup.ran? texts = some (session, r)) :
    (setup.supplies = defaultSupplies → r.Contained session.evaluator.strategy) ∧
      (KeepingNoThunk setup.added → session.Forces r) :=
  ⟨fun supplied => contained_of_ran supplied ran, fun keeping => forces_of_ran keeping ran⟩

def suspending : AddedActions := fun _ given => suspend (.list [.sym "quote", given.headD .nil]) 0
    false

theorem keepingNoThunk_suspending : KeepingNoThunk suspending := by
  intro name given store forced
  exact forced.addThunk _ 0 false

def Setup.withSuspending : Setup :=
  { plain "mixed" true with
    supplies := defaultSupplies ++ [(.sym "suspend", .function "suspend")]
    added := suspending }

/-- Variables hold suspensions, of an argument in the one session and of a primitive in the other.
-/
theorem suspensions_never_leak_twice :
    (∃ session r,
      (Setup.plain "lazy" true).ran? ["(define (twice x) (list x x)) (twice (+ 1 2))"] =
        some (session, r) ∧
      (Setup.plain "lazy" true).supplies = defaultSupplies ∧
      (r.store.frame 1).bindings.any (fun entry => entry.2.isThunk) = true ∧
      r.Contained session.evaluator.strategy) ∧
    ∃ session r, Setup.withSuspending.ran?
        ["(define x (suspend false)) (list x (if (suspend x) 1 2))"] =
        some (session, r) ∧
      KeepingNoThunk Setup.withSuspending.added ∧
      (r.store.frame 0).bindings.any (fun entry => entry.2.isThunk) = true ∧ session.Forces r := by
  constructor
  · have found : ((Setup.plain "lazy" true).ran?
        ["(define (twice x) (list x x)) (twice (+ 1 2))"]).map
        (fun ran => (ran.2.store.frame 1).bindings.any fun entry => entry.2.isThunk) =
          some true := by cbv
    obtain ⟨⟨session, r⟩, ran, here⟩ := Option.map_eq_some_iff.mp found
    exact ⟨session, r, ran, rfl, here, (suspensions_never_leak _ _ session r ran).1 rfl⟩
  · have found : (Setup.withSuspending.ran?
        ["(define x (suspend false)) (list x (if (suspend x) 1 2))"]).map
        (fun ran => (ran.2.store.frame 0).bindings.any fun entry => entry.2.isThunk) =
          some true := by cbv
    obtain ⟨⟨session, r⟩, ran, here⟩ := Option.map_eq_some_iff.mp found
    exact ⟨session, r, ran, keepingNoThunk_suspending, here,
      (suspensions_never_leak _ _ session r ran).2 keepingNoThunk_suspending⟩

end ThunkLisp
