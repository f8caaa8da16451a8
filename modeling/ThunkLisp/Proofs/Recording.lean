import ThunkLisp.Session

/-!
Recorded runs. Beside the store a recording keeps what has happened, the newest event first: each
task when it begins and when it ends, and each application of a primitive to its arguments. An
event holds the stores of its time, so what a law says of a whole run it says of a recording.
-/

namespace ThunkLisp

open Machine (effect)

inductive Event where
  | began (task : Task) (store : Store)
  | ended (task : Task) (before : Store) (outcome : Except Failure Value) (after : Store)
  | applied (p : Primitive) (given : List Value) (store : Store)

def Event.store : Event → Store
  | .began _ store => store
  | .ended _ _ _ after => after
  | .applied _ _ store => store

/-- The tasks that have begun and not ended, the innermost first, with the stores they began in. -/
def pending : List Event → List (Task × Store)
  | [] => []
  | .began task store :: older => (task, store) :: pending older
  | .ended .. :: older => (pending older).tail
  | .applied .. :: older => pending older

structure Recording where
  store : Store := {}
  events : List Event := []

namespace Recording

def note (recording : Recording) (event : Event) : Recording :=
  { recording with events := event :: recording.events }

def beginning (recording : Recording) (task : Task) : Recording :=
  recording.note (.began task recording.store)

def ending (recording : Recording) (task : Task) (before : Store)
    (outcome : Except Failure Value) : Recording :=
  recording.note (.ended task before outcome recording.store)

def applying (recording : Recording) (p : Primitive) (given : List Value) : Recording :=
  recording.note (.applied p given recording.store)

end Recording

abbrev Recorded (α : Type) := ExceptT Failure (StateM Recording) α

namespace Recorded

def on (computation : Recorded α) (recording : Recording) : Except Failure α × Recording :=
  computation recording

/-- What a plain computation does, with nothing noted. -/
def ofRun (computation : Run α) : Recorded α := fun recording =>
  ((computation.on recording.store).1, { recording with store :=
    (computation.on recording.store).2 })

def task (task : Task) (doing : Recorded Value) : Recorded Value := fun recording =>
  let (outcome, after) := doing.on (recording.beginning task)
  (outcome, after.ending task recording.store outcome)

def primitive (p : Primitive) (given : List Value) (doing : Recorded Value) : Recorded Value :=
  fun recording => doing.on (recording.applying p given)

end Recorded

instance : Machine Recorded where
  effect := Recorded.ofRun
  duringTask := Recorded.task
  duringPrimitive := Recorded.primitive

namespace Recorded

theorem on_pure (value : α) (recording : Recording) :
    (pure value : Recorded α).on recording = (.ok value, recording) := rfl

theorem on_bind (first : Recorded α) (next : α → Recorded β) (recording : Recording) :
    (first >>= next).on recording =
      match first.on recording with
      | (.ok value, after) => (next value).on after
      | (.error failure, after) => (.error failure, after) := by
  simp only [on, bind, ExceptT.bind, ExceptT.mk, StateT.bind]
  cases h : first recording with
  | mk outcome after => cases outcome <;> rfl

theorem on_effect (computation : Run α) (recording : Recording) :
    (effect computation : Recorded α).on recording =
      ((computation.on recording.store).1,
        ⟨(computation.on recording.store).2, recording.events⟩) := rfl

theorem effect_bind (first : Run α) (next : α → Run β) :
    (effect (first >>= next) : Recorded β) = effect first >>= fun value => effect (next value) := by
  funext recording
  change Recorded.on (effect (first >>= next)) recording =
    Recorded.on (effect first >>= fun value => effect (next value)) recording
  simp only [on_effect, on_bind, Run.on_bind]
  cases ran : first.on recording.store with
  | mk outcome after => cases outcome <;> simp

theorem on_duringTask (task : Task) (doing : Recorded Value) (recording : Recording) :
    (Machine.duringTask task doing : Recorded Value).on recording =
      ((doing.on (recording.beginning task)).1,
        (doing.on (recording.beginning task)).2.ending task recording.store
          (doing.on (recording.beginning task)).1) := rfl

theorem on_duringPrimitive (p : Primitive) (given : List Value) (doing : Recorded Value)
    (recording : Recording) :
    (Machine.duringPrimitive p given doing : Recorded Value).on recording =
      doing.on (recording.applying p given) := rfl

end Recorded

namespace Session

/-- The recording after source texts have been evaluated one after the other. A text that fails
ends there, and the next one is evaluated all the same. -/
def after (limit : Nat) (session : Session) (recording : Recording) (texts : List String) :
    Recording :=
  texts.foldl (fun recording text =>
    ((session.evaluateTextWithin limit text : Recorded Value).on recording).2) recording

end Session

namespace Setup

def ran? (setup : Setup) (texts : List String) : Option (Session × Recording) :=
  match (Session.start setup : Recorded Session).on {} with
  | (.ok session, opened) => some (session, session.after setup.limit opened texts)
  | (.error _, _) => none

theorem ran?_eq_some (setup : Setup) (texts : List String) (session : Session) (r : Recording)
    (ran : setup.ran? texts = some (session, r)) :
    ∃ opened, (Session.start setup : Recorded Session).on {} = (.ok session, opened) ∧
      session.after setup.limit opened texts = r := by
  unfold ran? at ran
  split at ran
  · next found opened started =>
      obtain ⟨rfl, rfl⟩ := Prod.mk.inj (Option.some.inj ran)
      exact ⟨opened, started, rfl⟩
  · cases ran

/-- A session with the default primitives. -/
def plain (strategy : String) (checked : Bool) : Setup :=
  { names := ⟨"STRATEGY", "CHECKED"⟩
    outside := []
    strategy? := some strategy
    checked? := some checked
    supplies := defaultSupplies
    added := fun _ _ => return .nil
    prelude := "" }

end Setup

end ThunkLisp
