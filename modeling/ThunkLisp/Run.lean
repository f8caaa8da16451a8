import ThunkLisp.Failure
import ThunkLisp.Store

/-!
Computations over the store that may fail. What was done to the store before a failure stays done.
-/

namespace ThunkLisp

abbrev Run (α : Type) := ExceptT Failure (StateM Store) α

namespace Run

/-- The outcome of a computation in a store, and the store after it. -/
def on (computation : Run α) (store : Store) : Except Failure α × Store := computation store

def read (view : Store → α) : Run α := do return view (← get)

/-- A text that the store gives, if it can be written. -/
def text (view? : Store → Option String) : Run String := do
  match ← read view? with
  | some found => return found
  | none => throw .notWritable

def change (update : Store → Store) : Run Unit := modify update

def make (step : Store → α × Store) : Run α := modifyGet step

def ofExcept : Except Failure α → Run α
  | .ok value => pure value
  | .error failure => throw failure

theorem on_pure (value : α) (store : Store) : (pure value : Run α).on store = (.ok value, store) :=
  rfl

theorem on_throw (failure : Failure) (store : Store) :
    (throw failure : Run α).on store = (.error failure, store) := rfl

theorem on_bind (first : Run α) (next : α → Run β) (store : Store) :
    (first >>= next).on store =
      match first.on store with
      | (.ok value, after) => (next value).on after
      | (.error failure, after) => (.error failure, after) := by
  simp only [on, bind, ExceptT.bind, ExceptT.mk, StateT.bind]
  cases h : first store with
  | mk outcome after => cases outcome <;> rfl

theorem on_read (view : Store → α) (store : Store) :
    (read view).on store = (.ok (view store), store) := rfl

theorem on_text (view? : Store → Option String) (store : Store) :
    (text view?).on store = ((view? store).elim (.error .notWritable) .ok, store) := by
  simp only [text, on_bind, on_read]
  cases view? store <;> rfl

theorem on_change (update : Store → Store) (store : Store) :
    (change update).on store = (.ok (), update store) := rfl

theorem on_make (step : Store → α × Store) (store : Store) :
    (make step).on store = (.ok (step store).1, (step store).2) := rfl

theorem on_ofExcept (outcome : Except Failure α) (store : Store) :
    (ofExcept outcome).on store = (outcome, store) := by cases outcome <;> rfl

end Run

end ThunkLisp
