import Mathlib
import ThunkLisp.Proofs.SoundRuns

/-!
Where the mark of unassigned variables may be. In a session that checks for it, it stays where a
`letrec` has put it: bound to the names of the `letrec` in its frame, as it is or, under the lazy
strategy, suspended. No value that is computed, passed on, kept or shown has it inside.
-/

namespace ThunkLisp

open Value (Every)

namespace Value

mutual

/-- There is no mark in the value and no suspension that could hide one. -/
def isClean : Value → Bool
  | .unassigned | .thunk _ => false
  | .list items => areClean items
  | .procedure _ _ body _ => areClean body
  | _ => true

def areClean : List Value → Bool
  | [] => true
  | v :: rest => v.isClean && areClean rest

end

theorem areClean_iff (values : List Value) : areClean values = true ↔
    ∀ v ∈ values, v.isClean = true := by
  induction values with
  | nil => simp [areClean]
  | cons v rest ih => simp [areClean, ih]

theorem isClean_of_inert {v : Value} (inert : Inert v) : v.isClean = true := by
  induction inert with
  | leaf v flat holds => cases v <;> first | rfl | cases holds
  | list items _ ih => exact (areClean_iff items).mpr ih

end Value

namespace Store

def Waits (store : Store) (id : ThunkId) (code : Value) : Prop :=
  ∃ frame kept, store.thunks[id]? = some (.waiting code frame kept)

end Store

/-- In the store, marks are bound only to the names of a `letrec` in its frame. Under the lazy
strategy they may be suspended there, and a suspension of a mark keeps nothing. -/
structure MarksConfined (lazily : Prop) (events : List Event) (store : Store) : Prop where
  bindings : ∀ frame, ∀ entry ∈ (store.frame frame).bindings, ∃ name, entry.1 = .sym name ∧
    (entry.2.isClean = true ∨ (∃ id, entry.2 = .thunk id ∧ ¬ store.Waits id mark) ∨
      Opened events store frame name ∧
        (entry.2 = .unassigned ∨ lazily ∧ ∃ id, entry.2 = .thunk id ∧ store.Waits id mark))
  kept : ∀ (id : ThunkId) v, store.thunks[id]? = some (.settled v) → v.isClean = true
  waiting : ∀ (id : ThunkId) code frame kept, store.thunks[id]? = some (.waiting code frame kept) →
    code.isClean = true ∨ lazily ∧ code = mark ∧ kept = false

/-- Marks were confined all the time: in what evaluation gave, in what primitives were applied to,
and in the stores. -/
structure Recording.Confined (lazily : Prop) (r : Recording) : Prop where
  results : ∀ code frame before v after, .ended (.evaluate code frame) before (.ok v) after ∈
    r.events →
    v.isClean = true ∨ code = mark ∧ v = .unassigned
  arguments : ∀ p given store, .applied p given store ∈ r.events → ∀ v ∈ given, v.isClean = true
  stores : ∀ newer event older, r.events = newer ++ event :: older →
    MarksConfined lazily older event.store
  last : MarksConfined lazily r.events r.store

namespace Policy

/-- Marks are nowhere but in the places that a `letrec` makes for them. -/
def confining (lazily : Prop) [Decidable lazily] : Policy := ⟨false, decide lazily, none, none⟩

variable {lazily : Prop} [Decidable lazily] {store : Store}

theorem isClean_of_runs {frame : FrameId} {code : Value}
    (runs : (confining lazily).Runs store frame code) :
    code.isClean = true :=
  Value.isClean_of_inert (runs.data inert_basics)

theorem isClean_of_value {v : Value} (every : Every ((confining lazily).Leaf store) v) :
    v.isClean = true := by
  induction every with
  | list items _ ih => exact (Value.areClean_iff items).mpr ih
  | leaf v flat holds =>
      cases v with
      | procedure identity params body frame =>
          exact (Value.areClean_iff body).mpr fun form member =>
            isClean_of_runs (holds.2 form member)
      | unassigned => cases (show false = true from holds)
      | thunk id => cases holds
      | list items => cases flat
      | _ => rfl

theorem confined_of_sound {events : List Event}
    (sound : (confining lazily).Sound (Opened events store) store) :
      MarksConfined lazily events store := by
  -- this policy hides no suspension
  have visible (id : ThunkId) : ¬ (confining lazily).Hides id := not_hides rfl id
  refine ⟨fun frame entry member => ?_, fun id v found => ?_, fun id code frame kept found => ?_⟩
  · obtain ⟨name, key, bound⟩ := sound.bound frame entry member
    refine ⟨name, key, ?_⟩
    generalize entry.2 = v at bound
    cases bound with
    | value v every => exact .inl (isClean_of_value every)
    | delayed id delayed =>
        obtain ⟨_, suspension, found, unmarked⟩ := delayed
        refine .inr (.inl ⟨id, rfl, fun ⟨home, kept, marked⟩ => ?_⟩)
        rw [found] at marked
        obtain rfl := Option.some.inj marked
        rcases sound.suspended id _ found with hides | ⟨_, other, _, same⟩ | ⟨_, runs⟩
        · exact visible id hides
        · exact unmarked other same
        · exact not_runs_mark store home runs
    | placeholder v here placeholder =>
        refine .inr (.inr ⟨here.resolve_left Bool.false_ne_true, ?_⟩)
        rcases placeholder with rfl | ⟨id, home, rfl, _, suspends, found⟩
        · exact .inl rfl
        · exact .inr ⟨of_decide_eq_true suspends, id, rfl, home, false, found⟩
    | hidden id here hides => exact absurd hides (visible id)
  · rcases sound.suspended id _ found with hides | ⟨_, other, _, same⟩ | every
    · exact absurd hides (visible id)
    · cases same
    · exact isClean_of_value every
  · rcases sound.suspended id _ found with hides | ⟨suspends, other, _, same⟩ | ⟨_, runs⟩
    · exact absurd hides (visible id)
    · cases same
      exact .inr ⟨of_decide_eq_true suspends, rfl, rfl⟩
    · exact .inl (isClean_of_runs runs)

theorem confined_of_keeping {r : Recording} (sound : (confining lazily).discipline.sound r) :
    r.Confined lazily where
  results code frame before v after member := by
    rcases eventSound_of_mem sound.2 member with every | marked
    · exact .inl (isClean_of_value every)
    · exact .inr marked
  arguments p given store member v inside :=
    isClean_of_value (eventSound_of_mem sound.2 member v inside)
  stores newer event older split := confined_of_sound (eventsSound_split (split ▸ sound.2)).1
  last := confined_of_sound sound.1

end Policy

/-- In a session with the default primitives that checks for unassigned variables, whatever source
texts it evaluates, marks stay confined, and no text gives a value with a mark inside. -/
theorem marks_stay_confined (setup : Setup) (texts : List String) (session : Session)
    (r : Recording) (default_ : setup.supplies = defaultSupplies)
    (checked : setup.checked = .ok true) (ran : setup.ran? texts = some (session, r)) :
    r.Confined (setup.strategy = .ok .lazy) ∧ ∀ limit text v s,
      (session.evaluateTextWithin limit text : Recorded Value).on r = (.ok v, s) →
        v.isClean = true := by
  classical
  let policy := Policy.confining (setup.strategy = .ok .lazy)
  obtain ⟨sound, present, strategy, chosen, same⟩ :=
    policy.sound_of_ran rfl rfl setup texts session r
    default_ (fun _ => checked) (fun lazily => decide_eq_true lazily) ran
  refine ⟨Policy.confined_of_keeping sound, fun limit text v s gave => ?_⟩
  obtain ⟨evaluator, globals⟩ := session
  obtain rfl : evaluator = _ := same
  have lawful := policy.lawful setup.added strategy fun lazily =>
    decide_eq_true (by rw [chosen, lazily])
  obtain ⟨outcome, after, evaluated, _, _, _, _, answer⟩ :=
    Discipline.evaluateText_keeps lawful (Policy.open_ rfl) limit globals text sound present
  rw [gave] at evaluated
  cases evaluated
  exact Policy.isClean_of_value answer

/-- A procedure of a `letrec` uses a name of it before that has its value. -/
theorem marks_stay_confined_early : ∃ session r,
    (Setup.plain "lazy" true).ran? ["(letrec ((a ((lambda (x) b) 1)) (b 2)) a)"] =
      some (session, r) ∧
      r.Confined ((Setup.plain "lazy" true).strategy = .ok .lazy) ∧ ∀ limit text v s,
        (session.evaluateTextWithin limit text : Recorded Value).on r = (.ok v, s) →
          v.isClean = true := by
  have started : ((Setup.plain "lazy" true).ran?
      ["(letrec ((a ((lambda (x) b) 1)) (b 2)) a)"]).isSome = true := by cbv
  obtain ⟨⟨session, r⟩, ran⟩ := Option.isSome_iff_exists.mp started
  exact ⟨session, r, ran, marks_stay_confined _ _ session r rfl rfl ran⟩

end ThunkLisp
