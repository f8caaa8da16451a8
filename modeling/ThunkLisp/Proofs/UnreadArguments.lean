import Mathlib
import ThunkLisp.Proofs.SoundRuns

/-!
Arguments that are not read. A procedure whose body does not contain the name of a parameter never
forces a suspension that this parameter is bound to, so whatever the operand is, the application has
the same outcome and does the same to the store. The suspension is hidden by a policy from the
moment it is made, and the frame of the parameter is its place once that is opened.
-/

namespace ThunkLisp

open Machine (effect)
open Value (Every)

/-! What a session has reached. -/

/-- The value is the other one or an item of it, at any depth. -/
inductive Value.Within (v : Value) : Value → Prop where
  | self : Within v v
  | item (items : List Value) (w : Value) (member : w ∈ items) (inside : Within v w) :
      Within v (.list items)

theorem Value.Within.every {p : Value → Prop} {v whole : Value} (inside : v.Within whole)
    (every : Every p whole) : Every p v := by
  induction inside with
  | self => exact every
  | item items w member _ ih => exact ih ((Value.every_list items).mp every w member)

/-- The value is in a binding or is kept by a suspension. -/
def Store.Holds (store : Store) (v : Value) : Prop :=
  (∃ frame, ∃ entry ∈ (store.frame frame).bindings, v.Within entry.2) ∨
    ∃ (id : ThunkId) (w : Value), store.thunks[id]? = some (.settled w) ∧ v.Within w

/-- Some session has the store at some time of its run, and the value in it, or has just computed
it. -/
def Setup.Reaches (setup : Setup) (store : Store) (v : Value) : Prop :=
  ∃ texts session r, setup.ran? texts = some (session, r) ∧
    ((store = r.store ∨ ∃ event ∈ r.events, event.store = store) ∧ store.Holds v ∨
      ∃ code frame before w, .ended (.evaluate code frame) before (.ok w) store ∈ r.events ∧
        v.Within w)

/-- The second store is the first, but for the code of a new suspension that has not been forced. If
the suspension is bound at all, then to this variable. -/
def Store.SameBut (unread : String) (one other : Value) (before after after' : Store) : Prop :=
  after' = after ∨ ∃ (id : ThunkId) (frame : FrameId) (kept : Bool), before.thunks[id]? = none ∧
    after.thunks[id]? = some (.waiting one frame kept) ∧ after' = after.recode id other ∧
    ∀ owner, ∀ entry ∈ (after.frame owner).bindings, entry.2 = .thunk id → entry.1 = .sym unread

abbrev Evaluator.inner (evaluator : Evaluator) (limit calls : Nat) : Inner Run :=
  (evaluator.stack limit).above calls

/-- Makes arguments of the operands and applies the function to them. -/
def Evaluator.call (evaluator : Evaluator) (limit : Nat) (fn : Value) (frame : FrameId)
    (operands : List Value) : Run Value := do
  let given ← evaluator.strategy.arguments
    (evaluator.inner limit (evaluator.strategy.calls fn operands)) fn frame operands
  apply evaluator.added (evaluator.inner limit appliedCalls) fn given

/-! From one policy to another. -/

namespace Policy

variable {policy stricter : Policy} {opened opened' : FrameId → String → Prop} {store after : Store}

/-- If marks may be values, it does not matter which variables a `letrec` has opened. -/
theorem Sound.loosen (sound : policy.Sound opened store) (loose : policy.loose = true) :
    policy.Sound opened' store := by
  refine ⟨sound.outer, fun frame entry member => ?_, sound.suspended, sound.checked, sound.hidden,
    sound.place⟩
  obtain ⟨name, key, bound⟩ := sound.bound frame entry member
  refine ⟨name, key, ?_⟩
  generalize entry.2 = v at bound
  cases bound with
  | value v every => exact .value v every
  | delayed id holds => exact .delayed id holds
  | placeholder v _ holds => exact .placeholder v (.inl loose) holds
  | hidden id here hides => exact .hidden id here hides

/-- What is sound under a policy without a place stays so under the other one, in a store that has
more. -/
structure Passes (policy stricter : Policy) (store after : Store) : Prop where
  loose : stricter.loose = true
  suspends : stricter.suspends = true
  unplaced : policy.place = none
  evolves : store.Evolves after
  thunks : ∀ id < store.thunks.size, after.thunks[id]? = store.thunks[id]?
  hides : ∀ id < store.thunks.size, stricter.Hides id ↔ policy.Hides id
  uses : ∀ frame < store.frames.size, ∀ name, policy.Uses store frame name →
    stricter.Uses after frame name

namespace Passes

variable (passes : policy.Passes stricter store after)

include passes

theorem runs {frame : FrameId} {code : Value} (present : frame < store.frames.size)
    (holds : policy.Runs store frame code) : stricter.Runs after frame code :=
  holds.imp (passes.uses frame present)

theorem leaf (v : Value) (holds : policy.Leaf store v) : stricter.Leaf after v := by
  cases v with
  | procedure identity params body frame =>
      exact ⟨Nat.lt_of_lt_of_le holds.1 passes.evolves.size, fun form member =>
        passes.runs holds.1 (holds.2 form member)⟩
  | unassigned => exact passes.loose
  | _ => exact holds

theorem value {v : Value} (every : Every (policy.Leaf store) v) : Every (stricter.Leaf after) v :=
  every.imp passes.leaf

theorem delayed {id : ThunkId} (holds : policy.Delayed store id) : stricter.Delayed after id := by
  obtain ⟨visible, suspension, found, unmarked⟩ := holds
  have present := (Array.getElem?_eq_some_iff.mp found).1
  exact ⟨fun hides => visible ((passes.hides id present).mp hides), suspension,
    by rw [passes.thunks id present, found], unmarked⟩

theorem bound {frame : FrameId} {name : String} {v : Value}
    (holds : policy.Bound opened store frame name v) :
    stricter.Bound opened' after frame name v := by
  cases holds with
  | value v every => exact .value v (passes.value every)
  | delayed id holds => exact .delayed id (passes.delayed holds)
  | hidden id here _ => cases passes.unplaced.symm.trans here
  | placeholder v _ holds =>
      refine .placeholder v (.inl passes.loose) ?_
      rcases holds with rfl | ⟨id, home, rfl, visible, _, found⟩
      · exact .inl rfl
      · have present := (Array.getElem?_eq_some_iff.mp found).1
        exact .inr ⟨id, home, rfl, fun hides => visible ((passes.hides id present).mp hides),
          passes.suspends, by rw [passes.thunks id present, found]⟩

theorem sound (sound : policy.Sound opened store)
    (outer : ∀ frame around, (after.frame frame).outer = some around → around < frame)
    (bound : ∀ frame, ∀ entry ∈ (after.frame frame).bindings, entry ∈ (store.frame frame).bindings ∨
      ∃ name, entry.1 = .sym name ∧ stricter.Bound opened' after frame name entry.2)
    (suspended : ∀ (id : ThunkId) suspension, after.thunks[id]? = some suspension →
      store.thunks[id]? = some suspension ∨ stricter.Hides id)
    (hidden : ∀ id, stricter.Hides id →
      ∃ code frame kept, after.thunks[id]? = some (.waiting code frame kept))
    (place : ∀ owner name, stricter.place = some (owner, name) → owner < after.frames.size) :
    stricter.Sound opened' after := by
  refine ⟨outer, fun frame entry member => ?_, fun id suspension found => ?_,
    fun tight => (Bool.false_ne_true (tight.symm.trans passes.loose)).elim, hidden, place⟩
  · rcases bound frame entry member with old | new
    · obtain ⟨name, key, holds⟩ := sound.bound frame entry old
      exact ⟨name, key, passes.bound holds⟩
    · exact new
  · rcases suspended id suspension found with old | hides
    · have present := (Array.getElem?_eq_some_iff.mp old).1
      rcases sound.suspended id suspension old with hides | ⟨_, frame, less, rfl⟩ | holds
      · exact .inl ((passes.hides id present).mpr hides)
      · exact .inr (.inl ⟨passes.suspends, frame, Nat.lt_of_lt_of_le less passes.evolves.size, rfl⟩)
      · refine .inr (.inr ?_)
        cases suspension with
        | settled v => exact passes.value holds
        | waiting code frame kept =>
            exact ⟨Nat.lt_of_lt_of_le holds.1 passes.evolves.size, passes.runs holds.1 holds.2⟩
    · exact .inl hides

end Passes

/-- Nothing is hidden, and marks may be values. -/
def free : Policy := ⟨true, true, none, none⟩

/-- The suspension is hidden and not bound. -/
def covering (id : ThunkId) (code : Value) : Policy := ⟨true, true, some (id, code), none⟩

/-- The suspension is hidden, and bound to one variable only. -/
def placing (id : ThunkId) (code : Value) (owner : FrameId) (name : String) : Policy :=
  ⟨true, true, some (id, code), some (owner, name)⟩

theorem covering_hides {id other : ThunkId} {code : Value} :
    (covering id code).Hides other ↔ other = id := by
  constructor
  · rintro ⟨found, same⟩
    cases same
    rfl
  · rintro rfl
    exact ⟨code, rfl⟩

theorem placing_hides {id other : ThunkId} {code : Value} {owner : FrameId} {name : String} :
    (placing id code owner name).Hides other ↔ other = id := by
  constructor
  · rintro ⟨found, same⟩
    cases same
    rfl
  · rintro rfl
    exact ⟨code, rfl⟩

theorem passes_hide (store : Store) (one code : Value) (frame : FrameId) (kept : Bool) :
    free.Passes (covering store.thunks.size code) store (store.addThunk one frame kept).2 where
  loose := rfl
  suspends := rfl
  unplaced := rfl
  evolves := .addThunk store one frame kept
  thunks id present := by
    simp only [Store.addThunk, Array.getElem?_push]
    rw [if_neg (Nat.ne_of_lt present)]
  hides id present := by
    rw [covering_hides]
    exact ⟨fun same => absurd present (by simp [same]), fun hides =>
      absurd hides (not_hides rfl id)⟩
  uses _ _ _ _ := fun _ _ here => nomatch here

theorem sound_hide (sound : free.Sound opened store) (one code : Value) (frame : FrameId)
    (kept : Bool) :
    (covering store.thunks.size code).Sound opened' (store.addThunk one frame kept).2 := by
  refine (passes_hide store one code frame kept).sound sound sound.outer
    (fun _ _ member => .inl member) (fun id suspension found => ?_) (fun id hides => ?_)
    fun _ _ here => nomatch here
  · simp only [Store.addThunk, Array.getElem?_push] at found
    split at found
    · next here => exact .inr (covering_hides.mpr here)
    · exact .inl found
  · obtain rfl := covering_hides.mp hides
    exact ⟨one, frame, kept, by simp [Store.addThunk]⟩

theorem passes_place (store : Store) (id : ThunkId) (code : Value) (frame : FrameId) (name : String)
    (bindings : Bindings) :
    (covering id code).Passes (placing id code store.frames.size name) store
      (store.extend frame bindings).2 where
  loose := rfl
  suspends := rfl
  unplaced := rfl
  evolves := .addFrame store bindings (some frame) none
  thunks _ _ := rfl
  hides _ _ := placing_hides.trans covering_hides.symm
  uses other present name' _ := by
    intro owner unused here around
    cases here
    have evolves : store.Evolves (store.extend frame bindings).2 :=
      .addFrame store bindings (some frame) none
    rw [evolves.chain other present] at around
    exact absurd (store.le_of_mem_chain other _ around) (Nat.not_le_of_lt present)

theorem sound_place {id : ThunkId} {code : Value} (sound : (covering id code).Sound opened store)
    (frame : FrameId) (name : String) (bindings : Bindings) (present : frame < store.frames.size)
    (bound : ∀ entry ∈ bindings, ∃ other, entry.1 = .sym other ∧
      (placing id code store.frames.size name).Bound opened' (store.extend frame bindings).2
        store.frames.size other entry.2) :
    (placing id code store.frames.size name).Sound opened' (store.extend frame bindings).2 := by
  refine (passes_place store id code frame name bindings).sound sound ?_ ?_
    (fun _ _ found => .inl found) (fun other hides => ?_) fun owner _ here => ?_
  · intro other around found
    rcases Store.outer_addFrame found with before | ⟨rfl, ⟨⟩⟩
    · exact sound.outer other around before
    · exact present
  · intro other entry member
    rcases Store.mem_bindings_addFrame member with before | ⟨rfl, among⟩
    · exact .inl before
    · exact .inr (bound entry among)
  · exact sound.hidden other (covering_hides.mpr (placing_hides.mp hides))
  · cases here
    simp [Store.extend, Store.addFrame]

theorem bound_only {unread : String} {id : ThunkId} (sound : policy.Sound opened store)
    (hides : policy.Hides id) (place : ∀ owner name, policy.place = some (owner, name) →
      name = unread)
    (owner : FrameId) (entry : Value × Value) (member : entry ∈ (store.frame owner).bindings)
    (same : entry.2 = .thunk id) : entry.1 = .sym unread := by
  obtain ⟨name, key, bound⟩ := sound.bound owner entry member
  generalize entry.2 = v at bound same
  subst same
  cases bound with
  | value _ every => cases (Value.every_of_flat rfl).mp every
  | delayed _ holds => exact absurd hides holds.1
  | placeholder _ _ holds =>
      rcases holds with same | ⟨other, _, same, visible, _⟩
      · cases same
      · cases same
        exact absurd hides visible
  | hidden _ here _ => rw [key, place owner name here]

end Policy

/-! Runs that do not look at a suspension. -/

/-- Whatever the code of the suspension is, the computation has this outcome and does the same to
the store. -/
def Blind {α : Type} (y : Run α) (id : ThunkId) (store : Store) (outcome : Except Failure α)
    (after : Store) : Prop :=
  ∀ code, y.on (store.recode id code) = (outcome, after.recode id code)

namespace Blind

variable {α β : Type} {y : Run α} {next : α → Run β} {id : ThunkId} {store between after : Store}

theorem bind {v : α} {outcome : Except Failure β} (first : Blind y id store (.ok v) between)
    (rest : Blind (next v) id between outcome after) : Blind (y >>= next) id store outcome
      after := by
  intro code
  simp only [Run.on_bind, first code, rest code]

theorem fail {failure : Failure} (first : Blind y id store (.error failure) after) :
    Blind (y >>= next) id store (.error failure) after := by
  intro code
  simp only [Run.on_bind, first code]

theorem of_keeps {x : Recorded α} {r : Recording} (policy : Value → Policy)
    (hidden : ∀ code, (policy code).hidden = some (id, code)) {post : Value → α → Recording → Prop}
    (keeps : ∀ code, (policy code).discipline.Keeps x y r (post code)) :
    ∃ outcome after, Blind y id r.store outcome after.store ∧ ∀ code,
      (policy code).discipline.sound after ∧ r.Continues after ∧
        (policy code).discipline.Answers (post code) outcome after := by
  have viewed (code : Value) (store : Store) :
      (policy code).discipline.view store = store.recode id code := by
    simp [Policy.discipline, Policy.view, hidden code]
  obtain ⟨outcome, after, ran, _⟩ := keeps .nil
  refine ⟨outcome, after, fun code => ?_, fun code => ?_⟩
  · obtain ⟨outcome', after', ran', same, _⟩ := keeps code
    rw [ran] at ran'
    cases ran'
    rw [viewed, viewed] at same
    exact same
  · obtain ⟨outcome', after', ran', _, _, sound, later, answer⟩ := keeps code
    rw [ran] at ran'
    cases ran'
    exact ⟨sound, later, answer⟩

end Blind

/-- A failure or a value that shows no suspension. -/
def Unsuspending : Except Failure Value → Prop
  | .ok v => Unsuspended v
  | .error failure => failure.Shows fun leaf => leaf.isThunk = false

theorem unsuspending_of_answers {policy : Policy} {outcome : Except Failure Value}
    {after : Recording} (answer : policy.discipline.Answers (fun v s => policy.discipline.value s v)
    outcome after) :
    Unsuspending outcome := by
  cases outcome with
  | ok v => exact Every.imp (Policy.unsuspended_leaf after.store) answer
  | error failure => exact answer

/-! The arguments. -/

section Arguments

variable (inner : Inner Run) (frame : FrameId)

theorem argumentFor_late {mode : ParamMode} (late : mode ≠ .strict) :
    ∃ kept, ∀ code, argumentFor inner frame mode code = suspend code frame kept := by
  cases mode with
  | strict => exact absurd rfl late
  | lazy => exact ⟨false, fun _ => rfl⟩
  | lazyMemo => exact ⟨true, fun _ => rfl⟩

/-- The lazy strategy makes arguments as if all parameters were lazy. -/
theorem suspendAll_eq_argumentsFor (params : List Param) (codes : List Value)
    (count : params.length = codes.length) :
    suspendAll frame codes = argumentsFor inner frame (params.map fun p => ⟨p.name, .lazy⟩)
      codes := by
  induction params generalizing codes with
  | nil =>
      obtain rfl := List.eq_nil_of_length_eq_zero count.symm
      rfl
  | cons param params ih =>
      cases codes with
      | nil => cases count
      | cons code rest =>
          simp only [suspendAll, List.map_cons, argumentsFor, ih rest (Nat.succ.inj count)]
          rfl

theorem argumentsFor_append (front back : List Param) (before behind : List Value)
    (count : front.length = before.length) :
    argumentsFor inner frame (front ++ back) (before ++ behind) = (do
      let first ← argumentsFor inner frame front before
      let rest ← argumentsFor inner frame back behind
      return first ++ rest) := by
  induction front generalizing before with
  | nil =>
      obtain rfl := List.eq_nil_of_length_eq_zero count.symm
      simp [argumentsFor]
  | cons param params ih =>
      cases before with
      | nil => cases count
      | cons code rest =>
          simp only [List.cons_append, argumentsFor, ih rest (Nat.succ.inj count), bind_assoc,
            pure_bind]

theorem argumentsFor_length (params : List Param) (codes : List Value) (store after : Store)
    (given : List Value) (count : params.length = codes.length)
    (ran : (argumentsFor inner frame params codes).on store = (.ok given, after)) :
    given.length = params.length := by
  induction params generalizing codes store given with
  | nil =>
      cases ran
      rfl
  | cons param params ih =>
      cases codes with
      | nil => cases count
      | cons code rest =>
          simp only [argumentsFor, Run.on_bind] at ran
          split at ran
          · split at ran
            · next vs _ ran' =>
                cases ran
                simp [ih rest _ vs (Nat.succ.inj count) ran']
            · cases ran
          · cases ran

end Arguments

/-! The phases of an application. -/

/-- The store is sound, and no `letrec` has opened a frame in it. -/
def Policy.SoundIn (policy : Policy) (store : Store) : Prop := policy.Sound (fun _ _ => False) store

def Policy.Argument (policy : Policy) (store : Store) (v : Value) : Prop :=
  Every (policy.Leaf store) v ∨ ∃ id, v = .thunk id ∧ policy.Delayed store id

theorem Policy.Argument.evolve {policy : Policy} {store after : Store} {v : Value}
    (evolves : store.Evolves after) (argument : policy.Argument store v) :
      policy.Argument after v := by
  rcases argument with every | ⟨id, rfl, delayed⟩
  · exact .inl (evolves.value every)
  · exact .inr ⟨id, rfl, delayed.evolve evolves⟩

theorem Policy.Passes.argument {policy stricter : Policy} {store after : Store} {v : Value}
    (passes : policy.Passes stricter store after) (holds : policy.Argument store v) :
    stricter.Argument after v := by
  rcases holds with every | ⟨id, rfl, delayed⟩
  · exact .inl (passes.value every)
  · exact .inr ⟨id, rfl, passes.delayed delayed⟩

section Phases

variable (added : AddedActions) (strategy : Strategy) (limit calls : Nat) {store : Store}
  {id : ThunkId}

theorem Policy.runs_of_inert {policy : Policy} (unplaced : policy.place = none) (frame : FrameId)
    {code : Value} (inert : Inert code) : policy.Runs store frame code :=
  .written code (inert.imp fun _ holds =>
    ⟨holds, fun _ _ _ _ here => nomatch unplaced.symm.trans here⟩)

theorem before_ran (sound : Policy.free.SoundIn store) (params : List Param) (frame : FrameId)
    (codes : List Value) (present : frame < store.frames.size)
    (inert : ∀ code ∈ codes, Inert code) :
    ∃ outcome after,
      (argumentsFor ((Discipline.evaluator added strategy).inner limit calls) frame params codes).on
        store =
        (outcome, after) ∧ Policy.free.SoundIn after ∧ store.Evolves after ∧
        match outcome with
        | .ok given => ∀ v ∈ given, Policy.free.Argument after v
        | .error failure => failure.Shows fun leaf => leaf.isThunk = false := by
  have lawful := Policy.free.lawful added strategy fun _ => rfl
  have keeps := Discipline.above_keeps lawful limit calls
  obtain ⟨outcome, after, _, ran, _, sound', later, answer⟩ :=
    Discipline.argumentsFor_keeps (r := ⟨store, []⟩) lawful keeps params codes
      ⟨sound.loosen rfl, trivial⟩
      present fun code member => Policy.runs_of_inert rfl frame (inert code member)
  refine ⟨outcome, after.store, ran, sound'.1.loosen rfl, later.1, ?_⟩
  cases outcome with
  | ok given => exact answer
  | error failure => exact answer

theorem behind_blind (sound : ∀ code, (Policy.covering id code).SoundIn store) (params : List Param)
    (frame : FrameId) (codes : List Value) (present : frame < store.frames.size)
    (inert : ∀ code ∈ codes, Inert code) :
    ∃ outcome after,
      Blind (argumentsFor ((Discipline.evaluator added strategy).inner limit calls) frame params
        codes) id store
        outcome after ∧ store.Evolves after ∧
        (∀ code, (Policy.covering id code).SoundIn after) ∧
        match outcome with
        | .ok given => ∀ code, ∀ v ∈ given, (Policy.covering id code).Argument after v
        | .error failure => failure.Shows fun leaf => leaf.isThunk = false := by
  have keeping (code : Value) := Discipline.argumentsFor_keeps (r := ⟨store, []⟩)
    ((Policy.covering id code).lawful added strategy fun _ => rfl)
    (Discipline.above_keeps ((Policy.covering id code).lawful added strategy fun _ => rfl) limit
      calls) params codes
    ⟨(sound code).loosen rfl, trivial⟩ present
    fun code member => Policy.runs_of_inert rfl frame (inert code member)
  obtain ⟨outcome, after, blind, facts⟩ := Blind.of_keeps (fun code => Policy.covering id code)
    (fun _ => rfl) keeping
  refine ⟨outcome, after.store, blind, (facts .nil).2.1.1, fun code => (facts code).1.1.loosen rfl,
    ?_⟩
  cases outcome with
  | ok given => exact fun code => (facts code).2.2
  | error failure => exact (facts .nil).2.2

theorem body_blind {owner : FrameId} {unread : String}
    (sound : ∀ code, (Policy.placing id code owner unread).SoundIn store) (body : List Value)
    (runs : ∀ code, ∀ form ∈ body, (Policy.placing id code owner unread).Runs store owner form) :
    ∃ outcome after,
      Blind (Inner.sequence ((Discipline.evaluator added strategy).inner limit calls) owner body) id
        store
        outcome after ∧ store.Evolves after ∧
        (∀ code, (Policy.placing id code owner unread).SoundIn after) ∧ Unsuspending outcome := by
  have keeping (code : Value) := Discipline.sequence_keeps (r := ⟨store, []⟩)
    ((Policy.placing id code owner unread).lawful added strategy fun _ => rfl)
    (Discipline.above_keeps ((Policy.placing id code owner unread).lawful added strategy fun _ =>
      rfl) limit calls)
    body ⟨(sound code).loosen rfl, trivial⟩ ((sound code).place owner unread rfl) (runs code)
  obtain ⟨outcome, after, blind, facts⟩ :=
    Blind.of_keeps (fun code => Policy.placing id code owner unread) (fun _ => rfl) keeping
  exact ⟨outcome, after.store, blind, (facts .nil).2.1.1, fun code => (facts code).1.1.loosen rfl,
    unsuspending_of_answers (facts .nil).2.2⟩

theorem application_blind (sound : ∀ code, (Policy.covering id code).SoundIn store) (identity : Nat)
    (params front back : List Param) (unread : String) (mode : ParamMode)
    (split : params = front ++ ⟨unread, mode⟩ :: back) (body : List Value) (home : FrameId)
    (leaf : ∀ code, (Policy.covering id code).Leaf store (.procedure identity params body home))
    (absent : ∀ form ∈ body, Every (fun leaf => leaf ≠ .sym unread) form) (first rest : List Value)
    (count : first.length = front.length) (count' : rest.length = back.length)
    (arguments : ∀ code, ∀ v ∈ first ++ rest, (Policy.covering id code).Argument store v) :
    ∃ outcome after,
      Blind (apply added ((Discipline.evaluator added strategy).inner limit calls)
        (.procedure identity params body home) (first ++ .thunk id :: rest)) id store outcome
          after ∧
        store.Evolves after ∧
        (∀ code, (Policy.placing id code store.frames.size unread).SoundIn after) ∧
        Unsuspending outcome := by
  generalize zipped : (params.map fun p => Value.sym p.name).zip (first ++ .thunk id :: rest) =
    bindings
  have entering : Blind (bindParams params home (first ++ .thunk id :: rest)) id store
      (.ok store.frames.size) (store.extend home bindings).2 := by
    intro code
    rw [on_bindParams, if_pos (by simp [split, count, count']), zipped]
    rfl
  have parts : bindings = (front.map fun p => Value.sym p.name).zip first ++
      (.sym unread, .thunk id) :: (back.map fun p => Value.sym p.name).zip rest := by
    rw [← zipped, split, List.map_append, List.zip_append (by simp [count])]
    rfl
  have named {names : List Param} {values : List Value} {entry : Value × Value}
      (member : entry ∈ (names.map fun p => Value.sym p.name).zip values) :
      ∃ name, entry.1 = .sym name ∧ entry.2 ∈ values := by
    obtain ⟨key, value⟩ := List.of_mem_zip member
    obtain ⟨param, _, same⟩ := List.mem_map.mp key
    exact ⟨param.name, same.symm, value⟩
  -- the suspension is bound to the unread name alone, and the arguments around it to the others
  have placed (code : Value) :
      (Policy.placing id code store.frames.size unread).SoundIn (store.extend home bindings).2 := by
    refine Policy.sound_place (sound code) home unread bindings (leaf code).1 fun entry member => ?_
    have plain {name : String} (value : entry.2 ∈ first ++ rest) :
        (Policy.placing id code store.frames.size unread).Bound (fun _ _ => False)
          (store.extend home bindings).2
          store.frames.size name entry.2 := by
      have argument := arguments code entry.2 value
      rcases (Policy.passes_place store id code home unread bindings).argument argument with
        every | ⟨other, same, delayed⟩
      · exact .value entry.2 every
      · exact same ▸ .delayed other delayed
    rw [parts] at member
    rcases List.mem_append.mp member with front | member
    · obtain ⟨name, key, value⟩ := named front
      exact ⟨name, key, plain (by simp [value])⟩
    · rcases List.mem_cons.mp member with rfl | back
      · exact ⟨unread, rfl, .hidden id rfl (Policy.placing_hides.mpr rfl)⟩
      · obtain ⟨name, key, value⟩ := named back
        exact ⟨name, key, plain (by simp [value])⟩
  -- so the body is told of every name but that one
  have runs (code : Value) (form : Value) (member : form ∈ body) :
      (Policy.placing id code store.frames.size unread).Runs (store.extend home bindings).2
        store.frames.size form := by
    refine ((leaf code).2 form member).avoid (absent form member) fun name different _ => ?_
    intro owner unused here _
    cases here
    exact different
  obtain ⟨outcome, after, blind, evolves, sound', unsuspending⟩ :=
    body_blind added strategy limit calls placed body runs
  exact ⟨outcome, after, entering.bind blind,
    (Store.Evolves.addFrame store bindings (some home) none).trans evolves, sound', unsuspending⟩

/-- Nothing after the suspension of the operand looks at it, and it is bound to its parameter only.
-/
theorem rest_blind (sound : ∀ code, (Policy.covering id code).SoundIn store) (identity : Nat)
    (params front back : List Param) (unread : String) (mode : ParamMode)
    (split : params = front ++ ⟨unread, mode⟩ :: back) (body : List Value) (home : FrameId)
    (leaf : ∀ code, (Policy.covering id code).Leaf store (.procedure identity params body home))
    (absent : ∀ form ∈ body, Every (fun leaf => leaf ≠ .sym unread) form) (first : List Value)
    (count : first.length = front.length)
    (arguments : ∀ code, ∀ v ∈ first, (Policy.covering id code).Argument store v)
    (others : List Param) (frame : FrameId) (behind : List Value)
    (count' : others.length = behind.length) (same : others.length = back.length)
    (present : frame < store.frames.size) (inert : ∀ code ∈ behind, Inert code) (calls' : Nat) :
    ∃ outcome after,
      Blind (do
        let rest ← argumentsFor ((Discipline.evaluator added strategy).inner limit calls) frame
          others behind
        apply added ((Discipline.evaluator added strategy).inner limit calls')
          (.procedure identity params body home) (first ++ .thunk id :: rest)) id store outcome
            after ∧
        store.Evolves after ∧ Unsuspending outcome ∧
        ∃ policy : Policy, policy.Hides id ∧ policy.SoundIn after ∧
          ∀ owner name, policy.place = some (owner, name) → name = unread := by
  obtain ⟨outcome, between, blind, evolves, sound', answer⟩ :=
    behind_blind added strategy limit calls sound others frame behind present inert
  cases outcome with
  | error failure =>
      exact ⟨.error failure, between, blind.fail, evolves, answer, Policy.covering id .nil,
        Policy.covering_hides.mpr rfl, sound' .nil, fun _ _ here => nomatch here⟩
  | ok rest =>
      have filled := argumentsFor_length _ frame others behind _ _ rest count' (blind .nil)
      obtain ⟨outcome, after, blind', evolves', sound'', unsuspending⟩ :=
        application_blind added strategy limit calls' sound' identity params front back unread mode
          split body home
          (fun code => evolves.leaf _ (leaf code)) absent first rest count (filled.trans same)
          fun code v member => by
            rcases List.mem_append.mp member with member | member
            · exact (arguments code v member).evolve evolves
            · exact answer code v member
      exact ⟨outcome, after, blind.bind blind', evolves.trans evolves', unsuspending,
        Policy.placing id .nil between.frames.size unread, Policy.placing_hides.mpr rfl,
          sound'' .nil,
        fun _ _ here => by cases here; rfl⟩

end Phases

/-! Reached stores. -/

theorem Policy.leaf_of_holds {store : Store} {v : Value}
    (sound : Policy.free.SoundIn store) (holds : store.Holds v) (flat : v.isList = false)
    (thunk : ∀ id, v ≠ .thunk id) (assigned : v ≠ .unassigned) : Policy.free.Leaf store v := by
  have leaf {w : Value} (inside : v.Within w) (every : Every (Policy.free.Leaf store) w) :
      Policy.free.Leaf store v := (Value.every_of_flat flat).mp (inside.every every)
  have visible (id : ThunkId) : ¬ Policy.free.Hides id := Policy.not_hides rfl id
  rcases holds with ⟨frame, entry, member, inside⟩ | ⟨id, w, found, inside⟩
  · obtain ⟨name, key, bound⟩ := sound.bound frame entry member
    generalize entry.2 = w at bound inside
    cases bound with
    | value w every => exact leaf inside every
    | delayed id _ =>
        cases inside
        exact absurd rfl (thunk id)
    | placeholder w _ holds =>
        rcases holds with rfl | ⟨id, _, rfl, _⟩
        · cases inside
          exact absurd rfl assigned
        · cases inside
          exact absurd rfl (thunk id)
    | hidden id _ hides => exact absurd hides (visible id)
  · rcases sound.suspended id _ found with hides | ⟨_, _, _, same⟩ | every
    · exact absurd hides (visible id)
    · cases same
    · exact leaf inside every

theorem Setup.Reaches.sound {setup : Setup} {store : Store} {identity : Nat} {params : List Param}
    {body : List Value} {home : FrameId}
    (default_ : setup.supplies = defaultSupplies)
    (reached : setup.Reaches store (.procedure identity params body home)) :
    Policy.free.SoundIn store ∧
      Policy.free.Leaf store (.procedure identity params body home) := by
  obtain ⟨texts, session, r, ran, place⟩ := reached
  obtain ⟨⟨sound, events⟩, _⟩ := Policy.free.sound_of_ran rfl rfl setup texts session r default_
    (fun tight => nomatch tight) (fun _ => rfl) ran
  have event_sound {event : Event} (member : event ∈ r.events) :
      Policy.free.SoundIn event.store ∧ Policy.free.EventSound event := by
    obtain ⟨newer, older, split⟩ := List.append_of_mem member
    have both := Policy.eventsSound_split (split ▸ events)
    exact ⟨both.1.loosen rfl, both.2⟩
  rcases place with ⟨when_, holds⟩ | ⟨code, frame, before, w, member, inside⟩
  · have there : Policy.free.SoundIn store := by
      rcases when_ with rfl | ⟨event, member, rfl⟩
      · exact sound.loosen rfl
      · exact (event_sound member).1
    exact ⟨there, Policy.leaf_of_holds there holds rfl (by simp) (by simp)⟩
  · obtain ⟨there, result⟩ := event_sound member
    refine ⟨there, ?_⟩
    rcases result with every | ⟨_, rfl⟩
    · exact (Value.every_of_flat rfl).mp (inside.every every)
    · cases inside

/-! Two operands. -/

namespace Store

theorem recode_addThunk_self (store : Store) (one code : Value) (frame : FrameId) (kept : Bool) :
    (store.addThunk one frame kept).2.recode store.thunks.size code =
      (store.addThunk code frame kept).2 := by
  have thunks : (store.thunks.push (.waiting one frame kept)).modify store.thunks.size
      (Suspension.recode code) = store.thunks.push (.waiting code frame kept) := by
    refine Array.ext (by simp) fun i less less' => ?_
    by_cases last : i = store.thunks.size
    · subst last
      simp [Array.getElem_modify, Suspension.recode]
    · have inside : i < store.thunks.size := by
        simp only [Array.size_push] at less'
        omega
      simp [Array.getElem_modify, Array.getElem_push, Ne.symm last, inside]
  simp [addThunk, recode, thunks]

theorem recode_self (store : Store) (id : ThunkId) (code : Value) (frame : FrameId) (kept : Bool)
    (waiting : store.thunks[id]? = some (.waiting code frame kept)) :
      store.recode id code = store := by
  have thunks : store.thunks.modify id (Suspension.recode code) = store.thunks := by
    refine Array.ext_getElem? fun i => ?_
    by_cases here : id = i
    · subst here
      simp [Array.getElem?_modify, waiting, Suspension.recode]
    · simp [Array.getElem?_modify, here]
  simp [recode, thunks]

end Store

theorem Policy.SoundIn.waits {policy : Policy} {store after : Store}
    {id : ThunkId} {code : Value} {frame : FrameId} {kept : Bool} (sound : policy.SoundIn after)
    (hides : policy.Hides id) (evolves : store.Evolves after)
    (was : store.thunks[id]? = some (.waiting code frame kept)) :
    after.thunks[id]? = some (.waiting code frame kept) := by
  obtain ⟨code', frame', kept', found⟩ := sound.hidden id hides
  obtain ⟨new, found', becomes⟩ := evolves.thunks id _ was
  rcases becomes with rfl | ⟨_, v, rfl⟩
  · exact found'
  · cases found.symm.trans found'

theorem Strategy.arguments_late (strategy : Strategy) (inner : Inner Run) (identity : Nat)
    (front back : List Param) (unread : String) (mode : ParamMode)
    (late : strategy = .lazy ∨ strategy = .mixed ∧ mode ≠ .strict) (body : List Value)
    (home frame : FrameId) (before behind : List Value) (count : before.length = front.length)
    (count' : behind.length = back.length) :
    ∃ front' mode' back', mode' ≠ .strict ∧ front'.length = front.length ∧
      back'.length = back.length ∧
      ∀ code, strategy.arguments inner (.procedure identity (front ++ ⟨unread, mode⟩ :: back) body
          home) frame
          (before ++ code :: behind) =
        argumentsFor inner frame (front' ++ ⟨unread, mode'⟩ :: back')
          (before ++ code :: behind) := by
  rcases late with rfl | ⟨rfl, late⟩
  · refine ⟨front.map fun p => ⟨p.name, .lazy⟩, .lazy, back.map fun p => ⟨p.name, .lazy⟩, by
      simp, by simp, by simp, fun code => ?_⟩
    have lazily := suspendAll_eq_argumentsFor inner frame (front ++ ⟨unread, mode⟩ :: back)
      (before ++ code :: behind) (by simp [count, count'])
    change suspendAll frame (before ++ code :: behind) = _
    simpa using lazily
  · refine ⟨front, mode, back, late, rfl, rfl, fun code => ?_⟩
    simp [Strategy.arguments, count, count']

/-- A call with a late operand computes the operands before it, suspends it, computes those behind
it, and applies the procedure. -/
theorem Evaluator.call_late (added : AddedActions) (strategy : Strategy) (limit identity : Nat)
    (front back : List Param) (unread : String) (mode : ParamMode)
    (late : strategy = .lazy ∨ strategy = .mixed ∧ mode ≠ .strict) (body : List Value)
    (home frame : FrameId) (before behind : List Value) (count : before.length = front.length)
    (count' : behind.length = back.length) :
    let evaluator := Discipline.evaluator added strategy
    let fn := Value.procedure identity (front ++ ⟨unread, mode⟩ :: back) body home
    ∃ front' kept back', front'.length = front.length ∧ back'.length = back.length ∧
      ∀ code, (evaluator.call limit fn frame (before ++ code :: behind) : Run Value) = (do
        let first ← argumentsFor (evaluator.inner limit 1) frame front' before
        let v ← suspend code frame kept
        let rest ← argumentsFor (evaluator.inner limit 1) frame back' behind
        apply added (evaluator.inner limit appliedCalls) fn (first ++ v :: rest)) := by
  intro evaluator fn
  obtain ⟨front', mode', back', mode_late, length, length', same⟩ :=
    strategy.arguments_late (evaluator.inner limit 1) identity front back unread mode late body
      home frame before behind count count'
  obtain ⟨kept, suspends⟩ := argumentFor_late (evaluator.inner limit 1) frame mode_late
  refine ⟨front', kept, back', length, length', fun code => ?_⟩
  have parts := argumentsFor_append (evaluator.inner limit 1) frame front'
    (⟨unread, mode'⟩ :: back') before (code :: behind) (length.trans count.symm)
  have arguments := (same code).trans parts
  simp only [argumentsFor, suspends, bind_assoc, pure_bind] at arguments
  have fits : (before ++ code :: behind).length = (front ++ ⟨unread, mode⟩ :: back).length := by
    simp [count, count']
  have unfolded : (evaluator.call limit fn frame (before ++ code :: behind) : Run Value) = (do
      let given ← strategy.arguments (evaluator.inner limit 1) fn frame (before ++ code :: behind)
      apply added (evaluator.inner limit appliedCalls) fn given) := by
    simp only [Evaluator.call, evaluator, fn, Discipline.evaluator,
      strategy.calls_of_length fits identity body home]
  rw [unfolded, arguments]
  simp only [bind_assoc, pure_bind]

/-- A procedure of a session with the default primitives is applied from some frame, in some store
that the session has reached. If its body does not contain the name of a parameter and the strategy
suspends the operand of that, then for any two such operands the outcomes and their messages are the
same, and so are the stores, but for the code of the suspension. -/
theorem unread_argument_irrelevant (setup : Setup) (default_ : setup.supplies = defaultSupplies)
    (store : Store) (identity : Nat) (front back : List Param) (unread : String) (mode : ParamMode)
    (body : List Value) (home : FrameId)
    (reached : setup.Reaches store (.procedure identity (front ++ ⟨unread, mode⟩ :: back) body
      home))
    (absent : ∀ form ∈ body, Every (fun leaf => leaf ≠ .sym unread) form) (strategy : Strategy)
    (late : strategy = .lazy ∨ strategy = .mixed ∧ mode ≠ .strict) (limit : Nat) (frame : FrameId)
    (present : frame < store.frames.size) (before behind : List Value)
    (count : before.length = front.length) (count' : behind.length = back.length)
    (inert : ∀ code ∈ before ++ behind, Inert code) (one other : Value) :
    let call := fun code => (Discipline.evaluator setup.added strategy).call limit
      (.procedure identity (front ++ ⟨unread, mode⟩ :: back) body home) frame
        (before ++ code :: behind)
    ∃ outcome after after', (call one).on store = (outcome, after) ∧
      (call other).on store = (outcome, after') ∧
      store.SameBut unread one other after after' ∧ after'.printed = after.printed ∧
      ∀ failure, outcome = .error failure → failure.message after' = failure.message after := by
  intro call
  obtain ⟨sound, leaf⟩ := reached.sound default_
  obtain ⟨front', kept, back', length, length', called⟩ :=
    Evaluator.call_late setup.added strategy limit identity front back unread mode late body home
      frame before behind count count'
  replace called (code : Value) : call code = _ := called code
  -- the operands before it are done in the same store whatever it is
  obtain ⟨outcome, between, ran, sound', evolves, answer⟩ :=
    before_ran setup.added strategy limit 1 sound
    front' frame before present fun code member => inert code (by simp [member])
  cases outcome with
  | error failure =>
      have fails (code : Value) : (call code).on store = (.error failure, between) := by
        rw [called, Run.on_bind, ran]
      exact ⟨.error failure, between, between, fails one, fails other, .inl rfl, rfl, fun _ _ =>
        rfl⟩
  | ok first =>
      have filled := argumentsFor_length _ frame front' before _ _ first (length.trans count.symm)
        ran
      have leaf' := evolves.leaf _ leaf
      have passes (code : Value) := Policy.passes_hide between one code frame kept
      -- nothing behind it looks at its suspension
      obtain ⟨outcome, after, blind, evolves', unsuspending, policy, hides, sound'', place⟩ :=
        rest_blind setup.added strategy limit 1 (fun code =>
          Policy.sound_hide sound' one code frame kept)
          identity _ front back unread mode rfl body home (fun code => (passes code).leaf _ leaf')
            absent first
          (filled.trans length) (fun code v member => (passes code).argument (answer v member))
            back' frame
          behind (length'.trans count'.symm) length' (Nat.lt_of_lt_of_le present evolves.size)
          (fun code member => inert code (by simp [member])) appliedCalls
      have ends (code : Value) : (call code).on store =
          (outcome, after.recode between.thunks.size code) := by
        rw [called, Run.on_bind, ran]
        simp only
        rw [Run.on_bind, on_suspend, ← between.recode_addThunk_self one code frame kept]
        exact blind code
      have waits : after.thunks[between.thunks.size]? = some (.waiting one frame kept) :=
        sound''.waits hides evolves' (by simp [Store.addThunk])
      have new : store.thunks[between.thunks.size]? = none := by
        refine Array.getElem?_eq_none (Nat.not_lt.mp fun less => ?_)
        obtain ⟨_, found, _⟩ := evolves.thunks _ _ (Array.getElem?_eq_getElem less)
        exact Nat.lt_irrefl _ (Array.getElem?_eq_some_iff.mp found).1
      refine ⟨outcome, after, after.recode between.thunks.size other, ?_, ends other,
        .inr ⟨_, frame, kept, new, waits, rfl, Policy.bound_only sound'' hides place⟩, rfl, ?_⟩
      · rw [ends one, after.recode_self _ one frame kept waits]
      · rintro failure rfl
        exact message_of_unsuspended _ _ failure unsuspending

/-- The text defines a procedure that does not read its first parameter. -/
def second : String := "(define (second x y) y)"

/-- It may as well be given an operand that fails. -/
theorem unread_argument_irrelevant_second : ∃ store,
    (Setup.plain "lazy" true).Reaches store (.procedure 1 ([] ++ ⟨"x", .strict⟩ :: [⟨"y", .strict⟩])
      [.sym "y"] 0) ∧
      let call := fun code => (Discipline.evaluator (Setup.plain "lazy" true).added .lazy).call 9
        (.procedure 1 ([] ++ ⟨"x", .strict⟩ :: [⟨"y", .strict⟩]) [.sym "y"] 0) 0
          ([] ++ code :: [.int 2])
      ∃ outcome after after', (call (.int 1)).on store = (outcome, after) ∧
        (call (.list [.sym "car", .nil])).on store = (outcome, after') ∧
        store.SameBut "x" (.int 1) (.list [.sym "car", .nil]) after after' ∧
          after'.printed = after.printed ∧
        ∀ failure, outcome = .error failure → failure.message after' = failure.message after := by
  have found : ((Setup.plain "lazy" true).ran? [second]).map (fun ran =>
      (ran.2.store.frames.size, (ran.2.store.frame 0).bindings.find? (.sym "second"))) =
        some (1, some (.procedure 1 [⟨"x", .strict⟩, ⟨"y", .strict⟩] [.sym "y"] 0)) := by cbv
  obtain ⟨⟨session, r⟩, ran, facts⟩ := Option.map_eq_some_iff.mp found
  obtain ⟨size, bound⟩ := Prod.mk.inj facts
  obtain ⟨entry, first, same⟩ := Option.map_eq_some_iff.mp bound
  have reached : (Setup.plain "lazy" true).Reaches r.store
      (.procedure 1 ([] ++ ⟨"x", .strict⟩ :: [⟨"y", .strict⟩]) [.sym "y"] 0) :=
    ⟨[second], session, r, ran, .inl ⟨.inl rfl, .inl ⟨0, entry, List.mem_of_find?_eq_some first,
      same ▸ .self⟩⟩⟩
  have absent : ∀ form ∈ [Value.sym "y"], Every (fun leaf => leaf ≠ .sym "x") form := by
    simp [Value.every_sym]
  have inert : ∀ code ∈ [] ++ [Value.int 2], Inert code := by
    intro code member
    obtain rfl := List.mem_singleton.mp member
    exact (Value.every_of_flat rfl).mpr rfl
  exact ⟨r.store, reached, unread_argument_irrelevant (Setup.plain "lazy" true) rfl r.store 1 []
    [⟨"y", .strict⟩] "x" .strict [.sym "y"] 0 reached absent .lazy (.inl rfl) 9 0
      (size ▸ Nat.one_pos) [] [.int 2]
    rfl rfl inert (.int 1) (.list [.sym "car", .nil])⟩

end ThunkLisp
