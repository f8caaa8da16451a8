import ThunkLisp.Proofs.AccordSessions

/-!
Accords about every moment of a recording, and accords of sessions with the default primitives. In
these code is made of what can be read and of marks of unassigned variables, and no suspension is
inside a value; an accord may ask more of parameters and of code.
-/

namespace ThunkLisp

open Machine (effect)
open Value (Every)

/-! Moments. -/

namespace Recording

def pastsOf : List Event → List Recording
  | [] => []
  | event :: older => ⟨event.store, event :: older⟩ :: pastsOf older

def pasts (r : Recording) : List Recording := r :: pastsOf r.events

def Always (good : Recording → Prop) (r : Recording) : Prop := ∀ past ∈ r.pasts, good past

theorem store_pastsOf (events : List Event) : (pastsOf events).map Recording.store =
    events.map Event.store := by
  induction events with
  | nil => rfl
  | cons event older ih => simp [pastsOf, ih]

theorem moments_eq (r : Recording) : r.moments = r.pasts.map Recording.store := by
  simp [moments, pasts, store_pastsOf]

theorem pasts_of_mem_pastsOf {events : List Event} {past : Recording}
    (member : past ∈ pastsOf events) :
    ∀ found ∈ past.pasts, found ∈ pastsOf events := by
  induction events with
  | nil => cases member
  | cons event older ih =>
      rcases List.mem_cons.mp member with rfl | earlier
      · simp [pasts, pastsOf]
      · exact fun found among => .tail _ (ih earlier found among)

namespace Always

variable {good : Recording → Prop} {r : Recording}

theorem now (always : r.Always good) : good r := always r List.mem_cons_self

theorem nothing (here : good {}) : Always good {} := by
  intro past member
  obtain rfl := List.mem_singleton.mp member
  exact here

theorem past {past : Recording} (always : r.Always good) (member : past ∈ r.pasts) :
    past.Always good := by
  rcases List.mem_cons.mp member with rfl | earlier
  · exact always
  · exact fun found among => always found (.tail _ (pasts_of_mem_pastsOf earlier found among))

theorem withStore {after : Store} (always : r.Always good) (here : good ⟨after, r.events⟩) :
    Always good ⟨after, r.events⟩ :=
  List.forall_mem_cons.mpr ⟨here, fun past member => always past (.tail _ member)⟩

theorem note (always : r.Always good) (event : Event) (same : event.store = r.store)
    (here : good (r.note event)) : Always good (r.note event) := by
  have there : (⟨event.store, event :: r.events⟩ : Recording) = r.note event := by rw [same]; rfl
  intro past member
  rcases List.mem_cons.mp member with rfl | member
  · exact here
  · rcases List.mem_cons.mp member with rfl | member
    · exact there ▸ here
    · exact always past (.tail _ member)

theorem moments {good : Store → Prop} (always : r.Always fun past => good past.store) :
    ∀ store ∈ r.moments, good store := by
  rw [moments_eq]
  exact List.forall_mem_map.mpr always

end Always

end Recording

/-! Data. -/

/-- Leaves of code: what can be read, and the mark that `letrec` puts in. -/
def Value.IsWritten (leaf : Value) : Prop := leaf.isReadable = true ∨ leaf = .unassigned

theorem written_words : HasFormWords Value.IsWritten :=
  ⟨fun _ _ => .inl rfl, .inl rfl, fun _ => .inl rfl, .inr rfl⟩

/-- Leaves of values that hide no suspension. The parameters and the code of procedures are of a
certain kind. -/
def DataLeaf (param : Param → Prop) (datum : Value → Prop) : Value → Prop
  | .thunk _ => False
  | .primitive p => ∀ name, p.operation ≠ .added name
  | .procedure _ params body _ => (∀ p ∈ params, param p) ∧ ∀ form ∈ body, Every datum form
  | _ => True

namespace DataLeaf

variable {param : Param → Prop} {datum : Value → Prop}

theorem results : HasResults (DataLeaf param datum) :=
  ⟨trivial, fun _ => trivial, fun _ => trivial, fun _ => trivial, fun _ => trivial, fun _ =>
    trivial⟩

theorem of_isWritten {leaf : Value} (written : leaf.IsWritten) : DataLeaf param datum leaf := by
  rcases written with readable | rfl
  · cases leaf <;> trivial
  · trivial

theorem isThunk_of_every {v : Value} (every : Every (DataLeaf param datum) v) :
    v.isThunk = false := by
  cases v with
  | thunk id => exact ((Value.every_of_flat rfl).mp every).elim
  | _ => rfl

end DataLeaf

theorem defaultSupplies_each {name : Value} {supply : Supply}
    (member : (name, supply) ∈ defaultSupplies) :
    ∃ p : Primitive, supply = .value (.primitive p) ∧ ∀ action, p.operation ≠ .added action := by
  obtain ⟨entry, among, same⟩ := List.mem_map.mp member
  obtain ⟨key, operation, rfl, default_⟩ := Policy.defaultPrimitives_each entry among
  cases same
  exact ⟨⟨key, operation, 0⟩, rfl, default_⟩

namespace Accord

variable {a : Accord} {r : Recording}

theorem leads_duringPrimitive {p : Primitive} {given : List Value} {post : Value → Recording → Prop}
    {outcome : Except Failure Value} {after : Store}
    (ran : (p.operation.run a.added given).on r.store = (outcome, after))
    (sound : a.sound ⟨after, (r.applying p given).events⟩)
    (answer : ∀ v, outcome = .ok v → post v ⟨after, (r.applying p given).events⟩) :
    a.Leads (Machine.duringPrimitive p given (effect (p.operation.run a.added given)))
      (Machine.duringPrimitive p given (effect (p.operation.run a.added given))) r post := by
  have here : (Machine.duringPrimitive p given (effect (p.operation.run a.added given)) :
      Recorded Value).on r =
      (outcome, ⟨after, (r.applying p given).events⟩) := by
    have same : (r.applying p given).store = r.store := rfl
    rw [Recorded.on_duringPrimitive, Recorded.on_effect, same, ran]
  -- an application of a primitive is no task
  exact ⟨outcome, _, fun _ => here, here, ⟨.error .recursion, rfl⟩, sound, answer⟩

theorem performs_default (results : HasResults a.leaf) {p : Primitive}
    (default_ : ∀ name, p.operation ≠ .added name) {given : List Value}
    (values : ∀ v ∈ given, a.value v) (sound : ∀ fresh printed,
      a.sound ⟨{ r.store with fresh := fresh, printed := printed }, (r.applying p given).events⟩) :
    a.Leads (Machine.duringPrimitive p given (effect (p.operation.run a.added given)))
      (Machine.duringPrimitive p given (effect (p.operation.run a.added given))) r fun v _ =>
        a.value v := by
  obtain ⟨outcome, fresh, printed, ran, value⟩ :=
    Mild.operation_on results a.added p.operation default_ given values r.store
  exact leads_duringPrimitive ran (sound fresh printed) value

theorem opens_default {setup : Setup} (added : a.added = setup.added)
    (supplied : setup.supplies = defaultSupplies)
    (primitive : ∀ p : Primitive, (∀ name, p.operation ≠ .added name) → a.leaf (.primitive p))
    (nothing : a.sound {}) (globals : ∀ checked, a.sound ⟨emptyGlobals checked, []⟩)
    (prelude : a.Reads setup.prelude) : a.Opens setup := by
  constructor
  · exact added
  · exact nothing
  · exact globals
  · intro name v member
    rw [supplied] at member
    obtain ⟨p, same, default_⟩ := defaultSupplies_each member
    cases same
    exact (Value.every_of_flat rfl).mpr (primitive p default_)
  · intro name action member
    rw [supplied] at member
    obtain ⟨p, same, -⟩ := defaultSupplies_each member
    cases same
  · exact prelude

theorem reads_of_readable (weaker : ∀ leaf : Value, leaf.isReadable = true → a.datum leaf)
    (text : String) :
    a.Reads text := by
  intro forms read form member
  have fine := readAll_fine (fun _ => True) text
  rw [read] at fine
  exact (fine form member).imp weaker

end Accord

end ThunkLisp
