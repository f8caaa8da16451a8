import ThunkLisp.Proofs.Effects
import ThunkLisp.Proofs.ExpandedLeaves
import ThunkLisp.Proofs.Recording
import ThunkLisp.Proofs.Shown

/-!
Accords. Two evaluators that differ in their strategy alone take the same steps as long as whatever
they apply asks both for the same arguments, and as long as the stack has room for the second, whose
strategy may make more calls. An accord says which leaves there are in code and in values and what
is kept of a recording; its laws are about single effects, and a law of calls may use which
application is under way. Where the strategies are equal, an accord is a law of the runs of one
evaluator.
-/

namespace ThunkLisp

open Machine (effect)
open Value (Every)

/-! The tasks under way. -/

/-- The innermost task takes the first value that comes up inside it. -/
def answered (outcome : Except Failure Value) (tasks : List (Task × Option Value)) :
    List (Task × Option Value) :=
  match outcome, tasks with
  | .ok v, (task, none) :: outer => (task, some v) :: outer
  | _, tasks => tasks

/-- The tasks that have begun and not ended, the innermost first, each with the value of the first
task that was done inside it. For an application this is what is applied. -/
def underWay : List Event → List (Task × Option Value)
  | [] => []
  | .began task _ :: older => (task, none) :: underWay older
  | .ended _ _ outcome _ :: older => answered outcome (underWay older).tail
  | .applied .. :: older => underWay older

theorem answered_cons (outcome : Except Failure Value) (task : Task) (first : Option Value)
    (outer : List (Task × Option Value)) :
    ∃ first', answered outcome ((task, first) :: outer) = (task, first') :: outer := by
  cases outcome <;> cases first <;> exact ⟨_, rfl⟩

theorem answered_some (outcome : Except Failure Value) (task : Task) (v : Value)
    (outer : List (Task × Option Value)) :
    answered outcome ((task, some v) :: outer) = (task, some v) :: outer := by
  cases outcome <;> rfl

theorem answered_error (failure : Failure) (tasks : List (Task × Option Value)) :
    answered (.error failure) tasks = tasks := rfl

theorem answered_answered (first second : Except Failure Value)
    (tasks : List (Task × Option Value)) :
    ∃ outcome, answered second (answered first tasks) = answered outcome tasks := by
  match first, tasks with
  | .ok v, (task, none) :: outer => exact ⟨.ok v, answered_some second task v outer⟩
  | .ok v, (task, some w) :: outer => exact ⟨second, rfl⟩
  | .ok v, [] => exact ⟨second, rfl⟩
  | .error failure, tasks => exact ⟨second, rfl⟩

/-- The tasks under way stay so, but the innermost may have got its first value. -/
def Recording.Follows (r s : Recording) : Prop :=
  ∃ outcome, underWay s.events = answered outcome (underWay r.events)

namespace Recording.Follows

theorem of_events {r s : Recording} (same : s.events = r.events) : r.Follows s :=
  ⟨.error .recursion, by rw [same, answered_error]⟩

theorem trans {r s t : Recording} (first : r.Follows s) (second : s.Follows t) : r.Follows t := by
  obtain ⟨outcome, same⟩ := first
  obtain ⟨outcome', same'⟩ := second
  rw [same] at same'
  obtain ⟨whole, both⟩ := answered_answered outcome outcome' (underWay r.events)
  exact ⟨whole, same'.trans both⟩

theorem underWay_eq {r s : Recording} (follows : r.Follows s) {task : Task} {v : Value}
    {outer : List (Task × Option Value)} (here : underWay r.events = (task, some v) :: outer) :
    underWay s.events = (task, some v) :: outer := by
  obtain ⟨outcome, same⟩ := follows
  rw [same, here, answered_some]

theorem underWay_ending {r s : Recording} {task : Task} (follows : (r.beginning task).Follows s)
    (before : Store) (outcome : Except Failure Value) :
    underWay (s.ending task before outcome).events = answered outcome (underWay r.events) := by
  obtain ⟨inside, same⟩ := follows
  obtain ⟨first, top⟩ := answered_cons inside task none (underWay r.events)
  have began : underWay (r.beginning task).events = (task, none) :: underWay r.events := rfl
  have ended : underWay (s.ending task before outcome).events =
    answered outcome (underWay s.events).tail := rfl
  rw [ended, same, began, top, List.tail_cons]

end Recording.Follows

structure Accord where
  added : AddedActions
  strategy : Strategy
  other : Strategy
  /-- leaves of code -/
  datum : Value → Prop
  /-- leaves of values -/
  leaf : Value → Prop
  sound : Recording → Prop

namespace Accord

variable (a : Accord)

def code (form : Value) : Prop := Every a.datum form

def value (v : Value) : Prop := Every a.leaf v

/-- A value, or a suspension that a strategy has made of an operand. -/
def argument (v : Value) : Prop := a.value v ∨ a.strategy ≠ .strict ∧ v.isThunk = true

def ready : Task → Prop
  | .evaluate form _ => a.code form
  | .force _ => True

/-- What comes of a task. A use of a variable and a force never give a suspension. -/
def done : Task → Value → Prop
  | .evaluate form _, v => a.value v ∧ ((∃ name, form = .sym name) → v.isThunk = false)
  | .force _, v => a.value v ∧ v.isThunk = false

/-- What the second computation does is sound and gives what is asked for, and the first does the
same unless the second has no room left. -/
def Leads {α : Type} (x y : Recorded α) (r : Recording) (post : α → Recording → Prop) : Prop :=
  ∃ outcome after, (outcome ≠ .error .recursion → x.on r = (outcome, after)) ∧
    y.on r = (outcome, after) ∧
    r.Follows after ∧ a.sound after ∧ ∀ v, outcome = .ok v → post v after

def LeadsEffect {α : Type} (x : Run α) (r : Recording) (post : α → Recording → Prop) : Prop :=
  a.Leads (effect x) (effect x) r post

/-- Both ways to do the tasks inside a task do the same. -/
def InnerLeads (inner inner' : Inner Recorded) : Prop :=
  ∀ r task, a.sound r → a.ready task → a.Leads (inner task) (inner' task) r fun v s =>
    a.done task v ∧ underWay s.events = answered (.ok v) (underWay r.events)

/-- So do they after calls, of which the second may have made more. -/
def StackLeads (stack stack' : Stack Recorded) : Prop :=
  ∀ calls calls', calls ≤ calls' → a.InnerLeads (stack calls) (stack' calls')

theorem StackLeads.above {a : Accord} {stack stack' : Stack Recorded}
    (leads : a.StackLeads stack stack') {calls calls' : Nat} (le : calls ≤ calls') :
    a.InnerLeads (stack.above calls) (stack'.above calls') :=
  fun r task => leads _ _ (Nat.add_le_add_right le task.calls) r task

structure Lawful : Prop where
  words : HasFormWords a.datum
  leaf_of_datum (v : Value) : a.datum v → a.leaf v
  body (identity : Nat) (params : List Param) (body : List Value) (home : FrameId) :
    a.leaf (.procedure identity params body home) → ∀ form ∈ body, a.code form
  procedure (identity : Nat) (spec : Value) (params : List Param) (body : List Value)
    (home : FrameId) :
    parseParams spec = .ok params → a.code spec → (∀ form ∈ body, a.code form) →
      a.leaf (.procedure identity params body home)
  agrees (inner : Inner Recorded) (fn : Value) (frame : FrameId) (operands : List Value) :
    a.value fn →
    a.other.arguments inner fn frame operands = a.strategy.arguments inner fn frame operands
  shallower (fn : Value) (operands : List Value) : a.strategy.calls fn operands ≤
    a.other.calls fn operands
  bound (r : Recording) (frame : FrameId) (name : String) (v : Value) : a.sound r →
    r.store.bound? frame name = some v → a.argument v
  waiting (r : Recording) (id : ThunkId) (form : Value) (frame : FrameId) (kept : Bool) :
    a.sound r →
    r.store.thunk id = .waiting form frame kept → a.code form
  settled (r : Recording) (id : ThunkId) (v : Value) : a.sound r → r.store.thunk id = .settled v →
    a.value v ∧ v.isThunk = false
  begins (r : Recording) (task : Task) : a.sound r → a.ready task → a.sound (r.beginning task)
  ends (r : Recording) (task : Task) (before : Store) (outcome : Except Failure Value) : a.sound r →
    (∀ v, outcome = .ok v → a.done task v) → a.sound (r.ending task before outcome)
  binds (r : Recording) (frame : FrameId) (name : String) (v : Value) : a.sound r → a.value v →
    a.sound ⟨r.store.bind frame (.sym name) v, r.events⟩
  numbers (r : Recording) : a.sound r → a.sound ⟨r.store.takeIdentity.2, r.events⟩
  suspends (r : Recording) (form : Value) (frame : FrameId) (kept : Bool) :
    a.strategy ≠ .strict → a.sound r →
    a.code form → a.sound ⟨(r.store.addThunk form frame kept).2, r.events⟩
  settles (r : Recording) (id : ThunkId) (v : Value) : a.sound r → a.value v → v.isThunk = false →
    a.sound ⟨r.store.settle id v, r.events⟩
  performs (r : Recording) (p : Primitive) (given : List Value) :
    a.sound r → a.leaf (.primitive p) →
    (∀ v ∈ given, a.value v ∧ v.isThunk = false) →
    a.Leads (Machine.duringPrimitive p given (effect (p.operation.run a.added given)))
      (Machine.duringPrimitive p given (effect (p.operation.run a.added given))) r fun v _ =>
        a.value v
  /-- a procedure is called by the application that is under way -/
  calls (r : Recording) (head : Value) (operands : List Value) (caller : FrameId)
    (identity : Nat) (params : List Param) (body : List Value) (home : FrameId)
    (outer : List (Task × Option Value)) (given : List Value) : a.sound r →
    (∀ name, head = .sym name → FormTable.full.find? name = none) →
    underWay r.events =
      (.evaluate (.list (head :: operands)) caller, some (.procedure identity params body home)) ::
        outer →
    given.length = params.length → (∀ v ∈ given, a.argument v) →
    a.sound ⟨(r.store.extend home ((params.map fun p => .sym p.name).zip given)).2, r.events⟩

section Computations

variable {a} {α β : Type} {r : Recording}

theorem leads_pure {v : α} {post : α → Recording → Prop} (sound : a.sound r) (holds : post v r) :
    a.Leads (pure v) (pure v) r post := by
  refine ⟨.ok v, r, fun _ => rfl, rfl, .of_events rfl, sound, ?_⟩
  rintro w ⟨⟩
  exact holds

theorem leads_throw {failure : Failure} {post : α → Recording → Prop} (sound : a.sound r) :
    a.LeadsEffect (throw failure) r post :=
  ⟨.error failure, r, fun _ => rfl, rfl, .of_events rfl, sound, fun _ same => nomatch same⟩

theorem leads_recursion {x : Recorded α} {post : α → Recording → Prop} (sound : a.sound r) :
    a.Leads x (effect (throw .recursion)) r post :=
  ⟨.error .recursion, r, fun within => absurd rfl within, rfl, .of_events rfl, sound, fun _ same =>
    nomatch same⟩

theorem Leads.imp {x y : Recorded α} {post stronger : α → Recording → Prop}
    (leads : a.Leads x y r stronger) (weaker : ∀ v s, stronger v s → post v s) :
    a.Leads x y r post := by
  obtain ⟨outcome, after, ran, ran', follows, sound, answer⟩ := leads
  exact ⟨outcome, after, ran, ran', follows, sound, fun v same => weaker v after (answer v same)⟩

theorem Leads.bind {x y : Recorded α} {next following : α → Recorded β}
    {between : α → Recording → Prop} {post : β → Recording → Prop} (leads : a.Leads x y r between)
    (continues : ∀ v s, a.sound s → r.Follows s → between v s →
    a.Leads (next v) (following v) s post) :
    a.Leads (x >>= next) (y >>= following) r post := by
  obtain ⟨outcome, after, ran, ran', follows, sound, answer⟩ := leads
  cases outcome with
  | error failure =>
      refine ⟨.error failure, after, fun within => ?_, ?_, follows, sound, fun _ same =>
        nomatch same⟩
      · have before := ran (by rintro ⟨⟩; exact within rfl)
        simp [Recorded.on_bind, before]
      · simp [Recorded.on_bind, ran']
  | ok v =>
      obtain ⟨result, final, goes, goes', follows', sound', answer'⟩ :=
        continues v after sound follows (answer v rfl)
      refine ⟨result, final, fun within => ?_, ?_, follows.trans follows', sound', answer'⟩
      · simp [Recorded.on_bind, ran (by rintro ⟨⟩), goes within]
      · simp [Recorded.on_bind, ran', goes']

theorem LeadsEffect.bind {x : Run α} {next : α → Run β} {between : α → Recording → Prop}
    {post : β → Recording → Prop} (leads : a.LeadsEffect x r between)
    (continues : ∀ v s, a.sound s → r.Follows s → between v s → a.LeadsEffect (next v) s post) :
    a.LeadsEffect (x >>= next) r post := by
  have whole := Leads.bind leads continues
  rwa [← Recorded.effect_bind] at whole

theorem leads_ofExcept {outcome : Except Failure α} {post : α → Recording → Prop}
    (sound : a.sound r) (holds : ∀ v, outcome = .ok v → post v r) :
    a.LeadsEffect (Run.ofExcept outcome) r post := by
  cases outcome with
  | ok v => exact leads_pure sound (holds v rfl)
  | error failure => exact leads_throw sound

theorem leads_effect {x : Run α} {post : α → Recording → Prop} {outcome : Except Failure α}
    {after : Store} (ran : x.on r.store = (outcome, after)) (sound : a.sound ⟨after, r.events⟩)
    (answer : ∀ v, outcome = .ok v → post v ⟨after, r.events⟩) : a.LeadsEffect x r post := by
  have here : (effect x : Recorded α).on r = (outcome, ⟨after, r.events⟩) := by
    rw [Recorded.on_effect, ran]
  exact ⟨outcome, ⟨after, r.events⟩, fun _ => here, here, .of_events rfl, sound, answer⟩

end Computations

namespace Lawful

variable {a} (lawful : a.Lawful)

include lawful

theorem value_of_code {form : Value} (whole : a.code form) : a.value form :=
  whole.imp lawful.leaf_of_datum

theorem value_sym {name : String} (whole : a.code (.sym name)) : a.value (.sym name) :=
  lawful.value_of_code whole

theorem value_nil : a.value .nil := lawful.value_of_code
    ((Value.every_of_flat rfl).mpr lawful.words.nil)

end Lawful

end Accord

end ThunkLisp
