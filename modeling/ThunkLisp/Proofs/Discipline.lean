import ThunkLisp.Proofs.Recording
import ThunkLisp.Proofs.Shown

/-!
Disciplines. A discipline says what it keeps of a recording and of the values in it, and it looks at
the store through a view. Its laws are about single effects; from them it follows that a whole run
keeps the discipline, and that a plain run on the viewed store has the same outcome and ends in the
viewed store.
-/

namespace ThunkLisp

open Machine (effect)
open Value (Every)

structure Discipline where
  sound : Recording → Prop
  /-- what stays so, as a run goes on -/
  later : Recording → Recording → Prop
  later_refl (r : Recording) : later r r
  later_trans (r s t : Recording) : later r s → later s t → later r t
  view : Store → Store
  /-- leaves of code -/
  datum : Value → Prop
  /-- leaves of values -/
  leaf : Recording → Value → Prop
  present : Recording → FrameId → Prop
  /-- the names that code in a frame may use -/
  uses : Recording → FrameId → String → Prop
  /-- suspensions that are arguments, -/
  delayed : Recording → ThunkId → Prop
  /-- and those that variables may be bound to -/
  forcible : Recording → ThunkId → Prop
  /-- what forcing a suspension gives -/
  forced : Recording → ThunkId → Value → Prop
  /-- a `letrec` of these names has begun in the frame, and no frame has been added since -/
  opening : Recording → FrameId → List String → Prop
  /-- what the names of a `letrec` are bound to first -/
  placeholder : Recording → Value → Prop
  /-- leaves of the values that messages show -/
  shown : Value → Prop

namespace Discipline

variable (d : Discipline)

def value (r : Recording) (v : Value) : Prop := Every (d.leaf r) v

def argument (r : Recording) (v : Value) : Prop := d.value r v ∨ ∃ id, v = .thunk id ∧
    d.delayed r id

def code (r : Recording) (frame : FrameId) (code : Value) : Prop :=
  Code (d.uses r frame) d.datum code

def Answers {α : Type} (post : α → Recording → Prop) : Except Failure α → Recording → Prop
  | .ok v, after => post v after
  | .error failure, _ => failure.Shows d.shown

/-- A recorded computation keeps the discipline, ends the tasks that it begins and gives what is
asked for, and the plain one does the same to the viewed store. -/
def Keeps {α : Type} (x : Recorded α) (y : Run α) (r : Recording) (post : α → Recording → Prop) :
    Prop :=
  ∃ outcome after, x.on r = (outcome, after) ∧
    y.on (d.view r.store) = (outcome, d.view after.store) ∧
      pending after.events = pending r.events ∧
    d.sound after ∧ d.later r after ∧ d.Answers post outcome after

def KeepsEffect {α : Type} (x : Run α) (r : Recording) (post : α → Recording → Prop) : Prop :=
  d.Keeps (effect x) (effect x) r post

/-- Besides code, a mark may be evaluated. -/
def ready (r : Recording) : Task → Prop
  | .evaluate code frame => d.present r frame ∧ (d.code r frame code ∨ code = mark)
  | .force id => d.forcible r id

def done (r : Recording) : Task → Value → Recording → Prop
  | .evaluate code frame, v, s =>
      (d.code r frame code → d.value s v) ∧ (code = mark → v = .unassigned)
  | .force id, v, s => d.forced s id v

def InnerKeeps (inner : Inner Recorded) (plain : Inner Run) : Prop :=
  ∀ r task, d.sound r → d.ready r task → d.Keeps (inner task) (plain task) r (d.done r task)

def StackKeeps (stack : Stack Recorded) (plain : Stack Run) : Prop :=
  ∀ calls, d.InnerKeeps (stack calls) (plain calls)

theorem StackKeeps.above {d : Discipline} {stack : Stack Recorded} {plain : Stack Run}
    (keeps : d.StackKeeps stack plain) (calls : Nat) : d.InnerKeeps (stack.above calls)
    (plain.above calls) :=
  fun r task => keeps (calls + task.calls) r task

structure Lawful (added : AddedActions) (strategy : Strategy) : Prop where
  basics : HasBasics d.datum
  leaf_of_datum (r : Recording) (v : Value) : d.datum v → d.leaf r v
  shown_of_leaf (r : Recording) (v : Value) : d.leaf r v → d.shown v
  leaf_later (r s : Recording) (v : Value) : d.later r s → d.leaf r v → d.leaf s v
  present_later (r s : Recording) (frame : FrameId) : d.later r s → d.present r frame →
    d.present s frame
  uses_later (r s : Recording) (frame : FrameId) (name : String) :
    d.later r s → d.present r frame → d.uses r frame name → d.uses s frame name
  delayed_later (r s : Recording) (id : ThunkId) : d.later r s → d.delayed r id → d.delayed s id
  placeholder_later (r s : Recording) (v : Value) : d.later r s → d.placeholder r v →
    d.placeholder s v
  opening_later (r s : Recording) (frame : FrameId) (names : List String) : d.later r s →
    s.store.frames = r.store.frames → (∀ task ∈ pending r.events, task ∈ pending s.events) →
      d.opening r frame names → d.opening s frame names
  thunk_leaf (r : Recording) (id : ThunkId) : d.leaf r (.thunk id) →
    d.forcible r id ∧ ∀ s v, d.forced s id v → d.value s v
  procedure_leaf (r : Recording) (identity : Nat) (params : List Param) (body : List Value)
    (frame : FrameId) : d.leaf r (.procedure identity params body frame) ↔
      d.present r frame ∧ ∀ form ∈ body, d.code r frame form
  placeholder_unassigned (r : Recording) : d.placeholder r .unassigned
  variable_keeps (inner : Inner Recorded) (plain : Inner Run) (r : Recording) (name : String)
    (frame : FrameId) : d.InnerKeeps inner plain → d.sound r → d.present r frame →
      d.uses r frame name →
      d.Keeps (Machine.duringTask (.evaluate (.sym name) frame)
        (Evaluator.evaluateVariable inner name frame))
        (Evaluator.evaluateVariable plain name frame) r fun v s => d.value s v
  force_keeps (inner : Inner Recorded) (plain : Inner Run) (r : Recording) (id : ThunkId) :
    d.InnerKeeps inner plain → d.sound r → d.forcible r id →
      d.Keeps (Machine.duringTask (.force id) (inner.force id)) (plain.force id) r fun v s =>
        d.forced s id v
  assign_keeps (r : Recording) (name : String) (v : Value) (frame : FrameId) : d.sound r →
    d.present r frame → d.uses r frame name → d.value r v →
      d.KeepsEffect (Scope.assign frame (.sym name) v) r fun v s => d.value s v
  define_keeps (r : Recording) (name : String) (v : Value) (frame : FrameId) : d.sound r →
    d.present r frame → d.uses r frame name → d.value r v →
      d.KeepsEffect (Scope.define frame (.sym name) v) r fun v s => d.value s v
  identity_keeps (r : Recording) : d.sound r →
    d.KeepsEffect (Run.make Store.takeIdentity) r fun _ s => s.store.frames = r.store.frames
  suspend_keeps (r : Recording) (code : Value) (frame : FrameId) (kept : Bool) : d.sound r →
    d.present r frame → d.code r frame code →
      d.KeepsEffect (suspend code frame kept) r fun v s => ∃ id, v = .thunk id ∧ d.delayed s id
  suspend_mark_keeps (r : Recording) (frame : FrameId) : strategy = .lazy → d.sound r →
    d.present r frame → d.KeepsEffect (suspend mark frame false) r fun v s =>
      d.placeholder s v ∧ s.store.frames = r.store.frames
  enter_keeps (r : Recording) (params : List Param) (frame : FrameId) (given : List Value) :
    d.sound r → d.present r frame → (∀ v ∈ given, d.argument r v) →
      d.KeepsEffect (bindParams params frame given) r fun inside s =>
        d.present s inside ∧ ∀ name, d.uses r frame name → d.uses s inside name
  open_keeps (r : Recording) (params : List Param) (frame : FrameId) (given : List Value) :
    d.sound r → d.present r frame → d.opening r frame (params.map Param.name) →
      (∀ v ∈ given, d.placeholder r v) →
      d.KeepsEffect (bindParams params frame given) r fun inside s =>
        d.present s inside ∧ ∀ name, d.uses r frame name → d.uses s inside name
  perform_keeps (r : Recording) (p : Primitive) (given : List Value) : d.sound r →
    d.leaf r (.primitive p) → (∀ v ∈ given, d.value r v) →
      d.Keeps (Machine.duringPrimitive p given (effect (p.operation.run added given)))
        (p.operation.run added given) r fun v s => d.value s v
  begins (r : Recording) (code : Value) (frame : FrameId) : d.sound r → d.present r frame →
    d.sound (r.beginning (.evaluate code frame)) ∧ d.later r (r.beginning (.evaluate code frame))
  ends (r : Recording) (code : Value) (frame : FrameId) (before : Store)
    (outcome : Except Failure Value) : d.sound r →
      (∀ name, code ≠ .sym name) →
      (∀ v, outcome = .ok v → d.value r v ∨ code = mark ∧ v = .unassigned) →
    d.sound (r.ending (.evaluate code frame) before outcome) ∧
      d.later r (r.ending (.evaluate code frame) before outcome)
  letrec_begins (r : Recording) (entries : List (String × Value)) (forms : List Value)
    (frame : FrameId) : d.sound r → d.present r frame →
      d.opening (r.beginning (.evaluate (Derived.letrecForm entries forms) frame)) frame
        (entries.map Prod.fst)

/-! Computations that keep a discipline. -/

section Computations

variable {d : Discipline} {α β : Type} {r : Recording}

theorem keeps_pure {v : α} {post : α → Recording → Prop} (sound : d.sound r)
    (holds : post v r) : d.Keeps (pure v) (pure v) r post :=
  ⟨.ok v, r, rfl, rfl, rfl, sound, d.later_refl r, holds⟩

theorem keeps_throw {failure : Failure} {post : α → Recording → Prop} (sound : d.sound r)
    (shows_ : failure.Shows d.shown) : d.KeepsEffect (throw failure) r post :=
  ⟨.error failure, r, rfl, rfl, rfl, sound, d.later_refl r, shows_⟩

theorem Keeps.imp {x : Recorded α} {y : Run α} {post stronger : α → Recording → Prop}
    (keeps : d.Keeps x y r stronger) (weaker : ∀ v s, d.later r s → stronger v s → post v s) :
    d.Keeps x y r post := by
  obtain ⟨outcome, after, ran, viewed, same, sound, later, answer⟩ := keeps
  refine ⟨outcome, after, ran, viewed, same, sound, later, ?_⟩
  cases outcome with
  | ok v => exact weaker v after later answer
  | error failure => exact answer

theorem Keeps.pending {x : Recorded α} {y : Run α} {post : α → Recording → Prop}
    (keeps : d.Keeps x y r post) :
    d.Keeps x y r fun v s => post v s ∧ pending s.events = pending r.events := by
  obtain ⟨outcome, after, ran, viewed, same, sound, later, answer⟩ := keeps
  refine ⟨outcome, after, ran, viewed, same, sound, later, ?_⟩
  cases outcome with
  | ok v => exact ⟨answer, same⟩
  | error failure => exact answer

theorem Keeps.bind {x : Recorded α} {y : Run α} {next : α → Recorded β} {following : α → Run β}
    {between : α → Recording → Prop} {post : β → Recording → Prop}
    (keeps : d.Keeps x y r between)
    (continues : ∀ v s, d.sound s → d.later r s → between v s →
      d.Keeps (next v) (following v) s post) :
    d.Keeps (x >>= next) (y >>= following) r post := by
  obtain ⟨outcome, after, ran, viewed, same, sound, later, answer⟩ := keeps
  cases outcome with
  | error failure =>
      refine ⟨.error failure, after, ?_, ?_, same, sound, later, answer⟩
      · simp [Recorded.on_bind, ran]
      · simp [Run.on_bind, viewed]
  | ok v =>
      obtain ⟨result, final, ran', viewed', same', sound', later', answer'⟩ :=
        continues v after sound later answer
      refine ⟨result, final, ?_, ?_, same'.trans same, sound',
        d.later_trans r after final later later', answer'⟩
      · simp [Recorded.on_bind, ran, ran']
      · simp [Run.on_bind, viewed, viewed']

theorem KeepsEffect.bind {x : Run α} {next : α → Run β} {between : α → Recording → Prop}
    {post : β → Recording → Prop} (keeps : d.KeepsEffect x r between)
    (continues : ∀ v s, d.sound s → d.later r s → between v s → d.KeepsEffect (next v) s post) :
    d.KeepsEffect (x >>= next) r post := by
  have whole := Keeps.bind keeps continues
  rwa [← Recorded.effect_bind] at whole

theorem keeps_ofExcept {outcome : Except Failure α} {post : α → Recording → Prop}
    (sound : d.sound r) (holds : ∀ v, outcome = .ok v → post v r)
    (shows_ : ∀ failure, outcome = .error failure → failure.Shows d.shown) :
    d.KeepsEffect (Run.ofExcept outcome) r post := by
  cases outcome with
  | ok v => exact keeps_pure sound (holds v rfl)
  | error failure => exact keeps_throw sound (shows_ failure rfl)

theorem keeps_effect {x : Run α} {post : α → Recording → Prop} (outcome : Except Failure α)
    (after : Store) (ran : x.on r.store = (outcome, after))
    (viewed : x.on (d.view r.store) = (outcome, d.view after)) (sound : d.sound ⟨after, r.events⟩)
    (later : d.later r ⟨after, r.events⟩)
    (answer : d.Answers post outcome ⟨after, r.events⟩) : d.KeepsEffect x r post := by
  refine ⟨outcome, ⟨after, r.events⟩, ?_, viewed, rfl, sound, later, answer⟩
  simp [Recorded.on_effect, ran]

theorem KeepsEffect.congr {x y : Run α} {post : α → Recording → Prop}
    (keeps : d.KeepsEffect y r post) (same : x.on r.store = y.on r.store)
    (viewed : x.on (d.view r.store) = y.on (d.view r.store)) :
    d.KeepsEffect x r post := by
  obtain ⟨outcome, after, ran, ran', rest⟩ := keeps
  refine ⟨outcome, after, ?_, viewed.trans ran', rest⟩
  rw [← ran, Recorded.on_effect, Recorded.on_effect, same]

theorem InnerKeeps.concrete {inner : Inner Recorded} {plain : Inner Run}
    (keeps : d.InnerKeeps inner plain) (thunks : ∀ r id, d.leaf r (.thunk id) → d.forcible r id ∧
    ∀ s v, d.forced s id v → d.value s v)
    {v : Value} (sound : d.sound r) (value : d.value r v) :
    d.Keeps (inner.concrete v) (plain.concrete v) r fun v s => d.value s v := by
  cases v with
  | thunk id =>
      have leaf := thunks r id ((Value.every_of_flat rfl).mp value)
      exact (keeps r (.force id) sound leaf.1).imp fun v s _ forced => leaf.2 s v forced
  | _ => exact keeps_pure sound value

end Computations

/-! Values, code and their laws. -/

namespace Lawful

variable {d : Discipline} {added : AddedActions} {strategy : Strategy}
  (lawful : d.Lawful added strategy)

include lawful

theorem value_later {r s : Recording} {v : Value} (later : d.later r s) (value : d.value r v) :
    d.value s v :=
  value.imp fun leaf holds => lawful.leaf_later r s leaf later holds

theorem argument_later {r s : Recording} {v : Value} (later : d.later r s)
    (argument : d.argument r v) :
    d.argument s v := by
  rcases argument with value | ⟨id, rfl, delayed⟩
  · exact .inl (lawful.value_later later value)
  · exact .inr ⟨id, rfl, lawful.delayed_later r s id later delayed⟩

theorem code_later {r s : Recording} {frame : FrameId} {code : Value} (later : d.later r s)
    (present : d.present r frame) (whole : d.code r frame code) : d.code s frame code :=
  whole.imp fun name used => lawful.uses_later r s frame name later present used

theorem value_of_data {r : Recording} {v : Value} (data : Every d.datum v) : d.value r v :=
  data.imp fun leaf datum => lawful.leaf_of_datum r leaf datum

theorem value_of_code {r : Recording} {frame : FrameId} {code : Value}
    (whole : d.code r frame code) :
    d.value r code :=
  lawful.value_of_data (whole.data lawful.basics)

theorem value_nil (r : Recording) : d.value r .nil :=
  lawful.value_of_data ((Value.every_of_flat rfl).mpr lawful.basics.nil)

theorem shown_of_value {r : Recording} {v : Value} (value : d.value r v) : Every d.shown v :=
  value.imp fun leaf holds => lawful.shown_of_leaf r leaf holds

theorem shown_of_data {v : Value} (data : Every d.datum v) : Every d.shown v :=
  lawful.shown_of_value (lawful.value_of_data (r := {}) data)

theorem shown_of_code {r : Recording} {frame : FrameId} {code : Value}
    (whole : d.code r frame code) :
    Every d.shown code :=
  lawful.shown_of_value (lawful.value_of_code whole)

end Lawful

end Discipline

end ThunkLisp
