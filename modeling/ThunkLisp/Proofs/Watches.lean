import ThunkLisp.Proofs.Couplings

/-!
Watched runs. A watch says what is kept of a recording, and how one recording may come out of
another; its laws are about the store and the events alone. It couples recorded runs with plain
ones: the events are beside the run, which without them has the same outcome and leaves the same
store.
-/

namespace ThunkLisp

open Machine (effect)

def Event.begun? : Event → Option Value
  | .began (.evaluate code _) _ => some code
  | _ => none

/-- The task gives the name a value in the frame that owns it. -/
def Task.Stores (forms : FormTable) (store : Store) (owner : FrameId) (name : String)
    (task : Task) : Prop :=
  (∃ frame, task.Assigns forms frame name ∧ store.find? frame (.sym name) = some owner) ∨
    task.Defines forms owner name

structure Watch where
  sound : Recording → Prop
  /-- what holds of a recording and one that comes after it -/
  later : Recording → Recording → Prop
  code : Value → Prop
  value : Value → Prop
  fails : Failure → Prop

namespace Watch

variable (w : Watch)

def Answers {α : Type} (post : α → Prop) : Except Failure α → Prop
  | .ok v => post v
  | .error failure => w.fails failure

/-- The plain computation does what the recorded one does, and the watch is kept. -/
def Keeps {α : Type} (post : α → Prop) (x : Recorded α) (y : Run α) (r : Recording) : Prop :=
  ∃ outcome after, x.on r = (outcome, after) ∧ y.on r.store = (outcome, after.store) ∧
    w.sound after ∧
    w.later r after ∧ w.Answers post outcome

def Moves (r : Recording) (store : Store) : Prop := w.sound ⟨store, r.events⟩ ∧
    w.later r ⟨store, r.events⟩

/-- The computation does the task, and the watch is kept. That a name gets a value is not said of it
yet, as the task is about to end. -/
def Does (forms : FormTable) (task : Task) (x : Recorded Value) (y : Run Value) (r : Recording) :
    Prop :=
  w.Keeps w.value x y r ∨ ∃ (s : Recording) (owner : FrameId) (name : String) (v : Value),
    x.on r = (.ok (.sym name), ⟨s.store.bind owner (.sym name) v, s.events⟩) ∧
      y.on r.store = (.ok (.sym name), s.store.bind owner (.sym name) v) ∧ w.sound s ∧ w.later r s ∧
        w.value v ∧
        task.Stores forms s.store owner name

def coupling (forms : FormTable) : Coupling Recorded Run where
  holds post x y := ∀ r, w.sound r → w.Keeps post x y r
  does task x y := ∀ r, w.sound r → w.Does forms task x y r
  code := w.code
  value := w.value
  fails := w.fails

structure Lawful (evaluator : Evaluator) : Prop extends
    CodeLaws evaluator.forms w.code w.value w.fails where
  refl (r : Recording) : w.later r r
  trans (r s t : Recording) : w.later r s → w.later s t → w.later r t
  thunk (id : ThunkId) : w.value (.thunk id)
  bound (r : Recording) (frame : FrameId) (name : String) (v : Value) : w.sound r →
    r.store.bound? frame name = some v → w.value v
  waiting (r : Recording) (id : ThunkId) (code : Value) (frame : FrameId) (kept : Bool) :
    w.sound r →
    r.store.thunk id = .waiting code frame kept → w.code code
  settled (r : Recording) (id : ThunkId) (v : Value) : w.sound r → r.store.thunk id = .settled v →
    w.value v
  numbers (r : Recording) : w.sound r → w.Moves r r.store.takeIdentity.2
  suspends (r : Recording) (code : Value) (frame : FrameId) (kept : Bool) :
    w.sound r → w.code code →
    w.Moves r (r.store.addThunk code frame kept).2
  extends_ (r : Recording) (home : FrameId) (bindings : Bindings) : w.sound r →
    (∀ entry ∈ bindings, w.value entry.2) → w.Moves r (r.store.extend home bindings).2
  /-- a kept suspension gets its value after its code has been evaluated -/
  settles (r s : Recording) (id : ThunkId) (code : Value) (frame : FrameId) (v : Value) :
    r.store.thunk id = .waiting code frame true → w.later r s → w.sound s → w.value v →
      w.Moves s (s.store.settle id v)
  performs (r : Recording) (p : Primitive) (given : List Value) :
    w.sound r → w.value (.primitive p) →
    (∀ v ∈ given, w.value v) →
      w.Keeps w.value (Machine.duringPrimitive p given
        (effect (p.operation.run evaluator.added given)))
        (p.operation.run evaluator.added given) r
  begins (r : Recording) (task : Task) : w.sound r → (w.coupling evaluator.forms).ready task →
    w.sound (r.beginning task) ∧ w.later r (r.beginning task)
  ends (limit : Nat) (task : Task) (r s : Recording) (outcome : Except Failure Value) : w.sound r →
    w.later (r.beginning task) s → w.sound s →
      (evaluator.run limit task : Run Value).on r.store = (outcome, s.store) →
        w.Answers w.value outcome →
        w.sound (s.ending task r.store outcome) ∧ w.later s (s.ending task r.store outcome)
  /-- a task that gives a name a value has then ended -/
  stores (limit : Nat) (task : Task) (r s : Recording) (owner : FrameId) (name : String)
    (v : Value) :
    let bound : Recording := ⟨s.store.bind owner (.sym name) v, s.events⟩
    w.sound r → w.later (r.beginning task) s → w.sound s →
      (evaluator.run limit task : Run Value).on r.store = (.ok (.sym name), bound.store) →
        w.value v →
        task.Stores evaluator.forms s.store owner name →
          w.sound (bound.ending task r.store (.ok (.sym name))) ∧
            w.later s (bound.ending task r.store (.ok (.sym name)))

section Computations

variable {w} {evaluator : Evaluator} {α β : Type} {r : Recording} {post : α → Prop}

theorem keeps_effect {x : Run α} {outcome : Except Failure α} {after : Store}
    (ran : x.on r.store = (outcome, after)) (moves : w.Moves r after)
    (answers : w.Answers post outcome) :
    w.Keeps post (effect x) (effect x) r := by
  refine ⟨outcome, ⟨after, r.events⟩, ?_, ran, moves.1, moves.2, answers⟩
  rw [Recorded.on_effect, ran]

theorem keeps_primitive {p : Primitive} {given : List Value} {x : Run Value} {post : Value → Prop}
    {outcome : Except Failure Value} {after : Store} (ran : x.on r.store = (outcome, after))
    (sound : w.sound ⟨after, (r.applying p given).events⟩)
    (later : w.later r ⟨after, (r.applying p given).events⟩) (answers : w.Answers post outcome) :
    w.Keeps post (Machine.duringPrimitive p given (effect x)) x r := by
  refine ⟨outcome, ⟨after, (r.applying p given).events⟩, ?_, ran, sound, later, answers⟩
  have here : x.on (r.applying p given).store = (outcome, after) := ran
  rw [Recorded.on_duringPrimitive, Recorded.on_effect, here]

namespace Lawful

variable (lawful : w.Lawful evaluator)

include lawful

theorem stays (sound : w.sound r) : w.Moves r r.store := ⟨sound, lawful.refl r⟩

theorem keeps_pure {v : α} (sound : w.sound r) (holds : post v) :
    w.Keeps post (pure v) (pure v) r :=
  ⟨.ok v, r, rfl, rfl, sound, lawful.refl r, holds⟩

theorem keeps_bind {between : α → Prop} {post : β → Prop} {x : Recorded α} {y : Run α}
    {next : α → Recorded β} {following : α → Run β} (first : w.Keeps between x y r)
    (behind : ∀ v s, w.sound s → w.later r s → between v → w.Keeps post (next v) (following v) s) :
    w.Keeps post (x >>= next) (y >>= following) r := by
  obtain ⟨outcome, s, ran, ran', sound, later, answers⟩ := first
  cases outcome with
  | error failure =>
      refine ⟨.error failure, s, ?_, ?_, sound, later, answers⟩
      · simp [Recorded.on_bind, ran]
      · simp [Run.on_bind, ran']
  | ok v =>
      obtain ⟨result, t, goes, goes', sound', later', answers'⟩ := behind v s sound later answers
      refine ⟨result, t, ?_, ?_, sound', lawful.trans r s t later later', answers'⟩
      · simp [Recorded.on_bind, ran, goes]
      · simp [Run.on_bind, ran', goes']

theorem keeps_read (view : Store → α) (sound : w.sound r) :
    w.Keeps (fun v => v = view r.store) (effect (Run.read view)) (effect (Run.read view)) r :=
  keeps_effect (Run.on_read view r.store) (lawful.stays sound) rfl

/-! Single effects. -/

theorem lookup_keeps (frame : FrameId) (name : String) (sound : w.sound r) :
    w.Keeps w.value (effect (Scope.lookup frame (.sym name)))
      (effect (Scope.lookup frame (.sym name))) r := by
  have ran := Scope.on_lookup frame name r.store
  cases found : r.store.bound? frame name with
  | none =>
      rw [found] at ran
      exact keeps_effect ran (lawful.stays sound) (lawful.usual (by rintro _ ⟨⟩))
  | some v =>
      rw [found] at ran
      rcases Scope.on_checkAssigned_cases frame (.sym name) v r.store with passed | ⟨_, _, refused⟩
      · exact keeps_effect (ran.trans passed) (lawful.stays sound)
          (lawful.bound r frame name v sound found)
      · exact keeps_effect (ran.trans refused) (lawful.stays sound) (lawful.usual (by rintro _ ⟨⟩))

theorem chains_does {between : α → Prop} {task : Task} {x : Recorded α} {y : Run α}
    {next : α → Recorded Value} {following : α → Run Value} (first : w.Keeps between x y r)
    (behind : ∀ v s, w.sound s → between v → w.Does evaluator.forms task (next v) (following v) s) :
    w.Does evaluator.forms task (x >>= next) (y >>= following) r := by
  obtain ⟨outcome, s, ran, ran', sound, later, answers⟩ := first
  cases outcome with
  | error failure =>
      refine .inl ⟨.error failure, s, ?_, ?_, sound, later, answers⟩
      · simp [Recorded.on_bind, ran]
      · simp [Run.on_bind, ran']
  | ok v =>
      have goes : (x >>= next).on r = (next v).on s := by simp [Recorded.on_bind, ran]
      have goes' : (y >>= following).on r.store = (following v).on s.store := by
        simp [Run.on_bind, ran']
      rcases behind v s sound answers with kept | ⟨t, owner, name, v, gives, gives', sound', later',
        rest⟩
      · obtain ⟨result, t, gives, gives', sound', later', answers'⟩ := kept
        exact .inl ⟨result, t, goes.trans gives, goes'.trans gives', sound',
          lawful.trans r s t later later', answers'⟩
      · exact .inr ⟨t, owner, name, v, goes.trans gives, goes'.trans gives', sound',
          lawful.trans r s t later later', rest⟩

theorem assign_does {task : Task} (frame : FrameId) (name : String) (v : Value) (sound : w.sound r)
    (value : w.value v) (assigns : task.Assigns evaluator.forms frame name) :
    w.Does evaluator.forms task (effect (Scope.assign frame (.sym name) v))
      (effect (Scope.assign frame (.sym name) v)) r := by
  have ran := Scope.on_assign frame name v r.store
  cases found : r.store.find? frame (.sym name) with
  | none =>
      rw [found] at ran
      exact .inl (keeps_effect ran (lawful.stays sound) (lawful.usual (by rintro _ ⟨⟩)))
  | some owner =>
      rw [found] at ran
      refine .inr ⟨r, owner, name, v, ?_, ran, sound, lawful.refl r, value,
        .inl ⟨frame, assigns, found⟩⟩
      rw [Recorded.on_effect, ran]

theorem enter_keeps (params : List Param) (home : FrameId) (given : List Value) (sound : w.sound r)
    (values : ∀ v ∈ given, w.value v) :
    w.Keeps (fun _ => True) (effect (bindParams params home given))
      (effect (bindParams params home given)) r := by
  have ran := on_bindParams params home given r.store
  split at ran
  · refine keeps_effect ran (lawful.extends_ r home _ sound fun entry member => ?_) trivial
    exact values entry.2 (List.of_mem_zip member).2
  · exact keeps_effect ran (lawful.stays sound) (lawful.usual (by rintro _ ⟨⟩))

theorem force_keeps {inner : Inner Recorded} {plain : Inner Run}
    (related : (w.coupling evaluator.forms).InnerHolds inner plain)
    (id : ThunkId) (sound : w.sound r) : w.Keeps w.value (inner.force id) (plain.force id) r := by
  have reading : w.Keeps (fun suspension => suspension = r.store.thunk id)
      (effect (Run.read fun store => store.thunk id))
        (effect (Run.read fun store => store.thunk id)) r :=
    lawful.keeps_read _ sound
  have concrete (v : Value) (s : Recording) (sound : w.sound s) (value : w.value v) :
      w.Keeps w.value (inner.concrete v) (plain.concrete v) s := by
    cases v with
    | thunk id => exact related (.force id) trivial s sound
    | _ => exact lawful.keeps_pure sound value
  refine lawful.keeps_bind reading fun suspension s sound' later here => ?_
  split
  · next v => exact lawful.keeps_pure sound' (lawful.settled r id v sound here.symm)
  · next code home kept =>
      have whole := lawful.waiting r id code home kept sound here.symm
      refine lawful.keeps_bind (related (.evaluate code home) whole s sound')
        fun v t sound'' later' value => ?_
      refine lawful.keeps_bind (concrete v t sound'' value) fun found u sound₃ later'' value' => ?_
      split
      · next keeping =>
          -- the suspension was read before its code was evaluated, and is settled in the store
          -- after that
          have since : w.later r u := lawful.trans r t u (lawful.trans r s t later later') later''
          have moves := lawful.settles r u id code home found (keeping ▸ here.symm) since sound₃
            value'
          have settling : w.Keeps (fun _ => True)
              (effect (Run.change fun store => store.settle id found))
              (effect (Run.change fun store => store.settle id found)) u :=
            keeps_effect (Run.on_change (fun store => store.settle id found) u.store) moves trivial
          exact lawful.keeps_bind settling fun _ _ sound₄ _ _ => lawful.keeps_pure sound₄ value'
      · exact lawful.keeps_pure sound₃ value'

end Lawful

end Computations

theorem Lawful.coupling {w : Watch} {evaluator : Evaluator} (lawful : w.Lawful evaluator) :
    (w.coupling evaluator.forms).Lawful evaluator where
  toCodeLaws := lawful.toCodeLaws
  gives holds := fun _ sound => lawful.keeps_pure sound holds
  chains first behind := fun r sound =>
    lawful.keeps_bind (first r sound) fun v s sound' _ between => behind v between s sound'
  finishes holds := fun r sound => .inl (holds r sound)
  chainsEnd first behind := fun r sound =>
    lawful.chains_does (first r sound) fun v s sound' between => behind v between s sound'
  effectGives holds := fun _ sound => lawful.keeps_pure sound holds
  effectChains first behind := by
    unfold Coupling.HoldsEffect
    rw [Recorded.effect_bind]
    exact fun r sound =>
      lawful.keeps_bind (first r sound) fun v s sound' _ between => behind v between s sound'
  refuses fails := fun r sound => keeps_effect (Run.on_throw _ r.store) (lawful.stays sound) fails
  lookup frame name := fun _ sound => lawful.lookup_keeps frame name sound
  check frame name v value := fun r sound => by
    rcases Scope.on_checkAssigned_cases frame (.sym name) v r.store with passed | ⟨_, _, refused⟩
    · exact keeps_effect passed (lawful.stays sound) value
    · exact keeps_effect refused (lawful.stays sound) (lawful.usual (by rintro _ ⟨⟩))
  assign _ frame name v assigns value := fun _ sound =>
    lawful.assign_does frame name v sound value assigns
  define _ frame name v defines value := fun r sound =>
    .inr ⟨r, frame, name, v, rfl, Scope.on_define frame name v r.store, sound, lawful.refl r, value,
      .inr defines⟩
  identity := fun r sound => keeps_effect (Run.on_make _ r.store) (lawful.numbers r sound) trivial
  suspend code frame kept whole := fun r sound =>
    keeps_effect (on_suspend code frame kept r.store)
      (lawful.suspends r code frame kept sound whole)
      (lawful.thunk _)
  enter params home given values := fun _ sound => lawful.enter_keeps params home given sound values
  perform p given applied values := fun r sound => lawful.performs r p given sound applied values
  force _ _ id related := fun _ sound => lawful.force_keeps related id sound

/-- Whole runs keep a lawful watch, whatever room there is for calls. -/
theorem Lawful.run_keeps {w : Watch} {evaluator : Evaluator} (lawful : w.Lawful evaluator)
    (limit : Nat) :
    (w.coupling evaluator.forms).InnerHolds (evaluator.run limit) (evaluator.run limit) := by
  induction limit using Nat.strongRecOn with
  | ind limit ih =>
      cases limit with
      | zero => exact fun task _ => lawful.coupling.refusesUsual (by rintro _ ⟨⟩)
      | succ limit =>
          intro task ready r sound
          have running : (evaluator.run (limit + 1) task : Recorded Value).on r = _ :=
            Recorded.on_duringTask task (evaluator.step (evaluator.stack limit) task) r
          have inside := Coupling.StackHolds.of_runs evaluator limit fun smaller le =>
            ih smaller (Nat.lt_succ_of_le le)
          obtain ⟨begun, began⟩ := lawful.begins r task sound ready
          -- the task ends after all it has done, or as it gives a name a value
          rcases lawful.coupling.step_does inside task ready (r.beginning task) begun with
            kept | stored
          · obtain ⟨outcome, s, ran, ran', sound', later, answers⟩ := kept
            obtain ⟨ended, since⟩ := lawful.ends (limit + 1) task r s outcome sound later sound'
              ran' answers
            refine ⟨outcome, s.ending task r.store outcome, ?_, ran', ended, ?_, answers⟩
            · rw [running, ran]
            · exact lawful.trans r s _ (lawful.trans r _ s began later) since
          · obtain ⟨s, owner, name, v, ran, ran', sound', later, value, stores⟩ := stored
            obtain ⟨ended, since⟩ :=
              lawful.stores (limit + 1) task r s owner name v sound later sound' ran' value stores
            refine ⟨.ok (.sym name), (⟨s.store.bind owner (.sym name) v, s.events⟩ :
              Recording).ending task r.store _, ?_, ran', ended, ?_, lawful.sym name⟩
            · rw [running, ran]
            · exact lawful.trans r s _ (lawful.trans r _ s began later) since

def idle : Watch := ⟨fun _ => True, fun _ _ => True, fun _ => True, fun _ => True, fun _ => True⟩

theorem idle_answers (outcome : Except Failure Value) : idle.Answers idle.value outcome := by
  cases outcome <;> trivial

theorem idle_lawful (evaluator : Evaluator) : idle.Lawful evaluator where
  toCodeLaws := .all _
  refl _ := trivial
  trans _ _ _ _ _ := trivial
  thunk _ := trivial
  bound _ _ _ _ _ _ := trivial
  waiting _ _ _ _ _ _ _ := trivial
  settled _ _ _ _ _ := trivial
  numbers _ _ := ⟨trivial, trivial⟩
  suspends _ _ _ _ _ _ := ⟨trivial, trivial⟩
  extends_ _ _ _ _ _ := ⟨trivial, trivial⟩
  settles _ _ _ _ _ _ _ _ _ _ := ⟨trivial, trivial⟩
  performs _ _ _ _ _ _ := keeps_primitive rfl trivial trivial (idle_answers _)
  begins _ _ _ _ := ⟨trivial, trivial⟩
  ends _ _ _ _ _ _ _ _ _ _ := ⟨trivial, trivial⟩
  stores _ _ _ _ _ _ _ _ _ _ _ _ _ := ⟨trivial, trivial⟩

end Watch

/-- Without its events a recorded run is the plain run. -/
theorem Evaluator.run_on_store (evaluator : Evaluator) (limit : Nat) (task : Task) (r : Recording) :
    (evaluator.run limit task : Run Value).on r.store =
      (((evaluator.run limit task : Recorded Value).on r).1,
        ((evaluator.run limit task : Recorded Value).on r).2.store) := by
  have ready : (Watch.idle.coupling evaluator.forms).ready task := by cases task <;> trivial
  obtain ⟨outcome, after, ran, ran', _⟩ := (Watch.idle_lawful evaluator).run_keeps limit task ready
    r trivial
  rw [ran, ran']

end ThunkLisp
