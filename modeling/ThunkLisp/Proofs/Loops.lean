import Mathlib
import ThunkLisp.Proofs.Definitions
import ThunkLisp.Proofs.MalformedForms
import ThunkLisp.Proofs.OrderlyStores
import ThunkLisp.Proofs.Reach
import ThunkLisp.Proofs.RecursiveScopes
import ThunkLisp.Proofs.Scopes
import ThunkLisp.Proofs.SpareRuns

/-!
Loops. A `let` with a name defines a procedure in a frame of its own and calls it. The same loop can
be written as the call of what a `letrec` gives. Both make the same procedure in the same frame, and
the `letrec` may leave the suspension of a mark behind that nothing refers to.
-/

namespace ThunkLisp

open Value (Every)

namespace Derived

def loopForm (name : String) (entries : List (String × Value)) (forms : List Value) : Value :=
  .list (.sym "let" :: .sym name :: .list (entries.map entryForm) :: forms)

def loopLambda (entries : List (String × Value)) (forms : List Value) : Value :=
  .list (.sym "lambda" :: .list (symbols entries) :: forms)

/-- The call of what a `letrec` gives, in the place of a loop. -/
def recursiveCall (name : String) (entries : List (String × Value)) (forms : List Value) : Value :=
  .list (letrecForm [(name, loopLambda entries forms)] [.sym name] :: values entries)

end Derived

namespace Store

variable (store : Store) (frame : FrameId) (name : String) (entries : List (String × Value))
  (forms : List Value)

def loop : Value := .procedure (store.fresh + 1) (Derived.parameters entries) forms
    store.frames.size

/-- The store with the frame of the loop, which binds the name to that procedure. Two identities are
given out. -/
def openLoop : Store :=
  ({ store with fresh := store.fresh + 2 }.extend frame [(.sym name, store.loop entries forms)]).2

/-- The same frame while something stands for the loop, before its identity is taken. -/
def beforeLoop (placeholder : Value) : Store :=
  ({ store with fresh := store.fresh + 1 }.extend frame [(.sym name, placeholder)]).2

theorem extend_bind (bindings : Bindings) (v : Value) :
    (store.extend frame bindings).2.bind store.frames.size (.sym name) v =
      (store.extend frame (bindings.put (.sym name) v)).2 := by
  have last (new : Frame) (f : Frame → Frame) :
      (store.frames.push new).modify store.frames.size f = store.frames.push (f new) := by
    refine Array.ext_getElem? fun i => ?_
    by_cases here : i = store.frames.size
    · subst here
      simp [Array.getElem_modify]
    · simp [here, Ne.symm here, Array.getElem?_modify, Array.getElem?_push]
  simp [extend, addFrame, bind, last]

theorem openLoop_frame : (store.openLoop frame name entries forms).frame store.frames.size =
    ⟨[(.sym name, store.loop entries forms)], some frame, (store.frame frame).checked⟩ :=
  { store with fresh := store.fresh + 2 }.frame_extend_self frame _

theorem openLoop_frame_of_lt (id : FrameId) (present : id < store.frames.size) :
    (store.openLoop frame name entries forms).frame id = store.frame id :=
  { store with fresh := store.fresh + 2 }.frame_addFrame_of_lt _ (some frame) none id present

theorem openLoop_size : (store.openLoop frame name entries forms).frames.size =
    store.frames.size + 1 := by
  simp [openLoop, extend, addFrame]

theorem openLoop_bound? : (store.openLoop frame name entries forms).bound? store.frames.size name =
    some (store.loop entries forms) := by
  have binding : Bindings.find? [(.sym name, store.loop entries forms)] (.sym name) =
      some (store.loop entries forms) := Bindings.find?_put_self [] name _
  refine (bound?_eq_some _ _ name _).mpr ⟨store.frames.size, Store.find?_of_binds ?_, ?_⟩
  · rw [openLoop_frame, Bindings.binds, binding]
    rfl
  · rw [openLoop_frame, binding]

end Store

namespace Evaluator

variable {evaluator : Evaluator} (limit : Nat) {store : Store} {frame : FrameId} {name : String}

theorem run_bound {v : Value} (bound : store.bound? frame name = some v)
    (forced : ∀ id, v ≠ .thunk id) (assigned : v ≠ .unassigned) :
    (evaluator.run (limit + 1) (.evaluate (.sym name) frame) : Run Value).on store =
      (.ok v, store) := by
  have looked : (Scope.lookup frame (.sym name)).on store = (.ok v, store) := by
    rw [Scope.on_lookup, bound]
    exact Scope.on_checkAssigned frame _ v store assigned
  change (evaluateVariable (evaluator.stack limit 0) name frame : Run Value).on store = _
  simp only [evaluateVariable, Run.on_bind, Machine.effect, looked]
  cases v with
  | thunk id => exact absurd rfl (forced id)
  | _ => rfl

end Evaluator

section Heads

variable (strategy : Strategy) (added : AddedActions) (limit : Nat) (store : Store)
  (frame : FrameId) (name : String)
  {entries : List (String × Value)} (distinct : (entries.map Prod.fst).Nodup) (forms : List Value)

/-- The store with what stands for the loop until it is there. -/
def Strategy.withPlaceholder (strategy : Strategy) (store : Store) (frame : FrameId) : Store :=
  match strategy with
  | .lazy => (store.addThunk mark frame false).2
  | _ => store

include distinct

theorem run_loopDefinition (evaluator : Evaluator)
    (defines : evaluator.forms.find? "define" = some .define) :
    (evaluator.run (limit + 1) (.evaluate (Derived.loopDefinition name entries forms) frame) :
      Run Value).on store =
      (.ok (.sym name), store.takeIdentity.2.bind frame (.sym name)
        (.procedure store.fresh (Derived.parameters entries) forms frame)) := by
  rw [Derived.loopDefinition, evaluator.run_form limit frame "define" .define _ defines]
  simp only [Form.run, Form.runDefine, Form.makeProcedure, Derived.parseParams_parameters distinct]
  rfl

theorem run_loopHead :
    ((⟨FormTable.full, strategy, added⟩ : Evaluator).run (limit + 7) (.evaluate
      (.list [Derived.loopMaker name entries forms]) frame) : Run Value).on store =
        (.ok (store.loop entries forms), store.openLoop frame name entries forms) := by
  let evaluator : Evaluator := ⟨FormTable.full, strategy, added⟩
  have none : parseParams (.list []) = .ok [] := rfl
  have operands (store : Store) :
      (evaluator.strategy.operands (evaluator.run (limit + 5 - 2)) frame []).on store =
        (.ok [], store) := by
    cases strategy <;> rfl
  -- the procedure without parameters takes one identity and the loop takes the next
  let called := ({ store with fresh := store.fresh + 1 }.extend frame []).2
  have defined := run_loopDefinition limit called store.frames.size name distinct forms evaluator
    rfl
  have opened : called.takeIdentity.2.bind store.frames.size (.sym name)
      (store.loop entries forms) =
      store.openLoop frame name entries forms :=
    { store with fresh := store.fresh + 2 }.extend_bind frame name [] _
  have bound := store.openLoop_bound? frame name entries forms
  have found := evaluator.run_bound limit bound nofun nofun
  have no_codes : ([] : List Value).length = ([] : List Param).length := rfl
  have call := evaluator.run_call (limit + 5) frame rfl none nofun
    [Derived.loopDefinition name entries forms, .sym name] no_codes
  change (evaluator.run (limit + 7) _ : Run Value).on store = _
  rw [Derived.loopMaker, call, Run.on_bind, on_takeIdentity]
  dsimp only
  rw [Run.on_bind, operands]
  change (Inner.sequence (evaluator.run (limit + 1)) store.frames.size _ : Run Value).on called = _
  simp only [Inner.sequence, Inner.evaluate, Run.on_bind]
  rw [defined]
  change (evaluator.run (limit + 1) (.evaluate (.sym name) store.frames.size) : Run Value).on
    (called.takeIdentity.2.bind store.frames.size (.sym name) (store.loop entries forms)) = _
  rw [opened, found]

omit distinct in
theorem enterScope_mark : ∃ placeholder,
    (strategy.enterScope ((⟨FormTable.full, strategy, added⟩ : Evaluator).run (limit + 1)) frame
      [(name, mark)]).on
      store = (.ok (strategy.withPlaceholder store frame).frames.size,
        (strategy.withPlaceholder store frame).beforeLoop frame name placeholder) := by
  let evaluator : Evaluator := ⟨FormTable.full, strategy, added⟩
  have evaluated := evaluator.run_mark rfl limit frame { store with fresh := store.fresh + 1 }
  have codes : Derived.values [(name, mark)] = [mark] := rfl
  cases strategy with
  | lazy => exact ⟨.thunk store.thunks.size, rfl⟩
  | _ =>
      refine ⟨.unassigned, ?_⟩
      simp only [Strategy.enterScope, Strategy.operands, codes, Inner.evaluateAll, Inner.evaluate,
        Run.on_bind, on_takeIdentity]
      rw [evaluated]
      rfl

theorem run_loopAssignment (evaluator : Evaluator)
    (assigns : evaluator.forms.find? "set!" = some .assign)
    (procedures : evaluator.forms.find? "lambda" = some .procedure) (placeholder : Value) :
    (evaluator.run (limit + 5)
      (.evaluate (.list [.sym "set!", .sym name, Derived.loopLambda entries forms])
      store.frames.size) : Run Value).on (store.beforeLoop frame name placeholder) =
      (.ok (.sym name), store.openLoop frame name entries forms) := by
  have binds (v : Value) : Bindings.put [(.sym name, placeholder)] (.sym name) v =
      [(.sym name, v)] := by
    simp [Bindings.put, Value.same_sym_right]
  let scope := ({ store with fresh := store.fresh + 2 }.extend frame [(.sym name, placeholder)]).2
  have visible : scope.find? store.frames.size (.sym name) = some store.frames.size := by
    have own := { store with fresh := store.fresh + 2 }.frame_extend_self frame
      [(.sym name, placeholder)]
    refine Store.find?_of_binds ?_
    rw [own, Bindings.binds]
    exact Option.isSome_of_eq_some (Bindings.find?_put_self [] name placeholder)
  rw [evaluator.run_form _ _ "set!" .assign _ assigns]
  simp only [Form.run, Form.runAssign, evaluator.evaluate_above, Derived.loopLambda]
  change (evaluator.run (limit + 1) _ >>= fun v => Machine.effect (Scope.assign _ _ v) :
    Run Value).on _ = _
  rw [evaluator.run_procedure limit _ procedures _ _ (Derived.parseParams_parameters distinct)]
  simp only [Run.on_bind, on_takeIdentity, Run.on_pure, Machine.effect]
  change (Scope.assign store.frames.size (.sym name) (store.loop entries forms)).on scope = _
  rw [Scope.on_assign, visible]
  simp only [scope, { store with fresh := store.fresh + 2 }.extend_bind frame name, binds]
  rfl

omit distinct in
theorem Strategy.withPlaceholder_loop (entries : List (String × Value)) :
    (strategy.withPlaceholder store frame).loop entries forms = store.loop entries forms := by
  cases strategy <;> rfl

theorem run_letrecHead :
    ((⟨FormTable.full, strategy, added⟩ : Evaluator).run (limit + 19) (.evaluate
      (Derived.letrecForm [(name, Derived.loopLambda entries forms)] [.sym name]) frame) :
        Run Value).on store =
      (.ok (store.loop entries forms),
        (strategy.withPlaceholder store frame).openLoop frame name entries forms) := by
  let evaluator : Evaluator := ⟨FormTable.full, strategy, added⟩
  obtain ⟨placeholder, entered⟩ := enterScope_mark strategy added (limit + 6) store frame name
  have loop := strategy.withPlaceholder_loop store frame forms entries
  generalize strategy.withPlaceholder store frame = placed at entered loop ⊢
  have assigned := run_loopAssignment limit placed frame name distinct forms evaluator rfl rfl
    placeholder
  have found := evaluator.run_bound (limit + 4) (placed.openLoop_bound? frame name entries forms)
    nofun nofun
  have entering := evaluator.run_letrec (limit + 9) frame rfl rfl rfl
    [(name, Derived.loopLambda entries forms)] (List.nodup_singleton name) [.sym name]
  change (evaluator.run (limit + 19) _ : Run Value).on store = _
  rw [entering, Run.on_bind]
  change (evaluator.strategy.enterScope (evaluator.run (limit + 9 - 2)) frame
    ([(name, Derived.loopLambda entries forms)].map fun entry => (entry.1, mark))).on store =
      _ at entered
  rw [entered, show limit + 9 - 4 = limit + 5 from rfl]
  simp only [Derived.assignments, List.map_cons, List.map_nil, List.cons_append, List.nil_append,
    Inner.sequence, Inner.evaluate, Run.on_bind]
  rw [assigned]
  simp only []
  rw [found, loop]

end Heads

/-- How a loop goes on once it is there: the arguments are made in the frame of the form, and the
body is done inside the frame that binds the name. -/
def Strategy.inLoop (strategy : Strategy) (inner body_inner : Inner Run) (frame home : FrameId)
    (entries : List (String × Value)) (forms : List Value) : Run Value := do
  let given ← strategy.operands inner frame (Derived.values entries)
  let scope ← Run.make fun store => store.extend home ((Derived.symbols entries).zip given)
  body_inner.sequence scope forms

section Calls

variable (strategy : Strategy) (added : AddedActions) (limit : Nat) (store : Store)
  (frame : FrameId) (name : String)
  {entries : List (String × Value)} (distinct : (entries.map Prod.fst).Nodup) (forms : List Value)

theorem Strategy.inLoop_eq (inner body_inner : Inner Run) :
    (do
      let given ← strategy.arguments inner (store.loop entries forms) frame (Derived.values entries)
      apply added body_inner (store.loop entries forms) given : Run Value) =
      strategy.inLoop inner body_inner frame store.frames.size entries forms := by
  rw [Store.loop, strategy.application_of_strict inner frame body_inner added
    (Derived.parameters_strict entries) (Derived.length_values entries), Derived.parameters_names]
  rfl

theorem run_callLoop {head : List Value} {before opened : Store}
    (gives : ((⟨FormTable.full, strategy, added⟩ : Evaluator).run limit
      (.evaluate (.list head) frame) :
      Run Value).on before = (.ok (store.loop entries forms), opened)) :
    ((⟨FormTable.full, strategy, added⟩ : Evaluator).run (limit + 1) (.evaluate
      (.list (.list head :: Derived.values entries)) frame) : Run Value).on before =
        (strategy.inLoop ((⟨FormTable.full, strategy, added⟩ : Evaluator).run (limit - 3))
          ((⟨FormTable.full, strategy, added⟩ : Evaluator).run (limit - 5)) frame store.frames.size
          entries forms).on opened := by
  have count : (Derived.values entries).length = (Derived.parameters entries).length :=
    Derived.length_values entries
  rw [Evaluator.run_combination, Evaluator.combination_application _ _ _ _ frame (by simp),
    Run.on_bind, Evaluator.evaluate_stack, gives]
  dsimp only
  rw [Store.loop, strategy.calls_of_length count, ← Store.loop,
    strategy.inLoop_eq added store frame forms, Strategy.inLoop, Strategy.operands_above]
  simp only [Evaluator.sequence_above]
  rfl

include distinct

theorem run_loop :
    ((⟨FormTable.full, strategy, added⟩ : Evaluator).run (limit + 12) (.evaluate
      (Derived.loopForm name entries forms) frame) : Run Value).on store =
        (strategy.inLoop ((⟨FormTable.full, strategy, added⟩ : Evaluator).run (limit + 4))
          ((⟨FormTable.full, strategy, added⟩ : Evaluator).run (limit + 2)) frame store.frames.size
          entries forms).on (store.openLoop frame name entries forms) := by
  let evaluator : Evaluator := ⟨FormTable.full, strategy, added⟩
  have expanded := evaluator.run_derived (limit + 11) frame "let" .namedLet _ _ rfl
    (Derived.expand_loop name entries forms)
  rw [Derived.loopForm, expanded]
  exact run_callLoop strategy added (limit + 7) store frame forms
    (run_loopHead strategy added limit store frame name distinct forms)

theorem run_recursiveCall :
    ((⟨FormTable.full, strategy, added⟩ : Evaluator).run (limit + 20) (.evaluate
      (Derived.recursiveCall name entries forms) frame) : Run Value).on store =
        (strategy.inLoop ((⟨FormTable.full, strategy, added⟩ : Evaluator).run (limit + 16))
          ((⟨FormTable.full, strategy, added⟩ : Evaluator).run (limit + 14)) frame store.frames.size
          entries forms).on ((strategy.withPlaceholder store frame).openLoop frame name entries
            forms) :=
  run_callLoop strategy added (limit + 19) store frame forms
    (run_letrecHead strategy added limit store frame name distinct forms)

end Calls

/-! The placeholder. -/

/-- The store beside the placeholder that a lazy `letrec` has made. -/
def Strategy.besidePlaceholder (strategy : Strategy) (store : Store) (frame : FrameId)
    (after : Store) : Store :=
  match strategy with
  | .lazy => after.withSpare store.thunks.size (.waiting mark frame false)
  | _ => after

/-- The outcome beside it, where a suspension that was made later has another number. -/
def Strategy.outcomeBeside (strategy : Strategy) (store : Store) (outcome : Except Failure Value) :
    Except Failure Value :=
  match strategy with
  | .lazy => pastOutcome store.thunks.size (Value.past store.thunks.size) outcome
  | _ => outcome

/-- The text of the value, or the message of the failure, or why there is none. -/
def Store.outcomeText (store : Store) : Except Failure Value → Except Failure String
  | .ok v => store.written v
  | .error failure => failure.message store

namespace Store.Orderly

variable {store : Store}

theorem outcomeText_withSpare {spare : Nat} (orderly : store.Orderly spare)
    (suspension : Suspension) {outcome : Except Failure Value}
    (within : Within spare store.thunks.size (Value.Held spare) outcome) :
    (store.withSpare spare suspension).outcomeText (pastOutcome spare (Value.past spare) outcome) =
      store.outcomeText outcome := by
  cases outcome with
  | ok v => exact orderly.written_withSpare suspension within
  | error failure => exact Failure.message_withSpare orderly suspension within

variable (orderly : store.Orderly store.thunks.size) (frame : FrameId) (name : String)
  {entries : List (String × Value)} {forms : List Value}

include orderly

theorem openLoop_withPlaceholder (strategy : Strategy) :
    (strategy.withPlaceholder store frame).openLoop frame name entries forms =
      strategy.besidePlaceholder store frame (store.openLoop frame name entries forms) := by
  cases strategy with
  | lazy =>
      let placeholder : Suspension := .waiting mark frame false
      have loop : (store.withSpare store.thunks.size placeholder).loop entries forms =
          store.loop entries forms := by
        simp only [Store.loop, Store.withSpare_size]
        rfl
      let numbered : Store := { store with fresh := store.fresh + 2 }
      have extended : (numbered.withSpare store.thunks.size placeholder).extend frame
          [(.sym name, store.loop entries forms)] =
            ((numbered.extend frame [(.sym name, store.loop entries forms)]).1,
              (numbered.extend frame [(.sym name, store.loop entries forms)]).2.withSpare
                store.thunks.size
                placeholder) :=
        numbered.withSpare_extend placeholder frame [(.sym name, store.loop entries forms)]
      change (store.addThunk mark frame false).2.openLoop frame name entries forms = _
      rw [← orderly.withSpare_last mark frame false, openLoop, loop]
      exact congrArg Prod.snd extended
  | _ => rfl

theorem orderly_openLoop (older : ∀ form ∈ forms, form.Older store.thunks.size) :
    (store.openLoop frame name entries forms).Orderly store.thunks.size := by
  have numbered : ({ store with fresh := store.fresh + 2 } : Store).Orderly store.thunks.size :=
    orderly.of_same rfl rfl
  refine numbered.extend frame _ fun entry member => .inl ?_
  obtain rfl := List.mem_singleton.mp member
  exact (Value.older_procedure _ _ forms _).mpr older

end Store.Orderly

/-- What is asked of a loop that is done lazily: what added primitives do depends on no number of a
suspension, and the store and the code refer only to suspensions that are there. -/
structure LazyLoop (added : AddedActions) (store : Store) (entries : List (String × Value))
    (forms : List Value) :
    Prop where
  indifferent : added.Indifferent
  orderly : store.Orderly store.thunks.size
  values : ∀ entry ∈ entries, entry.2.Older store.thunks.size
  forms : ∀ form ∈ forms, form.Older store.thunks.size

section Agreeing

variable {strategy : Strategy} {added : AddedActions} {store : Store} (frame : FrameId)
  (name : String)
  {entries : List (String × Value)} {forms : List Value}
  (lazily : strategy = .lazy → LazyLoop added store entries forms)

include lazily

/-- From its start on the loop is the same beside the placeholder. -/
theorem inLoop_agrees (limit body_limit : Nat) :
    let evaluator : Evaluator := ⟨FormTable.full, strategy, added⟩
    let loop := strategy.inLoop (evaluator.run limit) (evaluator.run body_limit) frame
      store.frames.size entries forms
    let outcome := (loop.on (store.openLoop frame name entries forms)).1
    let after := (loop.on (store.openLoop frame name entries forms)).2
    let outcome' := strategy.outcomeBeside store outcome
    let after' := strategy.besidePlaceholder store frame after
    loop.on ((strategy.withPlaceholder store frame).openLoop frame name entries forms) =
      (outcome', after') ∧
      after'.outcomeText outcome' = after.outcomeText outcome := by
  intro evaluator loop outcome after outcome' after'
  -- only the lazy strategy has a suspension for a placeholder
  cases strategy with
  | lazy =>
      obtain ⟨indifferent, orderly, values, older⟩ := lazily rfl
      let placeholder : Suspension := .waiting mark frame false
      have inner := Evaluator.run_beside indifferent store.thunks.size placeholder
      have codes : ∀ code ∈ Derived.values entries, code.Older store.thunks.size := by
        intro code member
        obtain ⟨entry, inside, rfl⟩ := List.mem_map.mp member
        exact values entry inside
      have found (count : Nat) : (store.loop entries forms).Held store.thunks.size count :=
        .inl ((Value.older_procedure _ _ forms _).mpr older)
      have beside : ResultBeside store.thunks.size placeholder 0 loop loop := by
        change ResultBeside _ _ _ (Strategy.inLoop _ _ _ _ _ _ _) (Strategy.inLoop _ _ _ _ _ _ _)
        rw [← Strategy.inLoop_eq .lazy added]
        exact (arguments_beside (inner limit) frame (store.loop entries forms) codes).bind
            fun count given _ held =>
          apply_beside (inner body_limit) indifferent (found count) held
      have opened : (store.openLoop frame name entries forms).Orderly store.thunks.size :=
        orderly.orderly_openLoop frame name older
      obtain ⟨ended, left, ran, ran', orderly', _, within⟩ := beside _ opened (Nat.zero_le _)
      obtain rfl : outcome = ended := congrArg Prod.fst ran
      obtain rfl : after = left := congrArg Prod.snd ran
      refine ⟨?_, orderly'.outcomeText_withSpare placeholder within⟩
      rw [orderly.openLoop_withPlaceholder]
      exact ran'
  | _ => exact ⟨rfl, rfl⟩

end Agreeing

/-! What the arguments can reach. -/

theorem Realm.operands_stay (realm : Realm) (added : AddedActions) (strategy : Strategy)
    (tame : ∀ name, realm.within (.action name) → Tame (added name)) (limit : Nat)
    {codes : List Value} {frame : FrameId} {store : Store} (sound : realm.Sound store)
    (held : realm.Holds store (.frame frame)) (written : ∀ code ∈ codes, realm.Written code) :
    ∃ outcome after, (strategy.operands ((⟨FormTable.full, strategy, added⟩ : Evaluator).run limit)
      frame codes).on
      store = (outcome, after) ∧ realm.Sound after ∧ store.Evolves after ∧
        ∀ given, outcome = .ok given → ∀ ref ∈ Value.refsOf given, realm.Holds after ref := by
  have laws := lawful realm added strategy tame
  have inner := Discipline.run_keeps laws limit
  have whole : ∀ code ∈ codes, realm.discipline.code ⟨store, []⟩ frame code :=
    fun code member => (code_iff _ frame code).mpr (written code member)
  have kept : ∃ (outcome : Except Failure (List Value)) (after : Recording),
      (strategy.operands ((⟨FormTable.full, strategy, added⟩ : Evaluator).run limit) frame codes).on
        store =
        (outcome, after.store) ∧ realm.Sound after.store ∧
          realm.discipline.later ⟨store, []⟩ after ∧
          realm.discipline.Answers (fun vs s => ∀ v ∈ vs, realm.discipline.argument s v) outcome
            after := by
    have evaluated := (Discipline.evaluateAll_keeps (r := ⟨store, []⟩) laws inner codes sound held
      whole).imp
      fun vs s _ (values : ∀ v ∈ vs, realm.discipline.value s v) v member =>
        (.inl (values v member) : realm.discipline.argument s v)
    cases strategy with
    | lazy =>
        obtain ⟨outcome, after, _, ran, _, sound', later, answer⟩ :=
          Discipline.suspendAll_keeps (r := ⟨store, []⟩) laws codes sound held whole
        exact ⟨outcome, after, ran, sound', later, answer⟩
    | _ =>
        obtain ⟨outcome, after, _, ran, _, sound', later, answer⟩ := evaluated
        exact ⟨outcome, after, ran, sound', later, answer⟩
  obtain ⟨outcome, after, ran, sound', later, answer⟩ := kept
  refine ⟨outcome, after.store, ran, sound', later.store.toEvolves, ?_⟩
  rintro given rfl ref member
  obtain ⟨v, among, inside⟩ := (Value.mem_refsOf ref given).mp member
  exact holds_of_value (value_of_argument (answer v among)) ref inside

/-- Nothing is missing of what can be reached from the roots, and what added primitives there do is
tame. -/
structure Store.Closed (store : Store) (added : AddedActions) (roots : List Ref) : Prop where
  has : ∀ ref, store.Reachable roots ref → store.Has ref
  tame : ∀ name, store.Reachable roots (.action name) → Tame (added name)

section Arguments

variable {strategy : Strategy} {added : AddedActions} {store : Store} {frame : FrameId}
  (name : String)
  {entries : List (String × Value)} (forms : List Value)
  (closed : store.Closed added (.frame frame :: Value.refsOf (Derived.values entries)))

include closed

theorem Store.Closed.present : frame < store.frames.size := closed.has _ (.root List.mem_cons_self)

/-- Nothing that the arguments have come by leads to the frame of the loop, and it is as it was. -/
theorem arguments_apart {limit : Nat} {given : List Value} {between : Store}
    (made : (strategy.operands ((⟨FormTable.full, strategy, added⟩ : Evaluator).run limit) frame
      (Derived.values entries)).on (store.openLoop frame name entries forms) =
        (.ok given, between)) :
    between.frame store.frames.size = (store.openLoop frame name entries forms).frame
      store.frames.size ∧
      store.frames.size < between.frames.size ∧
        ¬ between.Reachable (.frame frame :: Value.refsOf given) (.frame store.frames.size) := by
  let opened := store.openLoop frame name entries forms
  let roots := .frame frame :: Value.refsOf (Derived.values entries)
  have size : opened.frames.size = store.frames.size + 1 :=
    store.openLoop_size frame name entries forms
  have old {ref : Ref} (has : store.Has ref) : opened.Has ref ∧
      opened.refs ref = store.refs ref := by
    cases ref with
    | frame id =>
        refine ⟨Nat.lt_of_lt_of_le has (by omega), ?_⟩
        exact congrArg Frame.refs (store.openLoop_frame_of_lt frame name entries forms id has)
    | thunk id => exact ⟨has, rfl⟩
    | action id => exact ⟨trivial, rfl⟩
  -- what the caller can reach is a realm that the frame of the loop is not in
  let realm : Realm := ⟨opened, store.Reachable roots, fun ref reach =>
    (old (closed.has ref reach)).1⟩
  have sound : realm.Sound opened := realm.sound_base fun near reach ref member =>
    reach.next ((old (closed.has near reach)).2 ▸ member)
  have written : ∀ code ∈ Derived.values entries, realm.Written code :=
    fun code member ref inside =>
    .root (.tail _ ((Value.mem_refsOf ref _).mpr ⟨code, member, inside⟩))
  have outside : ¬ realm.within (.frame store.frames.size) :=
    fun reach => Nat.lt_irrefl _ (closed.has _ reach)
  have there : store.frames.size < opened.frames.size := by omega
  have root : realm.within (.frame frame) := .root List.mem_cons_self
  obtain ⟨outcome, after, ran, sound', evolves, results⟩ :=
    realm.operands_stay added strategy closed.tame limit sound (.inl root) written
  obtain ⟨rfl, rfl⟩ := Prod.mk.inj (ran.symm.trans made)
  refine ⟨sound'.frame_outside _ there outside, Nat.lt_of_lt_of_le there evolves.size,
    fun reach => ?_⟩
  have start : ∀ ref ∈ .frame frame :: Value.refsOf given, realm.Holds after ref := by
    intro ref member
    rcases List.mem_cons.mp member with rfl | inside
    · exact .inl root
    · exact results given rfl ref inside
  rcases Realm.holds_of_reachable sound' start reach with within | created
  · exact outside within
  · exact created.1 there

omit closed in
theorem Bindings.binds_zip {names : List String} {given : List Value}
    (count : given.length = names.length) (name : String) :
    Bindings.binds ((names.map Value.sym).zip given) (.sym name) = decide (name ∈ names) := by
  by_cases member : name ∈ names
  · obtain ⟨v, _, found⟩ := Bindings.find?_zip count member
    simp [Bindings.binds, found, member]
  · have nothing : Bindings.find? ((names.map Value.sym).zip given) (.sym name) = none := by
      simp only [Bindings.find?, Option.map_eq_none_iff, List.find?_eq_none, Value.same_sym_right]
      intro entry among same
      obtain ⟨other, inside, key⟩ := List.mem_map.mp (List.of_mem_zip among).1
      cases key.trans same
      exact member inside
    simp [Bindings.binds, nothing, member]

omit closed in
/-- In a new frame a name is the frame's own, or means what it means around it. -/
theorem Store.find?_extend {home : FrameId} (present : home < store.frames.size)
    (bindings : Bindings) (key : Value) :
    (store.extend home bindings).2.find? store.frames.size key =
      if bindings.binds key then some store.frames.size else store.find? home key := by
  have evolves : store.Evolves (store.extend home bindings).2 :=
    .addFrame store bindings (some home) none
  have around : (store.extend home bindings).2.find? home key = store.find? home key := by
    rw [Store.find?, Store.find?, evolves.chain home present]
    refine List.find?_congr fun id member => ?_
    have older := Nat.lt_of_le_of_lt (store.le_of_mem_chain home id member) present
    rw [Store.extend, store.frame_addFrame_of_lt bindings (some home) none id older]
  rw [Store.find?] at around ⊢
  rw [Store.chain, List.find?_cons, store.frame_extend_self]
  simp only [present, if_true, around]
  cases bindings.binds key <;> rfl

theorem body_sees_loop {limit : Nat} {given : List Value} {between : Store}
    (made : (strategy.operands ((⟨FormTable.full, strategy, added⟩ : Evaluator).run limit) frame
      (Derived.values entries)).on (store.openLoop frame name entries forms) =
        (.ok given, between)) :
    let body := (between.extend store.frames.size ((Derived.symbols entries).zip given)).2
    if name ∈ entries.map Prod.fst then
      body.find? between.frames.size (.sym name) = some between.frames.size
    else body.bound? between.frames.size name = some (store.loop entries forms) := by
  intro body
  obtain ⟨still, present, _⟩ := arguments_apart name forms closed made
  have count : given.length = (entries.map Prod.fst).length := by
    rw [strategy.operands_length _ frame made, Derived.values, List.length_map, List.length_map]
  have names : Derived.symbols entries = (entries.map Prod.fst).map Value.sym := by
    simp [Derived.symbols]
  have found := between.find?_extend present ((Derived.symbols entries).zip given) (.sym name)
  have binds : Bindings.binds ((Derived.symbols entries).zip given) (.sym name) =
      decide (name ∈ entries.map Prod.fst) := names ▸ Bindings.binds_zip count name
  rw [binds] at found
  split
  · next parameter => simpa [parameter] using found
  · next free =>
      have here : Bindings.find? [(.sym name, store.loop entries forms)] (.sym name) =
          some (store.loop entries forms) := Bindings.find?_put_self [] name _
      rw [store.openLoop_frame] at still
      have near : between.find? store.frames.size (.sym name) = some store.frames.size :=
        Store.find?_of_binds (by simp [still, Bindings.binds, here])
      have same : body.frame store.frames.size = between.frame store.frames.size :=
        between.frame_addFrame_of_lt _ _ none store.frames.size present
      have resolved : body.find? between.frames.size (.sym name) = some store.frames.size := by
        rw [found, near, decide_eq_false free]
        rfl
      exact (body.bound?_eq_some _ name _).mpr ⟨_, resolved, by rw [same, still, here]⟩

end Arguments

/-! Loops and the calls in their place. -/

section Runs

variable (evaluator : Evaluator) (store : Store) (frame : FrameId) (name : String)
  (entries : List (String × Value))
  (forms : List Value)

def Evaluator.endLoop (limit : Nat) : Except Failure Value × Store :=
  (evaluator.run limit (.evaluate (Derived.loopForm name entries forms) frame) : Run Value).on store

def Evaluator.endCall (limit : Nat) : Except Failure Value × Store :=
  (evaluator.run limit (.evaluate (Derived.recursiveCall name entries forms) frame) : Run Value).on
    store

/-- The arguments of a loop, once its name is bound, and the store after they have been made. -/
def Evaluator.LoopArguments (limit : Nat) (given : List Value) (between : Store) : Prop :=
  (evaluator.strategy.operands (evaluator.run limit) frame (Derived.values entries)).on
    (store.openLoop frame name entries forms) = (.ok given, between)

structure LoopAgrees : Prop where
  /-- it begins with one new frame, which binds the name; the arguments are made in the frame of the
  form -/
  starts (limit : Nat) : evaluator.endLoop store frame name entries forms (limit + 12) =
    (evaluator.strategy.inLoop (evaluator.run (limit + 4))
      (evaluator.run (limit + 2)) frame store.frames.size
      entries forms).on (store.openLoop frame name entries forms)
  /-- it ends as the call does, and leaves the same store but for the placeholder -/
  same (limit limit' : Nat) :
    (evaluator.endLoop store frame name entries forms limit).1 ≠ .error .recursion →
      (evaluator.endCall store frame name entries forms limit').1 ≠ .error .recursion →
        let ended := evaluator.endLoop store frame name entries forms limit
        let ended' := evaluator.endCall store frame name entries forms limit'
        ended'.1 = evaluator.strategy.outcomeBeside store ended.1 ∧
          ended'.2 = evaluator.strategy.besidePlaceholder store frame ended.2 ∧
          ended'.2.outcomeText ended'.1 = ended.2.outcomeText ended.1 ∧
          ended'.2.printed = ended.2.printed ∧ ended'.2.log = ended.2.log
  /-- the body sees the name, or a parameter of that name -/
  visible : store.Closed evaluator.added (.frame frame :: Value.refsOf (Derived.values entries)) →
    ∀ limit given between, evaluator.LoopArguments store frame name entries forms limit given
      between →
      let body := (between.extend store.frames.size ((Derived.symbols entries).zip given)).2
      if name ∈ entries.map Prod.fst then
        body.find? between.frames.size (.sym name) = some between.frames.size
      else body.bound? between.frames.size name = some (store.loop entries forms)
  /-- and neither the frame of the form nor an argument leads to where the name is bound -/
  hidden : store.Closed evaluator.added (.frame frame :: Value.refsOf (Derived.values entries)) →
    ∀ limit given between, evaluator.LoopArguments store frame name entries forms limit given
      between →
      ¬ between.Reachable (.frame frame :: Value.refsOf given) (.frame store.frames.size)
  /-- in the frame of the form the name is not bound but by a definition of the program there -/
  unbound : evaluator.added.Undisturbing → frame < store.frames.size →
    (store.frame frame).bindings.binds (.sym name) = false → ∀ limit events, ∃ outcome after newer,
      (evaluator.run limit (.evaluate (Derived.loopForm name entries forms) frame) :
        Recorded Value).on
        ⟨store, events⟩ = (outcome, after) ∧ after.events = newer ++ events ∧
          ((after.store.frame frame).bindings.binds (.sym name) = true →
            ∃ event ∈ newer, event.Defines evaluator.forms frame name)

end Runs

/-- A `let` with a name does what the call of the `letrec` does that gives the procedure. -/
theorem loop_is_letrec_call (strategy : Strategy) (added : AddedActions) (store : Store)
    (frame : FrameId) (name : String) (entries : List (String × Value)) (forms : List Value)
    (distinct : (entries.map Prod.fst).Nodup)
    (lazily : strategy = .lazy → LazyLoop added store entries forms) :
    LoopAgrees ⟨FormTable.full, strategy, added⟩ store frame name entries forms := by
  let evaluator : Evaluator := ⟨FormTable.full, strategy, added⟩
  have starts (limit : Nat) := run_loop strategy added limit store frame name distinct forms
  -- under these limits both are left the same room for the arguments and the body
  have levels (limit : Nat) (ended ended' : Except Failure Value × Store)
      (loop : evaluator.endLoop store frame name entries forms (limit + 24) = ended)
      (call : evaluator.endCall store frame name entries forms (limit + 20) = ended') :
      ended' = (strategy.outcomeBeside store ended.1, strategy.besidePlaceholder store frame
        ended.2) ∧
        (strategy.besidePlaceholder store frame ended.2).outcomeText
          (strategy.outcomeBeside store ended.1) =
          ended.2.outcomeText ended.1 := by
    obtain rfl := (starts (limit + 12)).symm.trans loop
    obtain rfl := (run_recursiveCall strategy added limit store frame name distinct
      forms).symm.trans call
    exact inLoop_agrees frame name lazily (limit + 16) (limit + 14)
  refine ⟨starts, fun limit limit' within within' => ?_,
    fun closed limit given between => body_sees_loop name forms closed,
    fun closed limit given between made => (arguments_apart name forms closed made).2.2, ?_⟩
  · obtain ⟨agrees, _⟩ := greater_limit_agrees limit (max limit limit' + 24) (by omega)
    obtain ⟨agrees', _⟩ := greater_limit_agrees limit' (max limit limit' + 20) (by omega)
    have loop := agrees evaluator (.evaluate (Derived.loopForm name entries forms) frame) store
      within
    have call := agrees' evaluator (.evaluate (Derived.recursiveCall name entries forms) frame)
      store within'
    intro ended ended'
    obtain ⟨ends, reads⟩ := levels (max limit limit') ended ended' loop call
    rw [ends]
    refine ⟨rfl, rfl, reads, ?_⟩
    cases strategy <;> exact ⟨rfl, rfl⟩
  · exact fun undisturbing present free limit events =>
      evaluator.run_binds_defined undisturbing limit _ ⟨store, events⟩ present free

def secondRound : List Value :=
  [.list [.sym "if", .sym "x", .list [.sym "again", .bool false], .int 2]]

/-- A lazy loop in a new session. -/
theorem loop_is_letrec_call_again :
    let evaluator : Evaluator := ⟨FormTable.full, .lazy, fun _ _ => return .nil⟩
    ∃ session r, (Setup.plain "lazy" true).ran? [] = some (session, r) ∧
      (evaluator.endLoop r.store session.globals "again" [("x", .int 1)] secondRound 40).1 =
        .ok (.int 2) ∧
      LoopAgrees evaluator r.store session.globals "again" [("x", .int 1)] secondRound := by
  intro evaluator
  have found : ((Setup.plain "lazy" true).ran? []).map (fun ran =>
      (evaluator.endLoop ran.2.store ran.1.globals "again" [("x", .int 1)] secondRound 40).1) =
        some (.ok (.int 2)) := by
    cbv
  obtain ⟨⟨session, r⟩, ran, ends⟩ := Option.map_eq_some_iff.mp found
  have orderly := Setup.orderly_of_ran (Setup.plain "lazy" true) [] session r rfl ran
  have plain : ∀ form ∈ secondRound, form.Older r.store.thunks.size := by
    intro form member id
    obtain rfl := List.mem_singleton.mp member
    simp [Value.refs, Value.refsOf]
  refine ⟨session, r, ran, ends,
    loop_is_letrec_call .lazy _ r.store session.globals "again" _ secondRound ?_ fun _ => ?_⟩
  · exact List.nodup_singleton "x"
  · refine ⟨fun _ _ _ _ _ => .pure fun _ _ => .inl Value.older_nil, orderly, ?_, plain⟩
    simp [Value.Older, Value.refs]

end ThunkLisp
