import ThunkLisp.Proofs.Loops

/-!
Empty bodies. What comes of a form without body forms is nil, once whatever stands before the body
has been done. Only a `letrec` that binds a name is otherwise: the last of its assignments takes the
place of the body.
-/

namespace ThunkLisp

/-- A form that has a body, with no form in it. The operator of a call gives a procedure with an
empty body. -/
inductive Bodiless where
  | call (head : Value) (operands : List Value)
  | sequence
  | scope (entries : List (String × Value))
  | scopes (entries : List (String × Value))
  | loop (name : String) (entries : List (String × Value))
  | recursive (entries : List (String × Value))

def Inner.assignAll (inner : Inner Run) (scope : FrameId) : List (String × Value) → Run Unit
  | [] => return
  | (name, code) :: rest => do
      let v ← inner.evaluate code scope
      let _ ← Scope.assign scope (.sym name) v
      inner.assignAll scope rest

namespace Bodiless

def code : Bodiless → Value
  | call head operands => .list (head :: operands)
  | sequence => .list [.sym "begin"]
  | scope entries => Derived.scopeForm entries []
  | scopes entries => Derived.scopesForm entries []
  | loop name entries => Derived.loopForm name entries []
  | recursive entries => Derived.letrecForm entries []

/-- The form is well formed, and a call is none of the special forms. -/
def Proper : Bodiless → Prop
  | call head _ => ∀ word, head = .sym word → FormTable.full.find? word = none
  | sequence | scopes _ => True
  | scope entries | loop _ entries | recursive entries => (entries.map Prod.fst).Nodup

/-- What is done before the body. It ends with the frame that the body is for. -/
def enter (strategy : Strategy) (inner : Inner Run) (frame : FrameId) : Bodiless → Run FrameId
  | call head operands => do
      let fn ← inner.evaluate head frame
      let given ← strategy.arguments inner fn frame operands
      match fn with
      | .procedure _ params [] home => bindParams params home given
      | _ => throw (.notApplicable fn)
  | sequence => return frame
  | scope entries => strategy.enterScope inner frame entries
  | scopes [] => strategy.enterScope inner frame []
  | scopes entries => strategy.enterScopes inner frame entries
  | loop name entries => do
      let home ← Run.make fun store => (store.frames.size, store.openLoop frame name entries [])
      let given ← strategy.operands inner frame (Derived.values entries)
      Run.make fun store => store.extend home ((Derived.symbols entries).zip given)
  | recursive entries => do
      let scope ← strategy.enterScope inner frame (entries.map fun entry => (entry.1, mark))
      inner.assignAll scope entries
      return scope

/-- What comes of it. An assignment gives the name. -/
def result : Bodiless → Value
  | recursive entries => (entries.getLast?.map fun entry => .sym entry.1).getD .nil
  | _ => .nil

/-- The calls that the form takes beside what is done before the body. -/
def calls : Bodiless → Nat
  | call _ _ => 5
  | sequence => 1
  | scope _ => 8
  | scopes entries => 10 * entries.length + 14
  | loop _ _ => 12
  | recursive _ => 18

theorem result_eq_nil_iff (form : Bodiless) :
    form.result = .nil ↔ ∀ entries, form = .recursive entries → entries = [] := by
  cases form with
  | recursive entries =>
      cases last : entries.getLast? with
      | none => simp [result, List.getLast?_eq_none_iff.mp last]
      | some entry =>
          have some_ : entries ≠ [] := by
            rintro rfl
            cases last
          simp [result, last, some_]
  | _ => simp [result]

end Bodiless

theorem Run.on_bind_eq_ok {α β : Type} {x : Run α} {next : α → Run β} {store after : Store} {v : β}
    (ran : (x >>= next).on store = (.ok v, after)) :
    ∃ w between, x.on store = (.ok w, between) ∧ (next w).on between = (.ok v, after) := by
  rw [Run.on_bind] at ran
  cases first : x.on store with
  | mk outcome between =>
      rw [first] at ran
      cases outcome with
      | ok w => exact ⟨w, between, rfl, ran⟩
      | error failure => cases ran

theorem Scope.assign_name (frame : FrameId) (name : String) (v : Value) :
    Scope.assign frame (.sym name) v = (do
      let _ ← Scope.assign frame (.sym name) v
      return .sym name) := by
  funext store
  change (Scope.assign frame (.sym name) v).on store = Run.on _ store
  rw [Run.on_bind, Scope.on_assign]
  cases store.find? frame (.sym name) <;> rfl

namespace Evaluator

variable (evaluator : Evaluator) (limit : Nat) (scope : FrameId)

theorem sequence_assignments (assigns : evaluator.forms.find? "set!" = some .assign)
    (entries : List (String × Value)) :
    (Inner.sequence (evaluator.run (limit + 1)) scope (Derived.assignments entries) :
      Run Value) = (do
      Inner.assignAll (evaluator.run (limit - 3)) scope entries
      return (Bodiless.recursive entries).result) := by
  have single (name : String) (code : Value) :
      (evaluator.run (limit + 1) (.evaluate (.list [.sym "set!", .sym name, code]) scope) :
        Run Value) = (do
        let v ← Inner.evaluate (evaluator.run (limit - 3)) code scope
        let _ ← Scope.assign scope (.sym name) v
        return .sym name) := by
    rw [evaluator.run_form limit scope "set!" .assign _ assigns, Form.run, Form.runAssign,
      evaluator.evaluate_above]
    exact bind_congr fun v => Scope.assign_name scope name v
  induction entries with
  | nil => rfl
  | cons entry rest ih =>
      cases rest with
      | nil =>
          simp only [Derived.assignments, List.map_cons, List.map_nil, Inner.sequence,
            Inner.assignAll, bind_assoc, pure_bind]
          exact single entry.1 entry.2
      | cons next behind =>
          have last : (Bodiless.recursive (entry :: next :: behind)).result =
              (Bodiless.recursive (next :: behind)).result := by simp [Bodiless.result]
          have first : (Inner.sequence (evaluator.run (limit + 1)) scope
              (Derived.assignments (entry :: next :: behind)) : Run Value) = (do
                let _ ← evaluator.run (limit + 1)
                  (.evaluate (.list [.sym "set!", .sym entry.1, entry.2]) scope)
                Inner.sequence (evaluator.run (limit + 1)) scope
                  (Derived.assignments (next :: behind))) := rfl
          rw [first, single, ih, last]
          simp only [Inner.assignAll, bind_assoc, pure_bind]

end Evaluator

theorem Strategy.calls_le_two (strategy : Strategy) (fn : Value) (operands : List Value) :
    strategy.calls fn operands ≤ 2 := by
  unfold Strategy.calls
  split <;> first | omega | (split <;> omega)

section Entering

variable (strategy : Strategy) (added : AddedActions) (frame : FrameId) (limit : Nat)

theorem run_call {head : Value} {operands : List Value}
    (ordinary : ∀ word, head = .sym word → FormTable.full.find? word = none) {store after : Store}
    {scope : FrameId} (entered : ((Bodiless.call head operands).enter strategy
      ((⟨FormTable.full, strategy, added⟩ : Evaluator).run limit) frame).on store =
        (.ok scope, after)) :
    ((⟨FormTable.full, strategy, added⟩ : Evaluator).run (limit + 5)
      (.evaluate (.list (head :: operands)) frame) :
      Run Value).on store = (.ok .nil, after) := by
  let evaluator : Evaluator := ⟨FormTable.full, strategy, added⟩
  obtain ⟨fn, called, first, entered⟩ := Run.on_bind_eq_ok entered
  obtain ⟨given, between, made, entered⟩ := Run.on_bind_eq_ok entered
  -- the operator and the operands have as much room as they need
  have few : limit + strategy.calls fn operands + 2 ≤ limit + 4 := by
    have two := strategy.calls_le_two fn operands
    omega
  rw [Inner.evaluate] at first
  have first' := evaluator.run_continues limit (limit + 4) (Nat.le_add_right _ _)
    (.evaluate head frame) store (by rw [first]; simp)
  have made' := (deepening_lawful evaluator).arguments_holds (evaluator.deepens_above few) strategy
    fn operands (fun _ _ => trivial) called (by rw [made]; simp)
  change (evaluator.run (limit + 5) _ : Run Value).on store = _
  rw [evaluator.run_combination, evaluator.combination_application _ _ _ frame ordinary,
    Evaluator.evaluate_stack, Run.on_bind, first'.1.trans first]
  dsimp only
  rw [Run.on_bind, made'.1.trans made]
  split at entered
  · next identity params home =>
      simp only [apply, Run.on_bind, Machine.effect, entered]
      rfl
  · cases entered

theorem enter_scopes_continued (entries : List (String × Value)) :
    (do
      let _ ← (Bodiless.scopes entries).enter strategy
        ((⟨FormTable.full, strategy, added⟩ : Evaluator).run limit) frame
      return .nil : Run Value).ContinuedBy (fun _ => True)
      ((⟨FormTable.full, strategy, added⟩ : Evaluator).run (limit + 10 * entries.length + 13 + 1)
        (.evaluate (Derived.scopesForm entries []) frame)) := by
  let evaluator : Evaluator := ⟨FormTable.full, strategy, added⟩
  have same : (do
      let _ ← (Bodiless.scopes entries).enter strategy (evaluator.run limit) frame
      return .nil : Run Value) = strategy.inScopes (evaluator.run limit) frame entries [] := by
    cases entries with
    | nil => rw [Strategy.inScopes_nil]; rfl
    | cons => rfl
  rw [same, evaluator.run_scopes _ rfl rfl rfl]
  exact evaluator.nest_continued frame entries [] (Nat.le_refl (limit + 10 * entries.length + 10))

theorem enter_loop_continued (name : String) (entries : List (String × Value))
    (distinct : (entries.map Prod.fst).Nodup) :
    (do
      let _ ← (Bodiless.loop name entries).enter strategy
        ((⟨FormTable.full, strategy, added⟩ : Evaluator).run limit) frame
      return .nil : Run Value).ContinuedBy (fun _ => True)
      ((⟨FormTable.full, strategy, added⟩ : Evaluator).run (limit + 12)
        (.evaluate (Derived.loopForm name entries []) frame)) := by
  let evaluator : Evaluator := ⟨FormTable.full, strategy, added⟩
  have whole : (evaluator.run (limit + 12)
      (.evaluate (Derived.loopForm name entries []) frame) : Run Value) = (do
      let home ← Run.make fun store => (store.frames.size, store.openLoop frame name entries [])
      strategy.inLoop (evaluator.run (limit + 4)) (evaluator.run (limit + 2)) frame home entries
        []) :=
    funext fun store => run_loop strategy added limit store frame name distinct []
  rw [whole]
  simp only [Bodiless.enter, bind_assoc, Strategy.inLoop]
  refine .bind (.refl _ fun _ => trivial) fun home (_ : True) => ?_
  refine .bind (evaluator.operands_continues frame (Nat.le_add_right limit 4) strategy _)
    fun given _ => ?_
  exact .refl _ fun _ => trivial

/-- Forms other than calls are done as far as their bodies, and then give what comes of that. -/
theorem enter_continued (form : Bodiless) (proper : form.Proper)
    (other : ∀ head operands, form ≠ .call head operands) :
    (do
      let _ ← form.enter strategy ((⟨FormTable.full, strategy, added⟩ : Evaluator).run limit) frame
      return form.result : Run Value).ContinuedBy (fun _ => True)
      ((⟨FormTable.full, strategy, added⟩ : Evaluator).run (limit + form.calls)
        (.evaluate form.code frame)) := by
  let evaluator : Evaluator := ⟨FormTable.full, strategy, added⟩
  cases form with
  | call head operands => exact absurd rfl (other head operands)
  | sequence => exact .refl _ fun _ => trivial
  | scope entries =>
      change Run.ContinuedBy _ _ (evaluator.run (limit + 8)
        (.evaluate (Derived.scopeForm entries []) frame))
      rw [evaluator.run_scope (limit + 2) frame rfl rfl entries proper]
      refine .bind (evaluator.enterScope_continues frame (Nat.le_refl limit) strategy entries)
        fun scope _ => ?_
      exact .refl _ fun _ => trivial
  | scopes entries => exact enter_scopes_continued strategy added frame limit entries
  | loop name entries => exact enter_loop_continued strategy added frame limit name entries proper
  | recursive entries =>
      change Run.ContinuedBy _ _ (evaluator.run (limit + 18)
        (.evaluate (Derived.letrecForm entries []) frame))
      rw [evaluator.run_letrec (limit + 8) frame rfl rfl rfl entries proper, List.append_nil]
      simp only [Bodiless.enter, bind_assoc, pure_bind]
      refine .bind (evaluator.enterScope_continues frame (Nat.le_add_right limit 6) strategy _)
        fun scope _ => ?_
      rw [show limit + 8 - 4 = limit + 3 + 1 from rfl, evaluator.sequence_assignments (limit + 3)
        scope rfl entries]
      exact .refl _ fun _ => trivial

end Entering

structure EmptyBodies (evaluator : Evaluator) (frame : FrameId) : Prop where
  /-- what has been done before the body is all that is done, and the form gives its result -/
  returns (form : Bodiless) (limit : Nat) (scope : FrameId) (store after : Store) : form.Proper →
    (form.enter evaluator.strategy (evaluator.run limit) frame).on store = (.ok scope, after) →
      (evaluator.run (limit + form.calls) (.evaluate form.code frame) : Run Value).on store =
        (.ok form.result, after)
  /-- under every limit, as long as it is not passed -/
  agrees (form : Bodiless) (limit limit' : Nat) (scope : FrameId) (store after : Store) :
    form.Proper →
    (form.enter evaluator.strategy (evaluator.run limit) frame).on store = (.ok scope, after) →
      ((evaluator.run limit' (.evaluate form.code frame) : Run Value).on store).1 ≠
        .error .recursion →
        (evaluator.run limit' (.evaluate form.code frame) : Run Value).on store =
          (.ok form.result, after)
  /-- the result is nil, but for a `letrec` that binds a name -/
  nil_iff (form : Bodiless) : form.result = .nil ↔ ∀ entries, form = .recursive entries →
    entries = []
  /-- procedures with empty bodies are made by a `lambda` -/
  made (limit : Nat) (spec : Value) (params : List Param) (store : Store) :
    parseParams spec = .ok params →
    (evaluator.run (limit + 1) (.evaluate (.list [.sym "lambda", spec]) frame) : Run Value).on
      store =
      (.ok (.procedure store.fresh params [] frame), store.takeIdentity.2)
  /-- and by a `define` -/
  defined (limit : Nat) (name : String) (spec : List Value) (params : List Param) (store : Store) :
    parseParams (.list spec) = .ok params →
      (evaluator.run (limit + 1) (.evaluate (.list [.sym "define", .list (.sym name :: spec)])
        frame) : Run Value).on
        store = (.ok (.sym name), store.takeIdentity.2.bind frame (.sym name)
          (.procedure store.fresh params [] frame))

/-- An empty body gives nil, but in a `letrec` that binds a name it gives the last name. -/
theorem empty_body_gives_nil_or_last_name (strategy : Strategy) (added : AddedActions)
    (frame : FrameId) :
    EmptyBodies ⟨FormTable.full, strategy, added⟩ frame := by
  let evaluator : Evaluator := ⟨FormTable.full, strategy, added⟩
  have returns (form : Bodiless) (limit : Nat) (scope : FrameId) (store after : Store)
      (proper : form.Proper)
      (entered : (form.enter strategy (evaluator.run limit) frame).on store = (.ok scope, after)) :
      (evaluator.run (limit + form.calls) (.evaluate form.code frame) : Run Value).on store =
        (.ok form.result, after) := by
    have finished : (do
        let _ ← form.enter strategy (evaluator.run limit) frame
        return form.result : Run Value).on store = (.ok form.result, after) := by
      rw [Run.on_bind, entered]
      rfl
    cases form with
    | call head operands => exact run_call strategy added frame limit proper entered
    | _ =>
        have continued := enter_continued strategy added frame limit _ proper
          nofun store (by rw [finished]; nofun)
        exact continued.1.trans finished
  refine ⟨returns, fun form limit limit' scope store after proper entered within => ?_,
    Bodiless.result_eq_nil_iff, fun limit spec params store parsed => ?_,
    fun limit name spec params store parsed => ?_⟩
  · -- a limit that is not passed and one that is enough agree with every greater one
    have whole := returns form limit scope store after proper entered
    have enough := evaluator.run_continues (limit + form.calls) (max limit' (limit + form.calls))
      (by omega)
      (.evaluate form.code frame) store (by rw [whole]; nofun)
    have other := evaluator.run_continues limit' (max limit' (limit + form.calls)) (by omega)
      (.evaluate form.code frame) store within
    exact other.1.symm.trans (enough.1.trans whole)
  · rw [Evaluator.run_procedure _ limit frame rfl spec [] parsed]
    rfl
  · rw [Evaluator.run_form _ limit frame "define" .define _ rfl]
    simp only [Form.run, Form.runDefine, Form.makeProcedure, parsed]
    rfl

/-- A `letrec` of one name and no body forms. The value is computed and assigned, and then the name
comes of it. -/
theorem empty_letrec_gives_name :
    let evaluator : Evaluator := ⟨FormTable.full, .strict, fun _ _ => return .nil⟩
    let form : Bodiless := .recursive [("a", .int 1)]
    form.Proper ∧ ((form.enter .strict (evaluator.run 20) 0).on (emptyGlobals true)).1 = .ok 1 ∧
      ((evaluator.run 20 (.evaluate form.code 0) : Run Value).on (emptyGlobals true)).1 =
        .ok (.sym "a") ∧
        Value.sym "a" ≠ .nil := by
  intro evaluator form
  refine ⟨List.nodup_singleton "a", ?_, ?_, nofun⟩
  · cbv
  · cbv

end ThunkLisp
