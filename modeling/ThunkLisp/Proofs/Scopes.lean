import ThunkLisp.Proofs.RecursionLimit
import ThunkLisp.Proofs.RunRules
import ThunkLisp.Proofs.Unannotated
import ThunkLisp.Proofs.UnreadArguments

/-!
Scopes. A `let` expands into the call of a procedure. What that comes to is one frame inside the
frame of the form, with the names bound to arguments as the strategy makes them. A `let*` is one
such scope inside the other.
-/

namespace ThunkLisp

namespace Derived

/-- A `let` without a name, as it is written, -/
def scopeForm (entries : List (String × Value)) (forms : List Value) : Value :=
  .list (.sym "let" :: .list (entries.map entryForm) :: forms)

/-- and a `let*`. -/
def scopesForm (entries : List (String × Value)) (forms : List Value) : Value :=
  .list (.sym "let*" :: .list (entries.map entryForm) :: forms)

theorem letrecScope_eq (entries : List (String × Value)) (forms : List Value) :
    letrecScope entries forms = scopeForm (entries.map fun entry => (entry.1, mark))
        (assignments entries ++ forms) := by
  simp [letrecScope, scopeForm, Function.comp_def]

theorem expand_letStar (entries : List (String × Value)) (forms : List Value) :
    letStar.expand (.list (entries.map entryForm) :: forms) =
        .ok (nestLets forms (entries.map entryForm)) := by
  simp [expand, expandLetStar, splitOperands_entries, bind, Except.bind, pure, Except.pure]

/-- The parameters that the names of a binding list are. They have no modes. -/
def parameters (entries : List (String × Value)) : List Param :=
  entries.map fun entry => ⟨entry.1, .strict⟩

section Parameters

variable (entries : List (String × Value))

theorem parameters_strict : ∀ param ∈ parameters entries, param.mode = .strict := by
  intro param member
  obtain ⟨_, _, rfl⟩ := List.mem_map.mp member
  rfl

theorem parameters_names : ((parameters entries).map fun p => Value.sym p.name) =
    symbols entries := by
  simp [parameters, symbols]

theorem length_values : (values entries).length = (parameters entries).length := by
  simp [parameters, values]

theorem parseParams_parameters {entries : List (String × Value)}
    (distinct : (entries.map Prod.fst).Nodup) :
    parseParams (.list (symbols entries)) = .ok (parameters entries) := by
  rw [parseParams_symbols, if_pos distinct, parameters]

end Parameters

end Derived

namespace Strategy

variable (strategy : Strategy) (inner : Inner Run) (frame : FrameId)

/-- The argument for an operand, where the parameter has no mode. -/
def argument (code : Value) : Run Value :=
  match strategy with
  | .lazy => suspend code frame false
  | _ => inner.evaluate code frame

def operands (codes : List Value) : Run (List Value) :=
  match strategy with
  | .lazy => suspendAll frame codes
  | _ => inner.evaluateAll frame codes

/-- One frame inside another, for all names at once. A procedure enters it, and has taken an
identity before. -/
def enterScope (entries : List (String × Value)) : Run FrameId := do
  let _ ← Run.make Store.takeIdentity
  let given ← strategy.operands inner frame (Derived.values entries)
  Run.make fun store => store.extend frame ((Derived.symbols entries).zip given)

/-- One frame inside the other, with one name each. The argument for a name is made in the frame
before. -/
def enterScopes (strategy : Strategy) (inner : Inner Run) (frame : FrameId) :
    List (String × Value) → Run FrameId
  | [] => return frame
  | (name, code) :: rest => do
      let _ ← Run.make Store.takeIdentity
      let v ← strategy.argument inner frame code
      let scope ← Run.make fun store => store.extend frame [(.sym name, v)]
      strategy.enterScopes inner scope rest

/-- What a `let*` means: a body in the innermost of its scopes. There is one even for no names. -/
def inScopes (entries : List (String × Value)) (forms : List Value) : Run Value := do
  let scope ← match entries with
    | [] => do
        let _ ← Run.make Store.takeIdentity
        Run.make fun store => store.extend frame []
    | _ :: _ => strategy.enterScopes inner frame entries
  inner.sequence scope forms

theorem operands_single (code : Value) :
    strategy.operands inner frame [code] = (do return [← strategy.argument inner frame code]) := by
  cases strategy <;> simp [operands, argument, suspendAll, Inner.evaluateAll]

theorem operands_length {codes given : List Value} {store after : Store}
    (ran : (strategy.operands inner frame codes).on store = (.ok given, after)) :
      given.length = codes.length := by
  let params : List Param := codes.map fun _ => ⟨"", .strict⟩
  have count : params.length = codes.length := List.length_map _
  have strict : ∀ param ∈ params, param.mode = .strict := by simp [params]
  rw [← count]
  cases strategy with
  | lazy =>
      have ran' := ran
      rw [operands, suspendAll_eq_argumentsFor inner frame params codes count] at ran'
      simpa using argumentsFor_length inner frame _ codes store after given (by simp [count]) ran'
  | _ =>
      simp only [operands] at ran
      rw [← argumentsFor_of_strict inner frame strict count.symm] at ran
      exact argumentsFor_length inner frame params codes store after given count ran

theorem enterScope_nil : strategy.enterScope inner frame [] = (do
    let _ ← Run.make Store.takeIdentity
    Run.make fun store => store.extend frame []) := by
  cases strategy <;> simp [enterScope, operands, suspendAll, Inner.evaluateAll, Derived.values,
      Derived.symbols]

theorem enterScopes_cons (entry : String × Value) (rest : List (String × Value)) :
    strategy.enterScopes inner frame (entry :: rest) = (do
      let scope ← strategy.enterScope inner frame [entry]
      strategy.enterScopes inner scope rest) := by
  simp [enterScopes, enterScope, Derived.values, Derived.symbols, operands_single]

theorem inScopes_nil (forms : List Value) : strategy.inScopes inner frame [] forms = (do
    let scope ← strategy.enterScope inner frame []
    inner.sequence scope forms) := by
  rw [inScopes, enterScope_nil, bind_assoc]

theorem inScopes_single (entry : String × Value) (forms : List Value) :
    strategy.inScopes inner frame [entry] forms = (do
      let scope ← strategy.enterScope inner frame [entry]
      inner.sequence scope forms) := by
  rw [inScopes, enterScopes_cons]
  simp [enterScopes]

theorem inScopes_cons (entry next : String × Value) (rest : List (String × Value))
    (forms : List Value) :
    strategy.inScopes inner frame (entry :: next :: rest) forms = (do
      let scope ← strategy.enterScope inner frame [entry]
      strategy.inScopes inner scope (next :: rest) forms) := by
  rw [inScopes, enterScopes_cons]
  simp [inScopes]

theorem arguments_of_strict {params : List Param} {codes : List Value}
    (strict : ∀ param ∈ params, param.mode = .strict) (identity : Nat) (body : List Value)
    (home : FrameId) :
    strategy.arguments inner (.procedure identity params body home) frame codes =
      strategy.operands inner frame codes := by
  have modes : ∀ identity' params' body' home',
      Value.procedure identity params body home = .procedure identity' params' body' home' →
        ∀ param ∈ params', param.mode = .strict := by
    rintro _ _ _ _ ⟨⟩
    exact strict
  cases strategy with
  | strict => rfl
  | lazy => rfl
  | mixed => rw [mixed_arguments_of_strict inner frame modes]; rfl

theorem application_of_strict (body_inner : Inner Run) (added : AddedActions) {params : List Param}
    {codes : List Value} (strict : ∀ param ∈ params, param.mode = .strict)
    (count : codes.length = params.length) (identity : Nat) (body : List Value) (home : FrameId) :
    (do
      let given ← strategy.arguments inner (.procedure identity params body home) frame codes
      apply added body_inner (.procedure identity params body home) given : Run Value) = (do
        let given ← strategy.operands inner frame codes
        let scope ← Run.make fun store => store.extend home
          ((params.map fun p => Value.sym p.name).zip given)
        body_inner.sequence scope body) := by
  rw [arguments_of_strict strategy inner frame strict]
  funext store
  change Run.on _ store = Run.on _ store
  rw [Run.on_bind, Run.on_bind]
  cases ran : (strategy.operands inner frame codes).on store with
  | mk outcome after =>
      cases outcome with
      | error failure => rfl
      | ok given =>
          have fits : given.length = params.length :=
            (strategy.operands_length inner frame ran).trans count
          simp only [apply, bindParams, if_pos fits, Machine.effect]

theorem operands_above (evaluator : Evaluator) (limit calls : Nat) (codes : List Value) :
    strategy.operands ((evaluator.stack limit).above calls) frame codes =
      strategy.operands (evaluator.run (limit - (calls + 2))) frame codes := by
  cases strategy with
  | lazy => rfl
  | _ => exact evaluator.evaluateAll_above (m := Run) limit calls frame codes

end Strategy

namespace Evaluator

variable (evaluator : Evaluator) (limit : Nat) (frame : FrameId)

theorem run_procedure (procedures : evaluator.forms.find? "lambda" = some .procedure) (spec : Value)
    (body : List Value) {params : List Param} (parsed : parseParams spec = .ok params) :
    (evaluator.run (limit + 1) (.evaluate (.list (.sym "lambda" :: spec :: body)) frame) :
      Run Value) = (do
      return .procedure (← Run.make Store.takeIdentity) params body frame) := by
  rw [run_form evaluator limit frame "lambda" .procedure _ procedures]
  simp only [Form.run, Form.makeProcedure, parsed]
  rfl

/-- The call of a procedure without modes that is made where it is called. The operands are behind
three calls, and the body is behind five. -/
theorem run_call (procedures : evaluator.forms.find? "lambda" = some .procedure) {spec : Value}
    {params : List Param} (parsed : parseParams spec = .ok params)
    (strict : ∀ param ∈ params, param.mode = .strict) (body : List Value) {codes : List Value}
    (count : codes.length = params.length) :
    (evaluator.run (limit + 2) (.evaluate (.list (.list (.sym "lambda" :: spec :: body) :: codes))
      frame) :
      Run Value) = (do
        let _ ← Run.make Store.takeIdentity
        let given ← evaluator.strategy.operands (evaluator.run (limit - 2)) frame codes
        let scope ← Run.make fun store => store.extend frame
          ((params.map fun p => Value.sym p.name).zip given)
        Inner.sequence (evaluator.run (limit - 4)) scope body) := by
  rw [run_combination evaluator (limit + 1), combination_application _ _ _ _ frame (by simp),
    evaluate_stack, run_procedure evaluator limit frame procedures _ _ parsed]
  simp only [bind_assoc, pure_bind]
  refine bind_congr fun identity => ?_
  rw [evaluator.strategy.calls_of_length count,
    Strategy.application_of_strict _ _ _ _ _ strict count, Strategy.operands_above]
  refine bind_congr fun given => bind_congr fun scope => ?_
  exact evaluator.sequence_above (m := Run) (limit + 1) appliedCalls scope body

theorem run_scope (lets : evaluator.forms.find? "let" = some (.derived .namedLet))
    (procedures : evaluator.forms.find? "lambda" = some .procedure)
    (entries : List (String × Value)) (distinct : (entries.map Prod.fst).Nodup)
    (forms : List Value) :
    (evaluator.run (limit + 6) (.evaluate (Derived.scopeForm entries forms) frame) :
      Run Value) = (do
      let scope ← evaluator.strategy.enterScope (evaluator.run (limit - 2)) frame entries
      Inner.sequence (evaluator.run (limit - 4)) scope forms) := by
  have called := run_call evaluator limit frame procedures (Derived.parseParams_parameters distinct)
    (Derived.parameters_strict entries) forms (Derived.length_values entries)
  rw [Derived.scopeForm,
    run_derived evaluator (limit + 5) frame "let" .namedLet _ _ lets
      (Derived.expand_scope entries forms)]
  refine called.trans ?_
  simp only [Strategy.enterScope, bind_assoc, Derived.parameters_names]

theorem run_scope_shallow (lets : evaluator.forms.find? "let" = some (.derived .namedLet))
    (small : limit < 6) (entries : List (String × Value)) (forms : List Value) :
    (evaluator.run limit (.evaluate (Derived.scopeForm entries forms) frame) : Run Value) =
      throw .recursion := by
  cases limit with
  | zero => rfl
  | succ limit =>
      rw [Derived.scopeForm,
        run_derived evaluator limit frame "let" .namedLet _ _ lets
          (Derived.expand_scope entries forms)]
      obtain none_ | one : limit - 3 = 0 ∨ limit - 3 = 1 := by omega
      · rw [none_]
        rfl
      · rw [one]
        rfl

theorem run_letrec (letrecs : evaluator.forms.find? "letrec" = some (.derived .letrec))
    (lets : evaluator.forms.find? "let" = some (.derived .namedLet))
    (procedures : evaluator.forms.find? "lambda" = some .procedure)
    (entries : List (String × Value)) (distinct : (entries.map Prod.fst).Nodup)
    (forms : List Value) :
    (evaluator.run (limit + 10) (.evaluate (Derived.letrecForm entries forms) frame) :
      Run Value) = (do
      let scope ← evaluator.strategy.enterScope (evaluator.run (limit - 2)) frame
        (entries.map fun entry => (entry.1, mark))
      Inner.sequence (evaluator.run (limit - 4)) scope (Derived.assignments entries ++ forms)) := by
  have names : ((entries.map fun entry => (entry.1, mark)).map Prod.fst).Nodup := by
    simpa [Function.comp_def] using distinct
  rw [Derived.letrecForm,
    run_derived evaluator (limit + 9) frame "letrec" .letrec _ _ letrecs
      (Derived.expand_letrec entries forms),
    Derived.letrecScope_eq]
  exact run_scope evaluator limit frame lets procedures _ names _

/-! One scope inside the other. -/

/-- The scopes by the room that is left. Each takes ten calls from that of the next. -/
def nest (evaluator : Evaluator) (forms : List Value) : Nat → FrameId → List (String × Value) →
    Run Value
  | limit + 6, frame, entry :: next :: rest => do
      let scope ← evaluator.strategy.enterScope (evaluator.run (limit - 2)) frame [entry]
      evaluator.nest forms (limit - 4) scope (next :: rest)
  | limit + 6, frame, entries => do
      let scope ← evaluator.strategy.enterScope (evaluator.run (limit - 2)) frame entries
      Inner.sequence (evaluator.run (limit - 4)) scope forms
  | _, _, _ => throw .recursion

theorem nest_shallow (small : limit < 6) (forms : List Value) (entries : List (String × Value)) :
    evaluator.nest forms limit frame entries = throw .recursion := by
  unfold nest
  split
  · omega
  · omega
  · rfl

theorem run_nestLets (lets : evaluator.forms.find? "let" = some (.derived .namedLet))
    (procedures : evaluator.forms.find? "lambda" = some .procedure)
    (entries : List (String × Value)) (forms : List Value) :
    (evaluator.run limit (.evaluate (Derived.nestLets forms (entries.map Derived.entryForm))
      frame) : Run Value) =
      evaluator.nest forms limit frame entries := by
  induction entries generalizing limit frame with
  | nil =>
      change evaluator.run limit (.evaluate (Derived.scopeForm [] forms) frame) = _
      by_cases small : limit < 6
      · rw [run_scope_shallow evaluator limit frame lets small,
          nest_shallow evaluator limit frame small]
      · obtain ⟨limit, rfl⟩ : ∃ less, limit = less + 6 := ⟨limit - 6, by omega⟩
        rw [run_scope evaluator limit frame lets procedures [] List.nodup_nil]
        rfl
  | cons entry rest ih =>
      have alone : ([entry].map Prod.fst).Nodup := List.nodup_singleton _
      -- the rest stands in the scope as its only form
      have nested : Derived.nestLets forms ((entry :: rest).map Derived.entryForm) =
          Derived.scopeForm [entry] (match rest with
            | [] => forms
            | _ :: _ => [Derived.nestLets forms (rest.map Derived.entryForm)]) := by
        cases rest <;> rfl
      rw [nested]
      by_cases small : limit < 6
      · rw [run_scope_shallow evaluator limit frame lets small,
          nest_shallow evaluator limit frame small]
      · obtain ⟨limit, rfl⟩ : ∃ less, limit = less + 6 := ⟨limit - 6, by omega⟩
        rw [run_scope evaluator limit frame lets procedures [entry] alone]
        cases rest with
        | nil => rfl
        | cons next behind =>
            rw [nest]
            exact bind_congr fun scope => ih (limit - 4) scope

/-! Scopes under limits that are not passed. -/

section Limits

variable {limit} {deeper : Nat} (le : limit ≤ deeper)

include le

theorem sequence_continues (codes : List Value) :
    (Inner.sequence (evaluator.run limit) frame codes : Run Value).ContinuedBy (fun _ => True)
      (Inner.sequence (evaluator.run deeper) frame codes) :=
  (deepening_lawful evaluator).sequence_holds (evaluator.deepens le) codes fun _ _ => trivial

theorem operands_continues (strategy : Strategy) (codes : List Value) :
    (strategy.operands (evaluator.run limit) frame codes).ContinuedBy (fun _ => True)
      (strategy.operands (evaluator.run deeper) frame codes) := by
  cases strategy with
  | lazy => exact .refl _ fun _ => trivial
  | _ => exact fun store within =>
      let evaluated := (deepening_lawful evaluator).evaluateAll_holds (evaluator.deepens le) _
        fun _ _ => trivial
      ⟨(evaluated store within).1, fun _ _ => trivial⟩

theorem enterScope_continues (strategy : Strategy) (entries : List (String × Value)) :
    (strategy.enterScope (evaluator.run limit) frame entries).ContinuedBy (fun _ => True)
      (strategy.enterScope (evaluator.run deeper) frame entries) := by
  refine .bind (.refl _ fun _ => trivial) fun _ (_ : True) => ?_
  exact .bind (operands_continues evaluator frame le strategy _) fun given _ => .refl _ fun _ =>
    trivial

end Limits

theorem nest_continues (frame : FrameId) {limit deeper : Nat} (le : limit ≤ deeper)
    (entries : List (String × Value)) (forms : List Value) :
    (evaluator.nest forms limit frame entries).ContinuedBy (fun _ => True)
      (evaluator.strategy.inScopes (evaluator.run deeper) frame entries forms) := by
  by_cases small : limit < 6
  · rw [nest_shallow evaluator limit frame small]
    exact fun _ within => absurd rfl within
  obtain ⟨limit, rfl⟩ : ∃ less, limit = less + 6 := ⟨limit - 6, by omega⟩
  have entering (entries : List (String × Value)) :=
    enterScope_continues evaluator frame (show limit - 2 ≤ deeper by omega) evaluator.strategy
      entries
  match entries with
  | [] =>
      rw [Strategy.inScopes_nil]
      exact .bind (entering []) fun scope _ => sequence_continues evaluator scope (by omega) forms
  | [entry] =>
      rw [Strategy.inScopes_single]
      exact .bind (entering [entry]) fun scope _ => sequence_continues evaluator scope (by omega)
        forms
  | entry :: next :: rest =>
      rw [Strategy.inScopes_cons, nest]
      exact .bind (entering [entry]) fun scope _ => nest_continues scope (by omega)
        (next :: rest) forms

theorem nest_continued (frame : FrameId) {limit deeper : Nat} (entries : List (String × Value))
    (forms : List Value) (enough : limit + 10 * entries.length + 10 ≤ deeper) :
    (evaluator.strategy.inScopes (evaluator.run limit) frame entries forms).ContinuedBy
      (fun _ => True)
      (evaluator.nest forms deeper frame entries) := by
  obtain ⟨deep, rfl⟩ : ∃ less, deeper = less + 6 := ⟨deeper - 6, by omega⟩
  have entering (entries : List (String × Value)) :=
    enterScope_continues evaluator frame (show limit ≤ deep - 2 by omega) evaluator.strategy entries
  match entries with
  | [] =>
      rw [Strategy.inScopes_nil]
      exact .bind (entering []) fun scope _ => sequence_continues evaluator scope (by omega) forms
  | [entry] =>
      rw [Strategy.inScopes_single]
      exact .bind (entering [entry]) fun scope _ => sequence_continues evaluator scope (by omega)
        forms
  | entry :: next :: rest =>
      rw [Strategy.inScopes_cons, nest]
      simp only [List.length_cons] at enough
      exact .bind (entering [entry]) fun scope _ => nest_continued scope (next :: rest) forms (by
        simp only [List.length_cons]
        omega)

theorem run_scopes (lets : evaluator.forms.find? "let" = some (.derived .namedLet))
    (stars : evaluator.forms.find? "let*" = some (.derived .letStar))
    (procedures : evaluator.forms.find? "lambda" = some .procedure) (frame : FrameId)
    (entries : List (String × Value)) (forms : List Value) :
    (evaluator.run (limit + 1) (.evaluate (Derived.scopesForm entries forms) frame) : Run Value) =
      evaluator.nest forms (limit - 3) frame entries := by
  rw [Derived.scopesForm,
    evaluator.run_derived limit frame "let*" .letStar _ _ stars
      (Derived.expand_letStar entries forms),
    evaluator.run_nestLets (limit - 3) frame lets procedures]

end Evaluator

/-! What a scope is. -/

/-- The second store has one frame more, inside another, with just these bindings, and is else the
same. -/
structure Store.OpensFrame (store : Store) (around : FrameId) (bindings : Bindings)
    (opened : Store) : Prop where
  frame : opened.frames = store.frames.push ⟨bindings, some around, (store.frame around).checked⟩
  rest : { opened with frames := store.frames } = store

theorem Store.OpensFrame.eq_extend {store opened : Store} {around : FrameId} {bindings : Bindings}
    (opens : store.OpensFrame around bindings opened) :
    store.extend around bindings = (store.frames.size, opened) := by
  obtain ⟨frame, rest⟩ := opens
  rw [Store.extend, Store.addFrame, Option.getD_none, ← frame]
  conv_lhs => rw [← rest]

/-- The frames that `let*` makes, one inside the other. Each binds one name, to the argument that is
made for it in the frame before; without a name there is one that binds nothing. -/
inductive Strategy.EntersScopes (strategy : Strategy) (inner : Inner Run) :
    FrameId → Store → List (String × Value) → FrameId → Store → Prop where
  | empty {frame : FrameId} {store opened : Store}
      (opens : store.takeIdentity.2.OpensFrame frame [] opened) :
      EntersScopes strategy inner frame store [] store.frames.size opened
  | single {frame : FrameId} {store made opened : Store} {name : String} {code v : Value}
      (argument : (strategy.argument inner frame code).on store.takeIdentity.2 = (.ok v, made))
      (opens : made.OpensFrame frame [(.sym name, v)] opened) :
      EntersScopes strategy inner frame store [(name, code)] made.frames.size opened
  | around {frame innermost : FrameId} {store made opened after : Store} {name : String}
      {code v : Value}
      {next : String × Value} {rest : List (String × Value)}
      (argument : (strategy.argument inner frame code).on store.takeIdentity.2 = (.ok v, made))
      (opens : made.OpensFrame frame [(.sym name, v)] opened)
      (inside : EntersScopes strategy inner made.frames.size opened (next :: rest) innermost
        after) :
      EntersScopes strategy inner frame store ((name, code) :: next :: rest) innermost after

theorem Strategy.on_enterScope_single {strategy : Strategy} {inner : Inner Run} {frame : FrameId}
    {store made opened : Store} {name : String} {code v : Value}
    (argument : (strategy.argument inner frame code).on store.takeIdentity.2 = (.ok v, made))
    (opens : made.OpensFrame frame [(.sym name, v)] opened) :
    (strategy.enterScope inner frame [(name, code)]).on store = (.ok made.frames.size, opened) := by
  have made_ : (strategy.operands inner frame [code]).on store.takeIdentity.2 =
      (.ok [v], made) := by
    rw [operands_single, Run.on_bind, argument]
    rfl
  have entered := congrArg (fun entered => (Except.ok (ε := Failure) entered.1, entered.2))
    opens.eq_extend
  change (strategy.operands inner frame [code] >>= fun given =>
    Run.make fun store => store.extend frame ([.sym name].zip given)).on store.takeIdentity.2 = _
  rw [Run.on_bind, made_]
  exact entered

theorem Strategy.on_inScopes {strategy : Strategy} {inner : Inner Run} {frame innermost : FrameId}
    {store after : Store} {entries : List (String × Value)}
    (enters : strategy.EntersScopes inner frame store entries innermost after)
    (forms : List Value) :
    (strategy.inScopes inner frame entries forms).on store =
      (inner.sequence innermost forms).on after := by
  induction enters with
  | empty opens =>
      rw [inScopes_nil, enterScope_nil]
      simp only [Run.on_bind, Run.on_make]
      rw [opens.eq_extend]
      rfl
  | single argument opens =>
      rw [inScopes_single, Run.on_bind, on_enterScope_single argument opens]
  | around argument opens inside ih =>
      rw [inScopes_cons, Run.on_bind, on_enterScope_single argument opens]
      exact ih

structure LetStarScopes (evaluator : Evaluator) (frame : FrameId) (entries : List (String × Value))
    (forms : List Value) : Prop where
  /-- the body is done in the innermost scope, under limits that are not passed -/
  nests (limit : Nat) :
    (evaluator.run limit (.evaluate (Derived.scopesForm entries forms) frame) :
      Run Value).ContinuedBy (fun _ => True)
      (evaluator.strategy.inScopes (evaluator.run limit) frame entries forms)
  nested (limit : Nat) :
    (evaluator.strategy.inScopes (evaluator.run limit) frame entries forms).ContinuedBy
      (fun _ => True)
      (evaluator.run (limit + 10 * entries.length + 14)
        (.evaluate (Derived.scopesForm entries forms) frame))
  /-- and under every limit, by the room that each scope is left -/
  levels (limit : Nat) :
    (evaluator.run (limit + 1) (.evaluate (Derived.scopesForm entries forms) frame) : Run Value) =
      evaluator.nest forms (limit - 3) frame entries
  /-- each scope is one new frame inside the frame before, and binds one name in it -/
  scopes (inner : Inner Run) (store : Store) (innermost : FrameId) (after : Store) :
    evaluator.strategy.EntersScopes inner frame store entries innermost after →
      (evaluator.strategy.inScopes inner frame entries forms).on store =
        (inner.sequence innermost forms).on after

/-- `let*` opens one scope inside the other, each with one name, and the argument for a name is made
in the scope before. -/
theorem letStar_nests_scopes (strategy : Strategy) (added : AddedActions) (frame : FrameId)
    (entries : List (String × Value)) (forms : List Value) :
    LetStarScopes ⟨FormTable.full, strategy, added⟩ frame entries forms := by
  let evaluator : Evaluator := ⟨FormTable.full, strategy, added⟩
  have levels (limit : Nat) := evaluator.run_scopes limit rfl rfl rfl frame entries forms
  refine ⟨fun limit => ?_, fun limit => ?_, levels, fun inner store innermost after enters => ?_⟩
  · cases limit with
    | zero => exact fun _ within => absurd rfl within
    | succ limit =>
        have room : limit - 3 ≤ limit + 1 := by omega
        exact levels limit ▸ evaluator.nest_continues frame room entries forms
  · rw [levels]
    exact evaluator.nest_continued frame entries forms (by omega)
  · exact Strategy.on_inScopes enters forms

end ThunkLisp
