import ThunkLisp.Proofs.Effects
import ThunkLisp.Proofs.Recording
import ThunkLisp.Proofs.Shapes

/-!
Couplings. Two machines do the same tasks side by side. A coupling says how their computations are
related and which code and which values may come up; its laws are about single effects. If the tasks
inside a task are related, then so is every rule of evaluation, and what is handed on to be
evaluated is only what the code is made of. No law looks at the room that is left. A name gets a
value only at the end of a task that is an assignment or a definition of it.
-/

namespace ThunkLisp

open Machine (effect)

/-- The operands of a form, and parts of them, that may have to be evaluated, at once or when a
procedure of the form is applied. A quoted datum is none, and neither are names and parameter lists.
-/
inductive Form.Part : Form → List Value → Value → Prop where
  | assigned (name : String) (code : Value) : Part .assign [.sym name, code] code
  | defined (name : String) (code : Value) : Part .define [.sym name, code] code
  | definedBody (name : String) (params body : List Value) (code : Value) (member : code ∈ body) :
      Part .define (.list (.sym name :: params) :: body) code
  | branch (operands : List Value) (code : Value) (member : code ∈ operands) :
      Part .conditional operands code
  | body (spec : Value) (body : List Value) (code : Value) (member : code ∈ body) :
      Part .procedure (spec :: body) code
  | step (operands : List Value) (code : Value) (member : code ∈ operands) :
      Part .sequence operands code
  | expansion (form : Derived) (operands : List Value) (code : Value)
      (expanded : form.expand operands = .ok code) :
      Part (.derived form) operands code

/-- What may have to be evaluated because a piece of code is. -/
inductive Subcode (forms : FormTable) : Value → Value → Prop where
  | form (word : String) (form : Form) (operands : List Value) (code : Value)
      (found : forms.find? word = some form) (part : form.Part operands code) :
      Subcode forms (.list (.sym word :: operands)) code
  | applied (head : Value) (operands : List Value) (code : Value)
      (ordinary : ∀ word, head = .sym word → forms.find? word = none)
        (member : code ∈ head :: operands) :
      Subcode forms (.list (head :: operands)) code

theorem Subcode.of_form {forms : FormTable} {word : String} {form : Form} {operands : List Value}
    {code : Value} (found : forms.find? word = some form)
    (part : Subcode forms (.list (.sym word :: operands)) code) :
    form.Part operands code := by
  generalize same : Value.list (.sym word :: operands) = whole at part
  cases part with
  | form _ other _ _ found' part =>
      simp only [Value.list.injEq, List.cons.injEq, Value.sym.injEq] at same
      obtain ⟨rfl, rfl⟩ := same
      rw [found] at found'
      cases found'
      exact part
  | applied _ _ _ ordinary _ =>
      simp only [Value.list.injEq, List.cons.injEq] at same
      have absent := ordinary word same.1.symm
      rw [found] at absent
      cases absent

theorem Subcode.of_call {forms : FormTable} {head : Value} {operands : List Value} {code : Value}
    (ordinary : ∀ word, head = .sym word → forms.find? word = none)
    (part : Subcode forms (.list (head :: operands)) code) : code ∈ head :: operands := by
  generalize same : Value.list (head :: operands) = whole at part
  cases part with
  | form word _ _ _ found _ =>
      simp only [Value.list.injEq, List.cons.injEq] at same
      have absent := ordinary word same.1
      rw [found] at absent
      cases absent
  | applied _ _ _ _ member =>
      simp only [Value.list.injEq, List.cons.injEq] at same
      obtain ⟨rfl, rfl⟩ := same
      exact member

inductive Task.Assigns (forms : FormTable) (frame : FrameId) (name : String) : Task → Prop where
  | value (word : String) (code : Value) (found : forms.find? word = some .assign) :
      Assigns forms frame name (.evaluate (.list [.sym word, .sym name, code]) frame)

inductive Task.Defines (forms : FormTable) (frame : FrameId) (name : String) : Task → Prop where
  | value (word : String) (code : Value) (found : forms.find? word = some .define) :
      Defines forms frame name (.evaluate (.list [.sym word, .sym name, code]) frame)
  | procedure (word : String) (params body : List Value) (found : forms.find? word = some .define) :
      Defines forms frame name (.evaluate (.list (.sym word :: .list (.sym name :: params) :: body))
        frame)

/-- Laws of code, of values and of failures. The parts of code are code, and
what is evaluated to itself or quoted is a value. -/
structure CodeLaws (forms : FormTable) (code value : Value → Prop) (fails : Failure → Prop) :
    Prop where
  usual {failure : Failure} : failure.Usual → fails failure
  stuck (form : Value) (failure : Failure) : code form → (∀ name, form ≠ .sym name) →
    form.isSelfEvaluating = false → Evaluator.splitCombination form = .error failure → fails failure
  part (whole form : Value) : code whole → Subcode forms whole form → code form
  quoted (word : String) (datum : Value) : forms.find? word = some .quote →
    code (.list [.sym word, datum]) → value datum
  constant (word : String) (v : Value) : forms.find? word = some (.constant v) → value v
  itself (form : Value) : code form → form.isSelfEvaluating = true → value form
  nil : value .nil
  sym (name : String) : value (.sym name)
  body (identity : Nat) (params : List Param) (body : List Value) (home : FrameId) :
    value (.procedure identity params body home) ↔ ∀ form ∈ body, code form

theorem CodeLaws.all (forms : FormTable) : CodeLaws forms (fun _ => True) (fun _ => True)
    (fun _ => True) := by
  constructor <;> intros <;> simp

variable {m n : Type → Type} [Monad m] [Machine m] [Monad n] [Machine n]

structure Coupling (m n : Type → Type) where
  /-- The computations are related, and the results that they give meet the condition. -/
  holds {α : Type} : (α → Prop) → m α → n α → Prop
  /-- The computations are related as ways to do the task, up to its end. -/
  does : Task → m Value → n Value → Prop
  code : Value → Prop
  value : Value → Prop
  fails : Failure → Prop

namespace Coupling

variable (c : Coupling m n)

def HoldsEffect {α : Type} (post : α → Prop) (x : Run α) : Prop :=
  c.holds post (effect x) (effect x)

def ready : Task → Prop
  | .evaluate code _ => c.code code
  | .force _ => True

def InnerHolds (inner : Inner m) (inner' : Inner n) : Prop :=
  ∀ task, c.ready task → c.holds c.value (inner task) (inner' task)

def StackHolds (stack : Stack m) (stack' : Stack n) : Prop :=
  ∀ calls, c.InnerHolds (stack calls) (stack' calls)

omit [Monad m] [Machine m] [Monad n] [Machine n] in
theorem StackHolds.above {c : Coupling m n} {stack : Stack m} {stack' : Stack n}
    (related : c.StackHolds stack stack') (calls : Nat) :
    c.InnerHolds (stack.above calls) (stack'.above calls) :=
  fun task ready => related (calls + task.calls) task ready

theorem StackHolds.of_runs {c : Coupling m n} (evaluator : Evaluator) (limit : Nat)
    (related : ∀ smaller ≤ limit, c.InnerHolds (evaluator.run smaller) (evaluator.run smaller)) :
    c.StackHolds (evaluator.stack limit) (evaluator.stack limit) := by
  intro calls
  rw [Evaluator.stack_eq_run, Evaluator.stack_eq_run]
  exact related _ (Nat.sub_le limit calls)

structure Lawful (evaluator : Evaluator) : Prop extends CodeLaws evaluator.forms c.code c.value
    c.fails where
  gives {α : Type} {post : α → Prop} {v : α} : post v → c.holds post (pure v) (pure v)
  chains {α β : Type} {between : α → Prop} {post : β → Prop} {x : m α} {y : n α} {next : α → m β}
    {following : α → n β} : c.holds between x y →
      (∀ v, between v → c.holds post (next v) (following v)) →
      c.holds post (x >>= next) (y >>= following)
  finishes {task : Task} {x : m Value} {y : n Value} : c.holds c.value x y → c.does task x y
  chainsEnd {α : Type} {between : α → Prop} {task : Task} {x : m α} {y : n α} {next : α → m Value}
    {following : α → n Value} : c.holds between x y →
      (∀ v, between v → c.does task (next v) (following v)) →
      c.does task (x >>= next) (y >>= following)
  effectGives {α : Type} {post : α → Prop} {v : α} : post v → c.HoldsEffect post (pure v)
  effectChains {α β : Type} {between : α → Prop} {post : β → Prop} {x : Run α} {next : α → Run β} :
    c.HoldsEffect between x → (∀ v, between v → c.HoldsEffect post (next v)) →
      c.HoldsEffect post (x >>= next)
  refuses {α : Type} {post : α → Prop} {failure : Failure} :
    c.fails failure → c.HoldsEffect post (throw failure)
  lookup (frame : FrameId) (name : String) : c.HoldsEffect c.value (Scope.lookup frame (.sym name))
  check (frame : FrameId) (name : String) (v : Value) : c.value v →
    c.HoldsEffect c.value (Scope.checkAssigned frame (.sym name) v)
  assign (task : Task) (frame : FrameId) (name : String) (v : Value) :
    task.Assigns evaluator.forms frame name →
    c.value v → c.does task (effect (Scope.assign frame (.sym name) v))
      (effect (Scope.assign frame (.sym name) v))
  define (task : Task) (frame : FrameId) (name : String) (v : Value) :
    task.Defines evaluator.forms frame name →
    c.value v → c.does task (effect (Scope.define frame (.sym name) v))
      (effect (Scope.define frame (.sym name) v))
  identity : c.HoldsEffect (fun _ => True) (Run.make Store.takeIdentity)
  suspend (code : Value) (frame : FrameId) (kept : Bool) : c.code code →
    c.HoldsEffect c.value (ThunkLisp.suspend code frame kept)
  enter (params : List Param) (home : FrameId) (given : List Value) : (∀ v ∈ given, c.value v) →
    c.HoldsEffect (fun _ => True) (bindParams params home given)
  perform (p : Primitive) (given : List Value) : c.value (.primitive p) → (∀ v ∈ given, c.value v) →
    c.holds c.value (Machine.duringPrimitive p given
      (effect (p.operation.run evaluator.added given)))
      (Machine.duringPrimitive p given (effect (p.operation.run evaluator.added given)))
  force (inner : Inner m) (inner' : Inner n) (id : ThunkId) : c.InnerHolds inner inner' →
    c.holds c.value (inner.force id) (inner'.force id)

namespace Lawful

variable {c} {evaluator : Evaluator} {inner : Inner m} {inner' : Inner n} {stack : Stack m}
  {stack' : Stack n}
  {frame : FrameId}
variable (lawful : c.Lawful evaluator)

include lawful

/-! Tasks in a row. -/

theorem concrete_holds (related : c.InnerHolds inner inner') {v : Value} (value : c.value v) :
    c.holds c.value (inner.concrete v) (inner'.concrete v) := by
  cases v with
  | thunk id => exact related (.force id) trivial
  | _ => exact lawful.gives value

theorem concreteAll_holds (related : c.InnerHolds inner inner') (given : List Value)
    (values : ∀ v ∈ given, c.value v) :
    c.holds (fun vs => ∀ v ∈ vs, c.value v) (inner.concreteAll given)
      (inner'.concreteAll given) := by
  induction given with
  | nil => exact lawful.gives (by simp)
  | cons first rest ih =>
      refine lawful.chains (lawful.concrete_holds related (values first List.mem_cons_self))
        fun v value => ?_
      refine lawful.chains (ih fun v member => values v (.tail _ member)) fun vs behind => ?_
      exact lawful.gives (List.forall_mem_cons.mpr ⟨value, behind⟩)

theorem evaluateAll_holds (related : c.InnerHolds inner inner') (codes : List Value)
    (each : ∀ code ∈ codes, c.code code) :
    c.holds (fun vs => ∀ v ∈ vs, c.value v) (inner.evaluateAll frame codes)
      (inner'.evaluateAll frame codes) := by
  induction codes with
  | nil => exact lawful.gives (by simp)
  | cons code rest ih =>
      refine lawful.chains (related (.evaluate code frame) (each code List.mem_cons_self))
        fun v value => ?_
      refine lawful.chains (ih fun code member => each code (.tail _ member)) fun vs behind => ?_
      exact lawful.gives (List.forall_mem_cons.mpr ⟨value, behind⟩)

theorem sequence_holds (related : c.InnerHolds inner inner') (codes : List Value)
    (each : ∀ code ∈ codes, c.code code) :
    c.holds c.value (inner.sequence frame codes) (inner'.sequence frame codes) := by
  induction codes with
  | nil => exact lawful.gives lawful.nil
  | cons code rest ih =>
      have first := related (.evaluate code frame) (each code List.mem_cons_self)
      cases rest with
      | nil => exact first
      | cons next behind =>
          exact lawful.chains first fun _ _ => ih fun code member => each code (.tail _ member)

/-! Special forms. -/

theorem refusesUsual {α : Type} {post : α → Prop} {failure : Failure} (usual : failure.Usual) :
    c.HoldsEffect post (throw failure) :=
  lawful.refuses (lawful.usual usual)

theorem ofExcept_holds {α : Type} {post : α → Prop} {outcome : Except Failure α}
    (gives : ∀ v, outcome = .ok v → post v)
    (refuses : ∀ failure, outcome = .error failure → c.fails failure) :
    c.HoldsEffect post (Run.ofExcept outcome) := by
  cases outcome with
  | ok v => exact lawful.effectGives (gives v rfl)
  | error failure => exact lawful.refuses (refuses failure rfl)

theorem makeProcedure_holds (spec : Value) (body : List Value) (each : ∀ code ∈ body, c.code code) :
    c.HoldsEffect c.value (Form.makeProcedure spec body frame) := by
  unfold Form.makeProcedure
  cases parsed : parseParams spec with
  | error fault => exact lawful.refusesUsual (usual_of_parseParams spec fault parsed)
  | ok params =>
      refine lawful.effectChains lawful.identity fun identity _ => ?_
      exact lawful.effectGives ((lawful.body identity params body frame).mpr each)

theorem runAssign_does (related : c.InnerHolds inner inner') (word : String) (operands : List Value)
    (found : evaluator.forms.find? word = some .assign)
    (whole : c.code (.list (.sym word :: operands))) :
    c.does (.evaluate (.list (.sym word :: operands)) frame) (Form.runAssign inner frame operands)
      (Form.runAssign inner' frame operands) := by
  unfold Form.runAssign
  split
  · next name code =>
      have part := lawful.part _ code whole (.form word _ _ _ found (.assigned name code))
      exact lawful.chainsEnd (related (.evaluate code frame) part) fun v value =>
        lawful.assign _ frame name v (.value word code found) value
  · exact lawful.finishes (lawful.refusesUsual (by rintro _ ⟨⟩))
  · exact lawful.finishes (lawful.refusesUsual (by rintro _ ⟨⟩))

theorem runDefine_does (related : c.InnerHolds inner inner') (word : String) (operands : List Value)
    (found : evaluator.forms.find? word = some .define)
    (whole : c.code (.list (.sym word :: operands))) :
    c.does (.evaluate (.list (.sym word :: operands)) frame) (Form.runDefine inner frame operands)
      (Form.runDefine inner' frame operands) := by
  unfold Form.runDefine
  split
  · exact lawful.finishes (lawful.refusesUsual (by rintro _ ⟨⟩))
  · next name code =>
      have part := lawful.part _ code whole (.form word _ _ _ found (.defined name code))
      exact lawful.chainsEnd (related (.evaluate code frame) part) fun v value =>
        lawful.define _ frame name v (.value word code found) value
  · exact lawful.finishes (lawful.refusesUsual (by rintro _ ⟨⟩))
  · next name params body =>
      have each : ∀ code ∈ body, c.code code := fun code member =>
        lawful.part _ code whole (.form word _ _ _ found
          (.definedBody name params body code member))
      exact lawful.chainsEnd (lawful.makeProcedure_holds (.list params) body each) fun v value =>
        lawful.define _ frame name v (.procedure word params body found) value
  · exact lawful.finishes (lawful.refusesUsual (by rintro _ ⟨⟩))

theorem runConditional_holds (related : c.InnerHolds inner inner') (operands : List Value)
    (each : ∀ code ∈ operands, c.code code) :
    c.holds c.value (Form.runConditional inner frame operands)
      (Form.runConditional inner' frame operands) := by
  have testing {branch : Value → m Value} {branch' : Value → n Value} (test : Value)
      (part : c.code test)
      (branches : ∀ decided, c.value decided → c.holds c.value (branch decided) (branch' decided)) :
      c.holds c.value (do branch (← inner.concrete (← inner.evaluate test frame)))
        (do branch' (← inner'.concrete (← inner'.evaluate test frame))) := by
    refine lawful.chains (related (.evaluate test frame) part) fun v value => ?_
    exact lawful.chains (lawful.concrete_holds related value) branches
  unfold Form.runConditional
  split
  · next test usual =>
      refine testing test (each test (by simp)) fun decided _ => ?_
      split
      · exact related (.evaluate usual frame) (each usual (by simp))
      · exact lawful.gives lawful.nil
  · next test usual otherwise =>
      refine testing test (each test (by simp)) fun decided _ => ?_
      split
      · exact related (.evaluate usual frame) (each usual (by simp))
      · exact related (.evaluate otherwise frame) (each otherwise (by simp))
  · exact lawful.refusesUsual (by rintro _ ⟨⟩)

theorem form_does (related : c.InnerHolds inner inner') (word : String) (form : Form)
    (operands : List Value) (found : evaluator.forms.find? word = some form)
    (whole : c.code (.list (.sym word :: operands))) :
    c.does (.evaluate (.list (.sym word :: operands)) frame) (form.run inner frame operands)
      (form.run inner' frame operands) := by
  -- all but the two forms that give a name a value have their value before the task ends
  cases form with
  | assign => exact lawful.runAssign_does related word operands found whole
  | define => exact lawful.runDefine_does related word operands found whole
  | quote =>
      refine lawful.finishes ?_
      match operands, whole with
      | [datum], whole => exact lawful.gives (lawful.quoted word datum found whole)
      | [], _ => exact lawful.refusesUsual (by rintro _ ⟨⟩)
      | _ :: _ :: _, _ => exact lawful.refusesUsual (by rintro _ ⟨⟩)
  | conditional =>
      exact lawful.finishes <| lawful.runConditional_holds related operands fun code member =>
        lawful.part _ code whole (.form word _ _ _ found (.branch operands code member))
  | procedure =>
      refine lawful.finishes ?_
      cases operands with
      | nil => exact lawful.refusesUsual (by rintro _ ⟨⟩)
      | cons spec body =>
          exact lawful.makeProcedure_holds spec body fun code member =>
            lawful.part _ code whole (.form word _ _ _ found (.body spec body code member))
  | sequence =>
      exact lawful.finishes <| lawful.sequence_holds related operands fun code member =>
        lawful.part _ code whole (.form word _ _ _ found (.step operands code member))
  | derived form =>
      have expanding : c.HoldsEffect c.code (Run.ofExcept (form.expand operands)) :=
        lawful.ofExcept_holds
          (fun code expanded => lawful.part _ code whole
            (.form word _ _ _ found (.expansion form operands code expanded)))
          fun failure failed => lawful.usual (usual_of_expand form operands failure failed)
      exact lawful.finishes (lawful.chains expanding fun code part =>
        related (.evaluate code frame) part)
  | constant v => exact lawful.finishes (lawful.gives (lawful.constant word v found))

/-! Applications. -/

theorem suspendAll_holds (codes : List Value) (each : ∀ code ∈ codes, c.code code) :
    c.HoldsEffect (fun vs => ∀ v ∈ vs, c.value v) (suspendAll frame codes) := by
  induction codes with
  | nil => exact lawful.effectGives (by simp)
  | cons code rest ih =>
      refine lawful.effectChains (lawful.suspend code frame false (each code List.mem_cons_self))
        fun v value => ?_
      refine lawful.effectChains (ih fun code member => each code (.tail _ member))
        fun vs behind => ?_
      exact lawful.effectGives (List.forall_mem_cons.mpr ⟨value, behind⟩)

theorem argumentsFor_holds (related : c.InnerHolds inner inner') (params : List Param)
    (codes : List Value) (each : ∀ code ∈ codes, c.code code) :
    c.holds (fun vs => ∀ v ∈ vs, c.value v) (argumentsFor inner frame params codes)
      (argumentsFor inner' frame params codes) := by
  induction params generalizing codes with
  | nil => exact lawful.gives (by simp)
  | cons param params ih =>
      cases codes with
      | nil => exact lawful.gives (by simp)
      | cons code rest =>
          have part := each code List.mem_cons_self
          -- an operand is evaluated or suspended, and in both cases a value comes of it
          have first : c.holds c.value (argumentFor inner frame param.mode code)
              (argumentFor inner' frame param.mode code) := by
            cases param.mode with
            | strict => exact related (.evaluate code frame) part
            | lazy => exact lawful.suspend code frame false part
            | lazyMemo => exact lawful.suspend code frame true part
          refine lawful.chains first fun v value => ?_
          refine lawful.chains (ih rest fun code member => each code (.tail _ member))
            fun vs behind => ?_
          exact lawful.gives (List.forall_mem_cons.mpr ⟨value, behind⟩)

theorem arguments_holds (related : c.InnerHolds inner inner') (strategy : Strategy) (fn : Value)
    (operands : List Value) (each : ∀ code ∈ operands, c.code code) :
    c.holds (fun vs => ∀ v ∈ vs, c.value v) (strategy.arguments inner fn frame operands)
      (strategy.arguments inner' fn frame operands) := by
  have evaluated : c.holds (fun vs => ∀ v ∈ vs, c.value v) (inner.evaluateAll frame operands)
      (inner'.evaluateAll frame operands) := lawful.evaluateAll_holds related operands each
  unfold Strategy.arguments
  split
  · exact lawful.suspendAll_holds operands each
  · split
    · exact lawful.argumentsFor_holds related _ operands each
    · exact evaluated
  · exact evaluated

theorem apply_holds (related : c.InnerHolds inner inner') (fn : Value) (given : List Value)
    (applied : c.value fn) (values : ∀ v ∈ given, c.value v) :
    c.holds c.value (apply evaluator.added inner fn given)
      (apply evaluator.added inner' fn given) := by
  unfold apply
  split
  · next identity params body home =>
      refine lawful.chains (lawful.enter params home given values) fun inside _ => ?_
      exact lawful.sequence_holds related body ((lawful.body identity params body home).mp applied)
  · next p =>
      refine lawful.chains (lawful.concreteAll_holds related given values) fun vs concrete => ?_
      exact lawful.perform p vs applied concrete
  · exact lawful.refusesUsual (by rintro _ ⟨⟩)

theorem combination_does (related : c.StackHolds stack stack') (head : Value)
    (operands : List Value) (whole : c.code (.list (head :: operands))) :
    c.does (.evaluate (.list (head :: operands)) frame)
      (evaluator.evaluateCombination stack head operands frame)
      (evaluator.evaluateCombination stack' head operands frame) := by
  unfold Evaluator.evaluateCombination
  cases found : evaluator.form? head with
  | some form =>
      cases head with
      | sym word => exact lawful.form_does (related.above form.calls) word form operands found whole
      | _ => cases found
  | none =>
      have ordinary : ∀ word, head = .sym word → evaluator.forms.find? word = none := by
        rintro word rfl
        exact found
      have each : ∀ code ∈ head :: operands, c.code code := fun code member =>
        lawful.part _ code whole (.applied head operands code ordinary member)
      refine lawful.finishes ?_
      -- the operator, the arguments as the strategy has them, and the application
      refine lawful.chains (related 0 (.evaluate head frame)
        (each head List.mem_cons_self)) fun fn applied => ?_
      refine lawful.chains (lawful.arguments_holds (related.above _) evaluator.strategy fn operands
        fun code member => each code (.tail _ member)) fun given values => ?_
      exact lawful.apply_holds (related.above appliedCalls) fn given applied values

/-! Tasks. -/

theorem evaluateVariable_holds (related : c.InnerHolds inner inner') (name : String) :
    c.holds c.value (Evaluator.evaluateVariable inner name frame)
      (Evaluator.evaluateVariable inner' name frame) := by
  refine lawful.chains (lawful.lookup frame name) fun found value => ?_
  split
  · next id => exact lawful.chains (related
      (.force id) trivial) fun v forced => lawful.check frame name v forced
  · exact lawful.gives value

theorem evaluate_does (related : c.StackHolds stack stack') (code : Value) (part : c.code code) :
    c.does (.evaluate code frame) (evaluator.evaluate stack code frame)
      (evaluator.evaluate stack' code frame) := by
  unfold Evaluator.evaluate
  split
  · next name => exact lawful.finishes (lawful.evaluateVariable_holds (related 0) name)
  · next unnamed =>
      split
      · next itself => exact lawful.finishes (lawful.gives (lawful.itself code part itself))
      · next other =>
          -- only here can code turn out to be no expression
          have splitting : c.HoldsEffect (fun parts => code = .list (parts.1 :: parts.2))
              (Run.ofExcept (Evaluator.splitCombination code)) := by
            refine lawful.ofExcept_holds (fun parts found => ?_) fun failure failed =>
              lawful.stuck code failure part unnamed (by simpa using other) failed
            unfold Evaluator.splitCombination at found
            split at found <;> cases found
            rfl
          refine lawful.chainsEnd splitting fun parts same => ?_
          subst same
          exact lawful.combination_does related parts.1 parts.2 part

/-- A rule relates what it does if the tasks inside are related. -/
theorem step_does (related : c.StackHolds stack stack') (task : Task) (ready : c.ready task) :
    c.does task (evaluator.step stack task) (evaluator.step stack' task) := by
  cases task with
  | evaluate code frame => exact lawful.evaluate_does related code ready
  | force id => exact lawful.finishes (lawful.force _ _ id (related.above 0))

end Lawful

end Coupling

end ThunkLisp
