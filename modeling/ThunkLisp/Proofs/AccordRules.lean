import ThunkLisp.Proofs.Accord

/-!
Every rule of evaluation is in accord if the tasks inside it are, and so are whole runs, by
induction on the room that is left for calls.
-/

namespace ThunkLisp

open Machine (effect)
open Value (Every)

namespace Accord

variable {a : Accord}

section Rules

variable {inner inner' : Inner Recorded} {r : Recording} {frame : FrameId}

/-! Tasks in a row. -/

theorem InnerLeads.evaluate (leads : a.InnerLeads inner inner') (frame : FrameId) {form : Value}
    (sound : a.sound r) (whole : a.code form) :
    a.Leads (inner.evaluate form frame) (inner'.evaluate form frame) r fun v _ => a.value v :=
  (leads r (.evaluate form frame) sound whole).imp fun _ _ holds => holds.1.1

theorem InnerLeads.concrete (leads : a.InnerLeads inner inner') {v : Value} (sound : a.sound r)
    (value : a.value v) :
    a.Leads (inner.concrete v) (inner'.concrete v) r fun w _ => a.value w ∧ w.isThunk = false := by
  cases v with
  | thunk id => exact (leads r (.force id) sound trivial).imp fun _ _ holds => holds.1
  | _ => exact leads_pure sound ⟨value, rfl⟩

theorem concreteAll_leads (leads : a.InnerLeads inner inner') (given : List Value)
    (sound : a.sound r) (values : ∀ v ∈ given, a.value v) :
    a.Leads (inner.concreteAll given) (inner'.concreteAll given) r
      fun vs _ => ∀ v ∈ vs, a.value v ∧ v.isThunk = false := by
  induction given generalizing r with
  | nil => exact leads_pure sound (by simp)
  | cons first rest ih =>
      refine (leads.concrete sound (values first List.mem_cons_self)).bind
        fun v s sound' _ concrete => ?_
      refine (ih sound' fun v member => values v (.tail _ member)).bind
        fun vs t sound'' _ behind => ?_
      exact leads_pure sound'' (List.forall_mem_cons.mpr ⟨concrete, behind⟩)

theorem evaluateAll_leads (leads : a.InnerLeads inner inner') (forms : List Value)
    (sound : a.sound r) (each : ∀ form ∈ forms, a.code form) :
    a.Leads (inner.evaluateAll frame forms) (inner'.evaluateAll frame forms) r
      fun vs _ => ∀ v ∈ vs, a.value v := by
  induction forms generalizing r with
  | nil => exact leads_pure sound (by simp)
  | cons form rest ih =>
      refine (leads.evaluate frame sound (each form List.mem_cons_self)).bind
        fun v s sound' _ value => ?_
      refine (ih sound' fun form member => each form (.tail _ member)).bind
        fun vs t sound'' _ behind => ?_
      exact leads_pure sound'' (List.forall_mem_cons.mpr ⟨value, behind⟩)

theorem sequence_leads (lawful : a.Lawful) (leads : a.InnerLeads inner inner') (forms : List Value)
    (sound : a.sound r) (each : ∀ form ∈ forms, a.code form) :
    a.Leads (inner.sequence frame forms) (inner'.sequence frame forms) r fun v _ => a.value v := by
  induction forms generalizing r with
  | nil => exact leads_pure sound lawful.value_nil
  | cons form rest ih =>
      have first := leads.evaluate frame sound (each form List.mem_cons_self)
      cases rest with
      | nil => exact first
      | cons next rest =>
          exact first.bind fun _ s sound' _ _ => ih sound' fun form member =>
            each form (.tail _ member)

/-! Special forms. -/

theorem makeProcedure_leads (lawful : a.Lawful) (spec : Value) (body : List Value)
    (sound : a.sound r) (params : a.code spec) (each : ∀ form ∈ body, a.code form) :
    a.LeadsEffect (Form.makeProcedure spec body frame) r fun v _ => a.value v := by
  unfold Form.makeProcedure
  cases parsed : parseParams spec with
  | error fault => exact leads_throw sound
  | ok found =>
      have numbering : a.LeadsEffect (Run.make Store.takeIdentity) r fun _ _ => True :=
        leads_effect (on_takeIdentity r.store) (lawful.numbers r sound) fun _ _ => trivial
      refine numbering.bind fun identity s sound' _ _ => ?_
      exact leads_pure sound' ((Value.every_of_flat rfl).mpr
        (lawful.procedure identity spec found body frame parsed params each))

theorem define_leads (lawful : a.Lawful) {name : String} {v : Value} (sound : a.sound r)
    (target : a.code (.sym name)) (value : a.value v) :
    a.LeadsEffect (Scope.define frame (.sym name) v) r fun w _ => a.value w := by
  apply leads_effect (Scope.on_define frame name v r.store)
    (lawful.binds r frame name v sound value)
  rintro w ⟨⟩
  exact lawful.value_sym target

theorem assign_leads (lawful : a.Lawful) {name : String} {v : Value} (sound : a.sound r)
    (target : a.code (.sym name)) (value : a.value v) :
    a.LeadsEffect (Scope.assign frame (.sym name) v) r fun w _ => a.value w := by
  have ran := Scope.on_assign frame name v r.store
  cases found : r.store.find? frame (.sym name) with
  | none =>
      rw [found] at ran
      exact leads_effect ran sound fun _ same => nomatch same
  | some owner =>
      rw [found] at ran
      apply leads_effect ran (lawful.binds r owner name v sound value)
      rintro w ⟨⟩
      exact lawful.value_sym target

theorem runAssign_leads (lawful : a.Lawful) (leads : a.InnerLeads inner inner')
    (operands : List Value) (sound : a.sound r) (each : ∀ form ∈ operands, a.code form) :
    a.Leads (Form.runAssign inner frame operands) (Form.runAssign inner' frame operands) r
      fun v _ => a.value v := by
  unfold Form.runAssign
  split
  · next name form =>
      refine (leads.evaluate frame sound (each form (by simp))).bind fun v s sound' _ value => ?_
      exact assign_leads lawful sound' (each _ (by simp)) value
  · exact leads_throw sound
  · exact leads_throw sound

theorem runDefine_leads (lawful : a.Lawful) (leads : a.InnerLeads inner inner')
    (operands : List Value) (sound : a.sound r) (each : ∀ form ∈ operands, a.code form) :
    a.Leads (Form.runDefine inner frame operands) (Form.runDefine inner' frame operands) r
      fun v _ => a.value v := by
  unfold Form.runDefine
  split
  · exact leads_throw sound
  · next name form =>
      refine (leads.evaluate frame sound (each form (by simp))).bind fun v s sound' _ value => ?_
      exact define_leads lawful sound' (each _ (by simp)) value
  · exact leads_throw sound
  · next name params body =>
      have target := (Value.every_cons _ _).mp (each (.list (.sym name :: params)) (by simp))
      have making : a.LeadsEffect (Form.makeProcedure (.list params) body frame) r fun v _ =>
          a.value v :=
        makeProcedure_leads lawful (.list params) body sound target.2 fun form member =>
          each form (by simp [member])
      exact Leads.bind making fun v s sound' _ value => define_leads lawful sound' target.1 value
  · exact leads_throw sound

theorem runConditional_leads (lawful : a.Lawful) (leads : a.InnerLeads inner inner')
    (operands : List Value) (sound : a.sound r) (each : ∀ form ∈ operands, a.code form) :
    a.Leads (Form.runConditional inner frame operands) (Form.runConditional inner' frame operands) r
      fun v _ => a.value v := by
  unfold Form.runConditional
  split
  · next test usual =>
      refine (leads.evaluate frame sound (each test (by simp))).bind fun v s sound' _ value => ?_
      refine (leads.concrete sound' value).bind fun decided t sound'' _ _ => ?_
      split
      · exact leads.evaluate frame sound'' (each usual (by simp))
      · exact leads_pure sound'' lawful.value_nil
  · next test usual otherwise =>
      refine (leads.evaluate frame sound (each test (by simp))).bind fun v s sound' _ value => ?_
      refine (leads.concrete sound' value).bind fun decided t sound'' _ _ => ?_
      split
      · exact leads.evaluate frame sound'' (each usual (by simp))
      · exact leads.evaluate frame sound'' (each otherwise (by simp))
  · exact leads_throw sound

theorem form_leads (lawful : a.Lawful) (leads : a.InnerLeads inner inner') (name : String)
    (form : Form) (operands : List Value) (sound : a.sound r)
    (found : FormTable.full.find? name = some form) (each : ∀ operand ∈ operands, a.code operand) :
    a.Leads (form.run inner frame operands) (form.run inner' frame operands) r fun v _ =>
      a.value v := by
  cases form with
  | quote =>
      match operands, each with
      | [datum], each => exact leads_pure sound (lawful.value_of_code (each datum (by simp)))
      | [], _ => exact leads_throw sound
      | _ :: _ :: _, _ => exact leads_throw sound
  | assign => exact runAssign_leads lawful leads operands sound each
  | define => exact runDefine_leads lawful leads operands sound each
  | conditional => exact runConditional_leads lawful leads operands sound each
  | procedure =>
      cases operands with
      | nil => exact leads_throw sound
      | cons spec body =>
          exact makeProcedure_leads lawful spec body sound (each spec List.mem_cons_self)
            fun form member => each form (.tail _ member)
  | sequence => exact sequence_leads lawful leads operands sound each
  | derived form =>
      have expanding : a.LeadsEffect (Run.ofExcept (form.expand operands)) r fun expansion _ =>
          a.code expansion :=
        leads_ofExcept sound fun expansion expanded => every_of_expand lawful.words form each
          expanded
      exact Leads.bind expanding fun expansion s sound' _ whole => leads.evaluate frame sound' whole
  | constant v =>
      -- no form of the table gives a fixed value
      have member := FormTable.mem_of_find? _ _ _ found
      simp [FormTable.full, FormTable.core] at member

/-! Applications. -/

theorem suspend_leads (lawful : a.Lawful) {form : Value} {kept : Bool}
    (lazily : a.strategy ≠ .strict) (sound : a.sound r) (whole : a.code form) :
    a.LeadsEffect (suspend form frame kept) r fun v _ => a.argument v := by
  apply leads_effect (on_suspend form frame kept r.store)
    (lawful.suspends r form frame kept lazily sound whole)
  rintro v ⟨⟩
  exact .inr ⟨lazily, rfl⟩

theorem suspendAll_leads (lawful : a.Lawful) (lazily : a.strategy ≠ .strict) (forms : List Value)
    (sound : a.sound r) (each : ∀ form ∈ forms, a.code form) :
    a.LeadsEffect (suspendAll frame forms) r fun vs _ => ∀ v ∈ vs, a.argument v := by
  induction forms generalizing r with
  | nil => exact leads_pure sound (by simp)
  | cons form rest ih =>
      refine (suspend_leads lawful lazily sound (each form List.mem_cons_self)).bind
        fun v s sound' _ argument => ?_
      refine (ih sound' fun form member => each form (.tail _ member)).bind
        fun vs t sound'' _ behind => ?_
      exact leads_pure sound'' (List.forall_mem_cons.mpr ⟨argument, behind⟩)

theorem argumentsFor_leads (lawful : a.Lawful) (leads : a.InnerLeads inner inner')
    (lazily : a.strategy ≠ .strict) (params : List Param) (forms : List Value) (sound : a.sound r)
    (each : ∀ form ∈ forms, a.code form) :
    a.Leads (argumentsFor inner frame params forms) (argumentsFor inner' frame params forms) r
      fun vs _ => ∀ v ∈ vs, a.argument v := by
  induction params generalizing r forms with
  | nil => exact leads_pure sound (by simp)
  | cons param params ih =>
      cases forms with
      | nil => exact leads_pure sound (by simp)
      | cons form rest =>
          have whole := each form List.mem_cons_self
          have first : a.Leads (argumentFor inner frame param.mode form)
              (argumentFor inner' frame param.mode form)
              r fun v _ => a.argument v := by
            cases param.mode with
            | strict => exact (leads.evaluate frame sound whole).imp fun v _ value => .inl value
            | lazy => exact suspend_leads lawful lazily sound whole
            | lazyMemo => exact suspend_leads lawful lazily sound whole
          refine first.bind fun v s sound' _ argument => ?_
          refine (ih rest sound' fun form member => each form (.tail _ member)).bind
            fun vs t sound'' _ behind => ?_
          exact leads_pure sound'' (List.forall_mem_cons.mpr ⟨argument, behind⟩)

theorem arguments_leads (lawful : a.Lawful) (leads : a.InnerLeads inner inner') (fn : Value)
    (operands : List Value) (sound : a.sound r) (value : a.value fn)
    (each : ∀ form ∈ operands, a.code form) :
    a.Leads (a.strategy.arguments inner fn frame operands)
      (a.other.arguments inner' fn frame operands) r
      fun vs _ => (∀ v ∈ vs, a.argument v) ∧
        ((∀ identity params body home, fn ≠ .procedure identity params body home) →
          ∀ v ∈ vs, a.value v) := by
  have evaluated : a.Leads (inner.evaluateAll frame operands) (inner'.evaluateAll frame operands) r
      fun vs _ => (∀ v ∈ vs, a.argument v) ∧
        ((∀ identity params body home, fn ≠ .procedure identity params body home) →
          ∀ v ∈ vs, a.value v) :=
    (evaluateAll_leads leads operands sound each).imp
      fun vs _ values => ⟨fun v member => .inl (values v member), fun _ => values⟩
  rw [lawful.agrees inner' fn frame operands value]
  unfold Strategy.arguments
  split
  · next lazily =>
      exact (suspendAll_leads lawful (by rw [lazily]; decide) operands sound each).imp
          fun vs _ arguments =>
        ⟨arguments, fun other => absurd rfl (other _ _ _ _)⟩
  · next mixed =>
      split
      · exact (argumentsFor_leads lawful leads (by rw [mixed]; decide) _ operands sound each).imp
          fun vs _ arguments => ⟨arguments, fun other => absurd rfl (other _ _ _ _)⟩
      · exact evaluated
  · exact evaluated

theorem apply_leads (lawful : a.Lawful) (leads : a.InnerLeads inner inner') {head : Value}
    {operands : List Value} {outer : List (Task × Option Value)} (fn : Value) (given : List Value)
    (sound : a.sound r) (ordinary : ∀ name, head = .sym name → FormTable.full.find? name = none)
    (here : underWay r.events = (.evaluate (.list (head :: operands)) frame, some fn) :: outer)
    (value : a.value fn) (arguments : ∀ v ∈ given, a.argument v)
    (values : (∀ identity params body home, fn ≠ .procedure identity params body home) →
    ∀ v ∈ given, a.value v) :
    a.Leads (apply a.added inner fn given) (apply a.added inner' fn given) r fun v _ =>
      a.value v := by
  unfold apply
  split
  · next identity params body home =>
      have entering : a.LeadsEffect (bindParams params home given) r fun _ _ => True := by
        have ran := on_bindParams params home given r.store
        split at ran
        · next fits =>
            exact leads_effect ran (lawful.calls r head operands frame identity params body home
              outer given sound
              ordinary here fits arguments) fun _ _ => trivial
        · exact leads_effect ran sound fun _ _ => trivial
      refine Leads.bind entering fun inside s sound' _ _ => ?_
      exact sequence_leads lawful leads body sound'
        (lawful.body identity params body home ((Value.every_of_flat rfl).mp value))
  · next p =>
      refine (concreteAll_leads leads given sound (values (by simp))).bind
        fun vs s sound' _ found => ?_
      exact lawful.performs s p vs sound' ((Value.every_of_flat rfl).mp value) found
  · exact leads_throw sound

def evaluator (a : Accord) : Evaluator := ⟨FormTable.full, a.strategy, a.added⟩

def evaluator' (a : Accord) : Evaluator := ⟨FormTable.full, a.other, a.added⟩

section Stacks

variable {stack stack' : Stack Recorded}

theorem combination_leads (lawful : a.Lawful) (leads : a.StackLeads stack stack') {head : Value}
    {operands : List Value} {outer : List (Task × Option Value)} (sound : a.sound r)
    (here : underWay r.events = (.evaluate (.list (head :: operands)) frame, none) :: outer)
    (whole : a.code (.list (head :: operands))) :
    a.Leads (a.evaluator.evaluateCombination stack head operands frame)
      (a.evaluator'.evaluateCombination stack' head operands frame) r fun v _ => a.value v := by
  have parts := (Value.every_cons _ _).mp whole
  have each := (Value.every_list _).mp parts.2
  have same : a.evaluator'.form? head = a.evaluator.form? head := by cases head <;> rfl
  unfold Evaluator.evaluateCombination
  rw [same]
  cases found : a.evaluator.form? head with
  | some form =>
      cases head with
      | sym name => exact form_leads lawful (leads.above
          (Nat.le_refl _)) name form operands sound found each
      | _ => cases found
  | none =>
      have ordinary : ∀ name, head = .sym name → FormTable.full.find? name = none := by
        rintro name rfl
        exact found
      refine Leads.bind (leads 0 0 (Nat.le_refl 0) r (.evaluate head frame) sound parts.1)
        fun fn s sound' _ made => ?_
      obtain ⟨⟨value, -⟩, called⟩ := made
      rw [here] at called
      -- the head has answered the combination, and evaluating the operands does not change that
      have inside := leads.above (lawful.shallower fn operands)
      refine (arguments_leads lawful inside fn operands sound' value each).bind
        fun given t sound'' follows made => ?_
      exact apply_leads lawful (leads.above (Nat.le_refl _)) fn given sound'' ordinary
        (follows.underWay_eq called) value made.1 made.2

end Stacks

/-! Tasks. -/

theorem evaluateVariable_leads (lawful : a.Lawful) (leads : a.InnerLeads inner inner')
    (name : String) (sound : a.sound r) :
    a.Leads (Evaluator.evaluateVariable inner name frame)
      (Evaluator.evaluateVariable inner' name frame) r
      fun v _ => a.value v ∧ v.isThunk = false := by
  have looking : a.LeadsEffect (Scope.lookup frame (.sym name)) r fun v _ => a.argument v := by
    rcases Scope.on_lookup_cases frame name r.store with ⟨v, bound, ran⟩ | ⟨failure, ran⟩
    · apply leads_effect ran sound
      rintro w ⟨⟩
      exact lawful.bound r frame name v sound bound
    · exact leads_effect ran sound fun _ same => nomatch same
  refine Leads.bind looking fun found s sound' _ argument => ?_
  split
  · next id =>
      refine (leads s (.force id) sound' trivial).bind fun v t sound'' _ forced => ?_
      rcases Scope.on_checkAssigned_cases frame (.sym name) v t.store with ran | ⟨_, _, ran⟩
      · apply leads_effect ran sound''
        rintro w ⟨⟩
        exact forced.1
      · exact leads_effect ran sound'' fun _ same => nomatch same
  · next plainly =>
      have concrete : found.isThunk = false := by
        cases found <;> first | rfl | exact absurd rfl (plainly _)
      rcases argument with value | ⟨_, suspended⟩
      · exact leads_pure sound' ⟨value, concrete⟩
      · rw [concrete] at suspended
        cases suspended

theorem force_leads (lawful : a.Lawful) (leads : a.InnerLeads inner inner') (id : ThunkId)
    (sound : a.sound r) :
    a.Leads (inner.force id) (inner'.force id) r fun v _ => a.value v ∧ v.isThunk = false := by
  have reading : a.LeadsEffect (Run.read fun store => store.thunk id) r
      fun suspension s => s = r ∧ suspension = r.store.thunk id := by
    apply leads_effect (Run.on_read _ r.store) sound
    rintro suspension ⟨⟩
    exact ⟨rfl, rfl⟩
  refine Leads.bind reading fun suspension s _ _ here => ?_
  obtain ⟨rfl, here⟩ := here
  split
  · next v => exact leads_pure sound (lawful.settled s id v sound here.symm)
  · next form home kept =>
      have whole := lawful.waiting s id form home kept sound here.symm
      refine (leads.evaluate home sound whole).bind fun v t sound' _ value => ?_
      refine (leads.concrete sound' value).bind fun w u sound'' _ concrete => ?_
      split
      · have settling : a.LeadsEffect (Run.change fun store => store.settle id w) u fun _ _ =>
            True :=
          leads_effect (Run.on_change _ u.store)
            (lawful.settles u id w sound'' concrete.1 concrete.2)
            fun _ _ => trivial
        exact Leads.bind settling fun _ _ sound₃ _ _ => leads_pure sound₃ concrete
      · exact leads_pure sound'' concrete

theorem step_leads (lawful : a.Lawful) {stack stack' : Stack Recorded}
    (leads : a.StackLeads stack stack') (task : Task) {outer : List (Task × Option Value)}
    (sound : a.sound r) (ready : a.ready task) (here : underWay r.events = (task, none) :: outer) :
    a.Leads (a.evaluator.step stack task) (a.evaluator'.step stack' task) r
      fun v _ => a.done task v := by
  cases task with
  | force id => exact force_leads lawful (leads.above (Nat.le_refl _)) id sound
  | evaluate form frame =>
      simp only [Evaluator.step]
      unfold Evaluator.evaluate
      split
      · next name => exact (evaluateVariable_leads lawful (leads 0 0 (Nat.le_refl 0))
          name sound).imp fun v _ holds => ⟨holds.1, fun _ => holds.2⟩
      · next unnamed =>
          have done (v : Value) (value : a.value v) : a.done (.evaluate form frame) v :=
            ⟨value, fun ⟨name, same⟩ => absurd same (unnamed name)⟩
          split
          · exact leads_pure sound (done form (lawful.value_of_code ready))
          · have splitting : a.LeadsEffect (Run.ofExcept (Evaluator.splitCombination form)) r
                fun parts s => s = r ∧ form = .list (parts.1 :: parts.2) := by
              apply leads_ofExcept sound
              intro parts found
              unfold Evaluator.splitCombination at found
              split at found <;> cases found
              exact ⟨rfl, rfl⟩
            refine Leads.bind splitting fun parts s _ _ same => ?_
            obtain ⟨rfl, rfl⟩ := same
            exact (combination_leads lawful leads sound here ready).imp fun v _ => done v

end Rules

theorem task_leads (lawful : a.Lawful) {x y : Recorded Value} {r : Recording} {task : Task}
    (sound : a.sound r) (ready : a.ready task) (doing :
    a.sound (r.beginning task) → a.Leads x y (r.beginning task) fun v _ => a.done task v) :
    a.Leads (Machine.duringTask task x) (Machine.duringTask task y) r fun v s =>
      a.done task v ∧ underWay s.events = answered (.ok v) (underWay r.events) := by
  obtain ⟨outcome, after, ran, ran', follows, sound', answer⟩ :=
    doing (lawful.begins r task sound ready)
  have ended := follows.underWay_ending r.store outcome
  refine ⟨outcome, after.ending task r.store outcome, fun within => ?_, ?_, ⟨outcome, ended⟩,
    lawful.ends after task r.store outcome sound' answer, ?_⟩
  · simp [Recorded.on_duringTask, ran within]
  · simp [Recorded.on_duringTask, ran']
  · rintro v rfl
    exact ⟨answer v rfl, ended⟩

/-- Every task that is ready is done in accord, whatever room there is for calls. The first
evaluator needs no more of it than the second. -/
theorem run_leads (lawful : a.Lawful) {limit limit' : Nat} (le : limit' ≤ limit) :
    a.InnerLeads (a.evaluator.run limit) (a.evaluator'.run limit') := by
  induction limit' using Nat.strongRecOn generalizing limit with
  | ind limit' ih =>
      intro r task sound ready
      cases limit' with
      | zero => exact leads_recursion sound
      | succ less =>
          obtain ⟨room, rfl⟩ : ∃ room, limit = room + 1 := ⟨limit - 1, by omega⟩
          -- after calls, of which the second has made more, it has less room than the first
          have inside : a.StackLeads (a.evaluator.stack room) (a.evaluator'.stack less) := by
            intro calls calls' more
            rw [Evaluator.stack_eq_run, Evaluator.stack_eq_run]
            exact ih (less - calls') (by omega) (by omega)
          exact task_leads lawful sound ready fun begun =>
            step_leads lawful inside task begun ready rfl

theorem above_leads (lawful : a.Lawful) (limit calls : Nat) :
    a.InnerLeads ((a.evaluator.stack limit).above calls)
      ((a.evaluator'.stack limit).above calls) := by
  intro r task
  rw [Evaluator.above_stack, Evaluator.above_stack]
  exact run_leads lawful (Nat.le_refl _) r task

end Accord

end ThunkLisp
