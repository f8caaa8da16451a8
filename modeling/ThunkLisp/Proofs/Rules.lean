import ThunkLisp.Proofs.Discipline

/-!
The rules of evaluation keep a lawful discipline, each if the tasks inside it do. The one form that
they leave out is `letrec`, which builds more than code.
-/

namespace ThunkLisp

open Machine (effect)
open Value (Every)

namespace Discipline

variable {d : Discipline} {added : AddedActions} {strategy : Strategy}

section Rules

variable {inner : Inner Recorded} {plain : Inner Run} {r : Recording} {frame : FrameId}

/-! Tasks in a row. -/

theorem evaluate_keeps (keeps : d.InnerKeeps inner plain) {code : Value} (sound : d.sound r)
    (present : d.present r frame) (whole : d.code r frame code) :
    d.Keeps (inner.evaluate code frame) (plain.evaluate code frame) r fun v s => d.value s v :=
  (keeps r (.evaluate code frame) sound ⟨present, .inl whole⟩).imp fun _ _ _ done => done.1 whole

theorem concrete_keeps (lawful : d.Lawful added strategy) (keeps : d.InnerKeeps inner plain)
    {v : Value} (sound : d.sound r) (value : d.value r v) :
    d.Keeps (inner.concrete v) (plain.concrete v) r fun v s => d.value s v :=
  keeps.concrete lawful.thunk_leaf sound value

theorem concreteAll_keeps (lawful : d.Lawful added strategy) (keeps : d.InnerKeeps inner plain)
    (given : List Value) (sound : d.sound r) (values : ∀ v ∈ given, d.value r v) :
    d.Keeps (inner.concreteAll given) (plain.concreteAll given) r fun vs s =>
      ∀ v ∈ vs, d.value s v := by
  induction given generalizing r with
  | nil => exact keeps_pure sound (by simp)
  | cons first rest ih =>
      refine (concrete_keeps lawful keeps sound (values first (by simp))).bind
        fun v s sound' later value => ?_
      refine (ih sound' fun v member => lawful.value_later later (values v (by simp [member]))).bind
        fun vs t sound'' later' behind => ?_
      refine keeps_pure sound'' fun found member => ?_
      rcases List.mem_cons.mp member with rfl | member
      · exact lawful.value_later later' value
      · exact behind found member

theorem evaluateAll_keeps (lawful : d.Lawful added strategy) (keeps : d.InnerKeeps inner plain)
    (codes : List Value) (sound : d.sound r) (present : d.present r frame)
    (each : ∀ code ∈ codes, d.code r frame code) :
    d.Keeps (inner.evaluateAll frame codes) (plain.evaluateAll frame codes) r
      fun vs s => ∀ v ∈ vs, d.value s v := by
  induction codes generalizing r with
  | nil => exact keeps_pure sound (by simp)
  | cons code rest ih =>
      refine (evaluate_keeps keeps sound present (each code (by simp))).bind
        fun v s sound' later value => ?_
      have present' := lawful.present_later r s frame later present
      refine (ih sound' present' fun code member =>
        lawful.code_later later present (each code (by simp [member]))).bind
        fun vs t sound'' later' behind => ?_
      refine keeps_pure sound'' fun found member => ?_
      rcases List.mem_cons.mp member with rfl | member
      · exact lawful.value_later later' value
      · exact behind found member

theorem sequence_keeps (lawful : d.Lawful added strategy) (keeps : d.InnerKeeps inner plain)
    (forms : List Value) (sound : d.sound r) (present : d.present r frame)
    (each : ∀ code ∈ forms, d.code r frame code) :
    d.Keeps (inner.sequence frame forms) (plain.sequence frame forms) r fun v s => d.value s v := by
  induction forms generalizing r with
  | nil => exact keeps_pure sound (lawful.value_nil r)
  | cons code rest ih =>
      cases rest with
      | nil => exact evaluate_keeps keeps sound present (each code (by simp))
      | cons next behind =>
          refine (evaluate_keeps keeps sound present (each code (by simp))).bind
            fun v s sound' later _ => ?_
          exact ih sound' (lawful.present_later r s frame later present) fun code member =>
            lawful.code_later later present (each code (by simp [member]))

/-! Special forms. -/

theorem makeProcedure_keeps (lawful : d.Lawful added strategy) (spec : Value) (body : List Value)
    (sound : d.sound r) (present : d.present r frame) (params : Every d.datum spec)
    (each : ∀ code ∈ body, d.code r frame code) :
    d.KeepsEffect (Form.makeProcedure spec body frame) r fun v s =>
      d.value s v ∧ s.store.frames = r.store.frames ∧
        ∃ identity found, parseParams spec = .ok found ∧
          v = .procedure identity found body frame := by
  unfold Form.makeProcedure
  cases parsed : parseParams spec with
  | error fault =>
      exact keeps_throw sound (Failure.shows_of_wholes
        (parseParams_shows (hereditary_every _) spec fault (lawful.shown_of_data params) parsed))
  | ok found =>
      refine (lawful.identity_keeps r sound).bind fun identity s sound' later same => ?_
      refine keeps_pure sound' ⟨?_, same, identity, found, rfl, rfl⟩
      refine (Value.every_of_flat rfl).mpr ((lawful.procedure_leaf s _ _ _ _).mpr ⟨?_, ?_⟩)
      · exact lawful.present_later r s frame later present
      · exact fun code member => lawful.code_later later present (each code member)

theorem runAssign_keeps (lawful : d.Lawful added strategy) (keeps : d.InnerKeeps inner plain)
    (operands : List Value) (sound : d.sound r) (present : d.present r frame)
    (whole : d.code r frame (.list (.sym "set!" :: operands))) :
    d.Keeps (Form.runAssign inner frame operands) (Form.runAssign plain frame operands) r
      fun v s => d.value s v := by
  have shown := lawful.shown_of_code whole
  unfold Form.runAssign
  split
  · next name code =>
      obtain ⟨used, inside⟩ := whole.assignment_parts
      refine (evaluate_keeps keeps sound present inside).bind fun v s sound' later value => ?_
      exact lawful.assign_keeps s name v frame sound' (lawful.present_later r s frame later present)
        (lawful.uses_later r s frame name later present used) value
  · next target _ _ =>
      refine keeps_throw sound ?_
      have item := (Value.every_list _).mp shown target (by simp)
      simpa [Failure.Shows, Failure.phrases, Malformed.phrases, Phrase.Shows] using item
  · exact keeps_throw sound (by simp [Failure.Shows, Failure.phrases, Malformed.phrases,
      Phrase.Shows])

theorem runDefine_keeps (lawful : d.Lawful added strategy) (keeps : d.InnerKeeps inner plain)
    (operands : List Value) (sound : d.sound r) (present : d.present r frame)
    (whole : d.code r frame (.list (.sym "define" :: operands))) :
    d.Keeps (Form.runDefine inner frame operands) (Form.runDefine plain frame operands) r
      fun v s => d.value s v := by
  have shown := lawful.shown_of_code whole
  unfold Form.runDefine
  split
  · exact keeps_throw sound (by simp [Failure.Shows, Failure.phrases, Malformed.phrases,
      Phrase.Shows])
  · next name code =>
      obtain ⟨used, inside⟩ := whole.definition_of_value_parts
      refine (evaluate_keeps keeps sound present inside).bind fun v s sound' later value => ?_
      exact lawful.define_keeps s name v frame sound' (lawful.present_later r s frame later present)
        (lawful.uses_later r s frame name later present used) value
  · exact keeps_throw sound (by simp [Failure.Shows, Failure.phrases, Malformed.phrases,
      Phrase.Shows])
  · next name params body =>
      obtain ⟨used, spec, each⟩ := whole.definition_of_procedure_parts
      have making := makeProcedure_keeps lawful (.list params) body sound present spec each
      refine Keeps.bind making fun v s sound' later made => ?_
      exact lawful.define_keeps s name v frame sound' (lawful.present_later r s frame later present)
        (lawful.uses_later r s frame name later present used) made.1
  · next target body _ _ _ =>
      refine keeps_throw sound ?_
      have item := (Value.every_list _).mp shown target (by simp)
      simpa [Failure.Shows, Failure.phrases, Malformed.phrases, Phrase.Shows] using item

theorem test_keeps (lawful : d.Lawful added strategy) (keeps : d.InnerKeeps inner plain)
    {test usual : Value} (sound : d.sound r) (present : d.present r frame)
    (decides : d.code r frame test) (chosen : d.code r frame usual) {other : Recorded Value}
    {other' : Run Value} (skipped : ∀ t, d.sound t → d.later r t →
      d.Keeps other other' t fun v s => d.value s v) :
    d.Keeps
      (do
        let decided ← inner.concrete (← inner.evaluate test frame)
        if decided.isTrue then inner.evaluate usual frame else other)
      (do
        let decided ← plain.concrete (← plain.evaluate test frame)
        if decided.isTrue then plain.evaluate usual frame else other')
      r fun v s => d.value s v := by
  refine (evaluate_keeps keeps sound present decides).bind fun v s sound' later value => ?_
  refine (concrete_keeps lawful keeps sound' value).bind fun decided t sound'' later' _ => ?_
  have whole := d.later_trans r s t later later'
  split
  · exact evaluate_keeps keeps sound'' (lawful.present_later r t frame whole present)
      (lawful.code_later whole present chosen)
  · exact skipped t sound'' whole

theorem runConditional_keeps (lawful : d.Lawful added strategy) (keeps : d.InnerKeeps inner plain)
    (operands : List Value) (sound : d.sound r) (present : d.present r frame)
    (each : ∀ code ∈ operands, d.code r frame code) :
    d.Keeps (Form.runConditional inner frame operands) (Form.runConditional plain frame operands) r
      fun v s => d.value s v := by
  unfold Form.runConditional
  split
  · next test usual =>
      exact test_keeps lawful keeps sound present (each test (by simp)) (each usual (by simp))
        fun t sound' _ => keeps_pure sound' (lawful.value_nil t)
  · next test usual otherwise =>
      exact test_keeps lawful keeps sound present (each test (by simp)) (each usual (by simp))
        fun t sound' later => evaluate_keeps keeps sound' (lawful.present_later r t frame later
          present) (lawful.code_later later present (each otherwise (by simp)))
  · exact keeps_throw sound (by simp [Failure.Shows, Failure.phrases, Malformed.phrases,
      Phrase.Shows])

theorem derived_keeps (lawful : d.Lawful added strategy) (keeps : d.InnerKeeps inner plain)
    (name : String) (form : Derived) (operands : List Value) (sound : d.sound r)
    (present : d.present r frame) (found : FormTable.full.find? name = some (.derived form))
    (ordinary : form ≠ .letrec) (whole : d.code r frame (.list (.sym name :: operands))) :
    d.Keeps (Form.run inner frame (.derived form) operands)
      (Form.run plain frame (.derived form) operands)
      r fun v s => d.value s v := by
  have items := (Value.every_list _).mp (lawful.shown_of_code whole)
  have shown : Every d.shown (.list operands) :=
    .list operands fun operand member => items operand (.tail _ member)
  have expanding : d.KeepsEffect (Run.ofExcept (form.expand operands)) r
      fun code s => s = r ∧ form.expand operands = .ok code :=
    keeps_ofExcept sound (fun code expanded => ⟨rfl, expanded⟩) fun failure failed =>
      Failure.shows_of_wholes (expand_shows (hereditary_every _) form operands failure shown failed)
  refine Keeps.bind expanding fun code s sound' later expanded => ?_
  obtain ⟨rfl, expanded⟩ := expanded
  exact evaluate_keeps keeps sound' present
    (Code.of_expand lawful.basics name form operands code found ordinary whole expanded)

theorem quote_keeps (lawful : d.Lawful added strategy) (operands : List Value) (sound : d.sound r)
    (whole : d.code r frame (.list (.sym "quote" :: operands))) :
    d.Keeps (Form.run inner frame .quote operands) (Form.run plain frame .quote operands) r
      fun v s => d.value s v := by
  have each := whole.written_operands (by simp)
  match operands, each with
  | [datum], each =>
      exact keeps_pure sound (lawful.value_of_data (Code.datum_of_usable (each datum (by simp))))
  | [], _ =>
      exact keeps_throw sound (by simp [Failure.Shows, Failure.phrases, Malformed.phrases,
        Phrase.Shows])
  | _ :: _ :: _, _ =>
      exact keeps_throw sound (by simp [Failure.Shows, Failure.phrases, Malformed.phrases,
        Phrase.Shows])

theorem procedure_keeps (lawful : d.Lawful added strategy) (operands : List Value)
    (sound : d.sound r) (present : d.present r frame)
    (whole : d.code r frame (.list (.sym "lambda" :: operands))) :
    d.Keeps (Form.run inner frame .procedure operands) (Form.run plain frame .procedure operands) r
      fun v s => d.value s v := by
  cases operands with
  | nil =>
      exact keeps_throw sound (by simp [Failure.Shows, Failure.phrases, Malformed.phrases,
        Phrase.Shows])
  | cons spec body =>
      obtain ⟨params, each⟩ := whole.procedure_parts
      exact (makeProcedure_keeps lawful spec body sound present params each).imp fun v s _ made =>
        made.1

theorem form_keeps (lawful : d.Lawful added strategy) (keeps : d.InnerKeeps inner plain)
    (name : String) (form : Form) (operands : List Value) (sound : d.sound r)
    (present : d.present r frame) (found : FormTable.full.find? name = some form)
    (ordinary : name ≠ "letrec") (whole : d.code r frame (.list (.sym name :: operands))) :
    d.Keeps (form.run inner frame operands) (form.run plain frame operands) r fun v s =>
      d.value s v := by
  have member := FormTable.mem_of_find? _ _ _ found
  simp only [FormTable.full, FormTable.core, List.cons_append, List.nil_append, List.mem_cons,
    Prod.mk.injEq, List.not_mem_nil, or_false] at member
  rcases member with ⟨rfl, rfl⟩ | ⟨rfl, rfl⟩ | ⟨rfl, rfl⟩ | ⟨rfl, rfl⟩ | ⟨rfl, rfl⟩ | ⟨rfl,
    rfl⟩ | derived
  · exact quote_keeps lawful operands sound whole
  · exact runAssign_keeps lawful keeps operands sound present whole
  · exact runDefine_keeps lawful keeps operands sound present whole
  · exact runConditional_keeps lawful keeps operands sound present whole.conditional_parts
  · exact procedure_keeps lawful operands sound present whole
  · exact sequence_keeps lawful keeps operands sound present whole.sequence_parts
  · rcases derived with ⟨rfl, rfl⟩ | ⟨rfl, rfl⟩ | ⟨rfl, rfl⟩ | ⟨rfl, rfl⟩ | ⟨rfl, rfl⟩ | ⟨rfl,
    rfl⟩ | ⟨rfl, rfl⟩
    all_goals first
      | exact absurd rfl ordinary
      | exact derived_keeps lawful keeps _ _ operands sound present found (by simp) whole

/-! Applications. -/

theorem suspendAll_keeps (lawful : d.Lawful added strategy) (codes : List Value) (sound : d.sound r)
    (present : d.present r frame) (each : ∀ code ∈ codes, d.code r frame code) :
    d.KeepsEffect (suspendAll frame codes) r fun vs s => ∀ v ∈ vs, d.argument s v := by
  induction codes generalizing r with
  | nil => exact keeps_pure sound (by simp)
  | cons code rest ih =>
      have first := lawful.suspend_keeps r code frame false sound present (each code (by simp))
      refine first.bind fun v s sound' later made => ?_
      obtain ⟨id, rfl, delayed⟩ := made
      refine (ih sound' (lawful.present_later r s frame later present) fun code member =>
        lawful.code_later later present (each code (by simp [member]))).bind
        fun vs t sound'' later' behind => ?_
      refine keeps_pure sound'' fun found member => ?_
      rcases List.mem_cons.mp member with rfl | member
      · exact .inr ⟨id, rfl, lawful.delayed_later s t id later' delayed⟩
      · exact behind found member

theorem argumentFor_keeps (lawful : d.Lawful added strategy) (keeps : d.InnerKeeps inner plain)
    (mode : ParamMode) (code : Value) (sound : d.sound r) (present : d.present r frame)
    (whole : d.code r frame code) :
    d.Keeps (argumentFor inner frame mode code) (argumentFor plain frame mode code) r
      fun v s => d.argument s v := by
  cases mode with
  | strict => exact (evaluate_keeps keeps sound present whole).imp fun v s _ value => .inl value
  | lazy =>
      exact (lawful.suspend_keeps r code frame false sound present whole).imp fun v s _ made =>
        .inr made
  | lazyMemo =>
      exact (lawful.suspend_keeps r code frame true sound present whole).imp fun v s _ made =>
        .inr made

theorem argumentsFor_keeps (lawful : d.Lawful added strategy) (keeps : d.InnerKeeps inner plain)
    (params : List Param) (codes : List Value) (sound : d.sound r) (present : d.present r frame)
    (each : ∀ code ∈ codes, d.code r frame code) :
    d.Keeps (argumentsFor inner frame params codes) (argumentsFor plain frame params codes) r
      fun vs s => ∀ v ∈ vs, d.argument s v := by
  induction params generalizing r codes with
  | nil => exact keeps_pure sound (by simp)
  | cons param params ih =>
      cases codes with
      | nil => exact keeps_pure sound (by simp)
      | cons code rest =>
          have first := argumentFor_keeps lawful keeps param.mode code sound present
            (each code (by simp))
          refine first.bind fun v s sound' later argument => ?_
          refine (ih rest sound' (lawful.present_later r s frame later present) fun code member =>
            lawful.code_later later present (each code (by simp [member]))).bind
            fun vs t sound'' later' behind => ?_
          refine keeps_pure sound'' fun found member => ?_
          rcases List.mem_cons.mp member with rfl | member
          · exact lawful.argument_later later' argument
          · exact behind found member

theorem arguments_keeps (lawful : d.Lawful added strategy) (keeps : d.InnerKeeps inner plain)
    (fn : Value) (operands : List Value) (sound : d.sound r)
    (present : d.present r frame) (each : ∀ code ∈ operands, d.code r frame code) :
    d.Keeps (strategy.arguments inner fn frame operands)
      (strategy.arguments plain fn frame operands) r
      fun vs s => (∀ v ∈ vs, d.argument s v) ∧
        ((∀ identity params body home, fn ≠ .procedure identity params body home) →
          ∀ v ∈ vs, d.value s v) := by
  have evaluated : d.Keeps (inner.evaluateAll frame operands) (plain.evaluateAll frame operands) r
      fun vs s => (∀ v ∈ vs, d.argument s v) ∧
        ((∀ identity params body home, fn ≠ .procedure identity params body home) →
          ∀ v ∈ vs, d.value s v) :=
    (evaluateAll_keeps lawful keeps operands sound present each).imp
      fun vs s _ values => ⟨fun v member => .inl (values v member), fun _ => values⟩
  unfold Strategy.arguments
  split
  · exact (suspendAll_keeps lawful operands sound present each).imp fun vs s _ arguments =>
      ⟨arguments, fun other => absurd rfl (other _ _ _ _)⟩
  · split
    · exact (argumentsFor_keeps lawful keeps _ operands sound present each).imp
          fun vs s _ arguments =>
        ⟨arguments, fun other => absurd rfl (other _ _ _ _)⟩
    · exact evaluated
  · exact evaluated

theorem apply_keeps (lawful : d.Lawful added strategy) (keeps : d.InnerKeeps inner plain)
    (fn : Value) (given : List Value) (sound : d.sound r) (value : d.value r fn)
    (arguments : ∀ v ∈ given, d.argument r v)
    (values : (∀ identity params body home, fn ≠ .procedure identity params body home) →
      ∀ v ∈ given, d.value r v) :
    d.Keeps (apply added inner fn given) (apply added plain fn given) r fun v s => d.value s v := by
  unfold apply
  split
  · next identity params body home =>
      obtain ⟨present, each⟩ := (lawful.procedure_leaf r identity params body home).mp
        ((Value.every_of_flat rfl).mp value)
      refine Keeps.bind (lawful.enter_keeps r params home given sound present arguments)
        fun inside s sound' later entered => ?_
      refine sequence_keeps lawful keeps body sound' entered.1 fun code member => ?_
      exact (each code member).imp entered.2
  · next p =>
      have leaf := (Value.every_of_flat rfl).mp value
      refine (concreteAll_keeps lawful keeps given sound (values (by simp))).bind
        fun vs s sound' later found => ?_
      exact lawful.perform_keeps s p vs sound' (lawful.leaf_later r s _ later leaf) found
  · refine keeps_throw sound ?_
    have every := lawful.shown_of_value value
    simpa [Failure.Shows, Failure.phrases, Phrase.Shows] using every

end Rules

end Discipline

end ThunkLisp
