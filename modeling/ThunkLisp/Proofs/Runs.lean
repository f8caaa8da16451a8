import ThunkLisp.Proofs.Readable
import ThunkLisp.Proofs.Rules

/-!
Whole runs and sessions keep a lawful discipline, by induction on the room that is left for calls.
The one form that builds more than code is `letrec`: its two expansions are followed down to the
frame in which its names are bound to marks, from where on everything is code again.
-/

namespace ThunkLisp

open Machine (effect)
open Value (Every)

namespace Evaluator

variable {m : Type → Type} [Monad m] [Machine m]

theorem evaluate_of_unnamed (evaluator : Evaluator) (stack : Stack m) (code : Value)
    (frame : FrameId) (unnamed : ∀ name, code ≠ .sym name) :
    evaluator.evaluate stack code frame = (do
      if code.isSelfEvaluating then return code
      let (head, operands) ← effect (Run.ofExcept (splitCombination code))
      evaluator.evaluateCombination stack head operands frame) := by
  unfold evaluate
  split
  · next name => exact absurd rfl (unnamed name)
  · rfl

end Evaluator

namespace Discipline

variable {d : Discipline} {added : AddedActions} {strategy : Strategy} {r : Recording}
  {frame : FrameId}

def evaluator (added : AddedActions) (strategy : Strategy) : Evaluator :=
  ⟨FormTable.full, strategy, added⟩

section Steps

variable {stack : Stack Recorded} {plain : Stack Run}

theorem combination_keeps (lawful : d.Lawful added strategy) (keeps : d.StackKeeps stack plain)
    (head : Value) (operands : List Value) (sound : d.sound r) (present : d.present r frame)
    (ordinary : head ≠ .sym "letrec") (whole : d.code r frame (.list (head :: operands))) :
    d.Keeps ((evaluator added strategy).evaluateCombination stack head operands frame)
      ((evaluator added strategy).evaluateCombination plain head operands frame) r
      fun v s => d.value s v := by
  unfold Evaluator.evaluateCombination
  cases found : (evaluator added strategy).form? head with
  | some form =>
      cases head with
      | sym name =>
          exact form_keeps lawful (keeps.above form.calls) name form operands sound present found
            (by simpa using ordinary) whole
      | _ => cases found
  | none =>
      have unbuilt : ∀ name ∈ ["if", "begin", "lambda", "let", "define", "set!"],
          head ≠ .sym name := by
        rintro name member rfl
        simp only [List.mem_cons, List.not_mem_nil, or_false] at member
        rcases member with rfl | rfl | rfl | rfl | rfl | rfl <;> cases found
      obtain ⟨first, each⟩ := whole.application_parts unbuilt
      refine (evaluate_keeps (keeps 0) sound present first).bind fun fn s sound' later value => ?_
      have present' := lawful.present_later r s frame later present
      refine (arguments_keeps lawful (keeps.above _) fn operands sound' present' fun code member =>
        lawful.code_later later present (each code member)).bind
        fun given t sound'' later' arguments => ?_
      exact apply_keeps lawful (keeps.above appliedCalls) fn given sound''
        (lawful.value_later later' value) arguments.1
        arguments.2

theorem evaluate_step_keeps (lawful : d.Lawful added strategy) (keeps : d.StackKeeps stack plain)
    (code : Value) (sound : d.sound r) (present : d.present r frame)
    (unnamed : ∀ name, code ≠ .sym name)
    (ordinary : ∀ operands, code ≠ .list (.sym "letrec" :: operands))
    (whole : d.code r frame code) :
    d.Keeps ((evaluator added strategy).evaluate stack code frame)
      ((evaluator added strategy).evaluate plain code frame) r fun v s => d.value s v := by
  rw [Evaluator.evaluate_of_unnamed _ _ _ _ unnamed, Evaluator.evaluate_of_unnamed _ _ _ _ unnamed]
  split
  · exact keeps_pure sound (lawful.value_of_code whole)
  · have splitting : d.KeepsEffect (Run.ofExcept (Evaluator.splitCombination code)) r
        fun parts s => s = r ∧ code = .list (parts.1 :: parts.2) := by
      refine keeps_ofExcept sound (fun parts done => ⟨rfl, ?_⟩) fun failure failed => ?_
      · unfold Evaluator.splitCombination at done
        split at done <;> cases done
        rfl
      · have shown := lawful.shown_of_code whole
        unfold Evaluator.splitCombination at failed
        split at failed <;> cases failed
        simpa [Failure.Shows, Failure.phrases, Malformed.phrases, Phrase.Shows] using shown
    refine Keeps.bind splitting fun parts s sound' later same => ?_
    obtain ⟨rfl, rfl⟩ := same
    exact combination_keeps lawful keeps parts.1 parts.2 sound' present
      (fun same => ordinary parts.2 (by rw [same])) whole

end Steps

/-! Tasks. -/

theorem task_keeps (lawful : d.Lawful added strategy) {x : Recorded Value} {y : Run Value}
    (code : Value) {post : Value → Recording → Prop} (sound : d.sound r)
    (present : d.present r frame) (unnamed : ∀ name, code ≠ .sym name)
    (enough : ∀ v s, post v s → d.value s v ∨ code = mark ∧ v = .unassigned)
    (stays : ∀ v s t, d.later s t → t.store = s.store → post v s → post v t) (doing :
    d.Keeps x y (r.beginning (.evaluate code frame)) post) :
    d.Keeps (Machine.duringTask (.evaluate code frame) x) y r post := by
  obtain ⟨begun, first⟩ := lawful.begins r code frame sound present
  obtain ⟨outcome, after, ran, viewed, same, sound', later, answer⟩ := doing
  have finish := lawful.ends after code frame r.store outcome sound' unnamed fun v same => by
    subst same
    exact enough v after answer
  refine ⟨outcome, after.ending (.evaluate code frame) r.store outcome, ?_, viewed,
    congrArg List.tail same, finish.1, ?_, ?_⟩
  · simp [Recorded.on_duringTask, ran]
  · exact d.later_trans _ _ _ (d.later_trans _ _ _ first later) finish.2
  · cases outcome with
    | ok v => exact stays v after _ finish.2 rfl answer
    | error failure => exact answer

theorem limit_keeps (evaluator : Evaluator) (task : Task) {post : Value → Recording → Prop}
    (sound : d.sound r) :
    d.Keeps (evaluator.run 0 task) (evaluator.run 0 task) r post :=
  keeps_throw sound (by simp [Failure.Shows, Failure.phrases, Phrase.Shows])

theorem stack_keeps (limit : Nat) (keeps : ∀ smaller ≤ limit,
    d.InnerKeeps ((evaluator added strategy).run smaller)
      ((evaluator added strategy).run smaller)) :
    d.StackKeeps ((evaluator added strategy).stack limit)
      ((evaluator added strategy).stack limit) := by
  intro calls
  rw [Evaluator.stack_eq_run, Evaluator.stack_eq_run]
  exact keeps _ (Nat.sub_le limit calls)

/-! The frame of a `letrec`. -/

theorem run_lambda_keeps (lawful : d.Lawful added strategy) (limit : Nat) (spec : Value)
    (body : List Value) (sound : d.sound r) (present : d.present r frame)
    (params : Every d.datum spec) (each : ∀ code ∈ body, d.code r frame code) :
    d.Keeps ((evaluator added strategy).run limit
      (.evaluate (.list (.sym "lambda" :: spec :: body)) frame))
      ((evaluator added strategy).run limit
        (.evaluate (.list (.sym "lambda" :: spec :: body)) frame)) r
      fun v s => d.value s v ∧ s.store.frames = r.store.frames ∧
        ∃ identity found, parseParams spec = .ok found ∧
          v = .procedure identity found body frame := by
  cases limit with
  | zero => exact limit_keeps _ _ sound
  | succ limit =>
      obtain ⟨begun, first⟩ := lawful.begins r (.list (.sym "lambda" :: spec :: body)) frame sound
        present
      refine task_keeps lawful _ sound present (by simp) (fun v s made => .inl made.1)
        (fun v s t later same made => ?_) ?_
      · exact ⟨lawful.value_later later made.1, by rw [same, made.2.1], made.2.2⟩
      · exact makeProcedure_keeps lawful spec body begun (lawful.present_later _ _ _ first present)
          params
          fun code member => lawful.code_later first present (each code member)

theorem run_mark_keeps (lawful : d.Lawful added strategy) (limit : Nat) (sound : d.sound r)
    (present : d.present r frame) :
    d.Keeps ((evaluator added strategy).run limit (.evaluate mark frame))
      ((evaluator added strategy).run limit (.evaluate mark frame)) r
      fun v s => v = .unassigned ∧ s.store.frames = r.store.frames := by
  cases limit with
  | zero => exact limit_keeps _ _ sound
  | succ limit =>
      obtain ⟨begun, _⟩ := lawful.begins r mark frame sound present
      refine task_keeps lawful _ sound present (by simp [mark]) (fun v s made => .inr ⟨rfl, made.1⟩)
        (fun v s t later same made => ⟨made.1, by rw [same, made.2]⟩) ?_
      exact keeps_pure begun ⟨rfl, rfl⟩

theorem above_mark_keeps (lawful : d.Lawful added strategy) (limit calls : Nat) (sound : d.sound r)
    (present : d.present r frame) :
    d.Keeps (Inner.evaluate (((evaluator added strategy).stack limit).above calls) mark frame)
      (Inner.evaluate (((evaluator added strategy).stack limit).above calls) mark frame) r
      fun v s => v = .unassigned ∧ s.store.frames = r.store.frames := by
  rw [Evaluator.evaluate_above, Evaluator.evaluate_above]
  exact run_mark_keeps lawful _ sound present

theorem evaluateAll_marks_keep (lawful : d.Lawful added strategy) (limit calls : Nat)
    (codes : List Value) (marks : ∀ code ∈ codes, code = mark) (sound : d.sound r)
    (present : d.present r frame) :
    d.Keeps (Inner.evaluateAll (((evaluator added strategy).stack limit).above calls) frame codes)
      (Inner.evaluateAll (((evaluator added strategy).stack limit).above calls) frame codes) r
      fun vs s => (∀ v ∈ vs, d.placeholder s v) ∧ s.store.frames = r.store.frames := by
  induction codes generalizing r with
  | nil => exact keeps_pure sound (by simp)
  | cons code rest ih =>
      obtain rfl := marks code (by simp)
      refine (above_mark_keeps lawful limit calls sound present).bind
        fun v s sound' later made => ?_
      refine (ih (fun code member => marks code (by simp [member])) sound'
        (lawful.present_later r s frame later present)).bind fun vs t sound'' later' behind => ?_
      refine keeps_pure sound'' ⟨fun found member => ?_, by rw [behind.2, made.2]⟩
      rcases List.mem_cons.mp member with rfl | member
      · rw [made.1]
        exact lawful.placeholder_unassigned t
      · exact behind.1 found member

theorem suspendAll_marks_keep (lawful : d.Lawful added strategy) (lazily : strategy = .lazy)
    (codes : List Value) (marks : ∀ code ∈ codes, code = mark) (sound : d.sound r)
    (present : d.present r frame) :
    d.KeepsEffect (suspendAll frame codes) r fun vs s =>
      (∀ v ∈ vs, d.placeholder s v) ∧ s.store.frames = r.store.frames := by
  induction codes generalizing r with
  | nil => exact keeps_pure sound (by simp)
  | cons code rest ih =>
      obtain rfl := marks code (by simp)
      refine (lawful.suspend_mark_keeps r frame lazily sound present).bind
        fun v s sound' later made => ?_
      refine (ih (fun code member => marks code (by simp [member])) sound'
        (lawful.present_later r s frame later present)).bind fun vs t sound'' later' behind => ?_
      refine keeps_pure sound'' ⟨fun found member => ?_, by rw [behind.2, made.2]⟩
      rcases List.mem_cons.mp member with rfl | member
      · exact lawful.placeholder_later s t _ later' made.1
      · exact behind.1 found member

theorem argumentsFor_marks_keep (lawful : d.Lawful added strategy) (limit calls : Nat)
    (params : List Param) (strict : ∀ param ∈ params, param.mode = .strict) (codes : List Value)
    (marks : ∀ code ∈ codes, code = mark) (sound : d.sound r) (present : d.present r frame) :
    d.Keeps (argumentsFor (((evaluator added strategy).stack limit).above calls) frame params codes)
      (argumentsFor (((evaluator added strategy).stack limit).above calls) frame params codes) r
      fun vs s => (∀ v ∈ vs, d.placeholder s v) ∧ s.store.frames = r.store.frames := by
  induction params generalizing r codes with
  | nil => exact keeps_pure sound (by simp)
  | cons param params ih =>
      cases codes with
      | nil => exact keeps_pure sound (by simp)
      | cons code rest =>
          obtain rfl := marks code (by simp)
          have first := above_mark_keeps lawful limit calls sound present
          unfold argumentsFor
          simp only [argumentFor, strict param (by simp)]
          refine first.bind fun v s sound' later made => ?_
          refine (ih (fun param member => strict param (by simp [member])) rest
            (fun code member => marks code (by simp [member])) sound'
            (lawful.present_later r s frame later present)).bind
              fun vs t sound'' later' behind => ?_
          refine keeps_pure sound'' ⟨fun found member => ?_, by rw [behind.2, made.2]⟩
          rcases List.mem_cons.mp member with rfl | member
          · rw [made.1]
            exact lawful.placeholder_unassigned t
          · exact behind.1 found member

theorem placeholders_keep (lawful : d.Lawful added strategy) (limit calls identity : Nat)
    (params : List Param) (strict : ∀ param ∈ params, param.mode = .strict) (body : List Value)
    (home : FrameId) (codes : List Value) (marks : ∀ code ∈ codes, code = mark) (sound : d.sound r)
    (present : d.present r frame) :
    d.Keeps (strategy.arguments (((evaluator added strategy).stack limit).above calls)
        (.procedure identity params body home) frame codes)
      (strategy.arguments (((evaluator added strategy).stack limit).above calls)
        (.procedure identity params body home) frame codes) r
      fun vs s => (∀ v ∈ vs, d.placeholder s v) ∧ s.store.frames = r.store.frames := by
  have evaluated := evaluateAll_marks_keep lawful limit calls codes marks sound present
  cases strategy with
  | strict => exact evaluated
  | lazy => exact suspendAll_marks_keep lawful rfl codes marks sound present
  | mixed =>
      simp only [Strategy.arguments]
      split
      · exact argumentsFor_marks_keep lawful limit calls params strict codes marks sound present
      · exact evaluated

theorem letrecCall_keeps (lawful : d.Lawful added strategy) (limit : Nat)
    (keeps : ∀ smaller < limit, d.InnerKeeps ((evaluator added strategy).run smaller)
      ((evaluator added strategy).run smaller))
    (entries : List (String × Value)) (forms : List Value) (sound : d.sound r)
    (present : d.present r frame) (opening : d.opening r frame (entries.map Prod.fst))
    (each : ∀ code ∈ Derived.assignments entries ++ forms, d.code r frame code) :
    d.Keeps ((evaluator added strategy).run limit
      (.evaluate (Derived.letrecCall entries forms) frame))
      ((evaluator added strategy).run limit (.evaluate (Derived.letrecCall entries forms) frame)) r
      fun v s => d.value s v := by
  cases limit with
  | zero => exact limit_keeps _ _ sound
  | succ limit =>
      obtain ⟨begun, first⟩ := lawful.begins r (Derived.letrecCall entries forms) frame sound
        present
      refine task_keeps lawful _ sound present (by simp [Derived.letrecCall]) (fun v s => .inl)
        (fun v s t later _ value => lawful.value_later later value) ?_
      have opened := lawful.opening_later _ _ frame _ first rfl
        (fun _ => List.mem_cons_of_mem _) opening
      have present₁ := lawful.present_later _ _ frame first present
      have each₁ := fun code member => lawful.code_later first present (each code member)
      have names : Every d.datum (.list (Derived.symbols entries)) :=
        Code.words lawful.basics entries
      -- the operator is a procedure of the names
      have lambda := run_lambda_keeps lawful limit _ _ begun present₁ names each₁
      refine Keeps.bind lambda.pending fun fn s sound' later made => ?_
      obtain ⟨⟨value, same, identity, params, parsed, rfl⟩, still⟩ := made
      obtain rfl := params_of_symbols entries params parsed
      have opened' := lawful.opening_later _ s frame _ later same
        (fun task waiting => still ▸ waiting) opened
      have present' := lawful.present_later _ s frame later present₁
      -- the operands are marks, which are no code
      have plain : ∀ param ∈ entries.map (fun entry => (⟨entry.1, .strict⟩ : Param)),
          param.mode = .strict := by
        intro param member
        obtain ⟨entry, _, rfl⟩ := List.mem_map.mp member
        rfl
      have marks : ∀ code ∈ entries.map (fun _ => mark), code = mark := by
        intro code member
        obtain ⟨_, _, rfl⟩ := List.mem_map.mp member
        rfl
      have placeholders (calls : Nat) := placeholders_keep (r := s) lawful limit calls identity
        (entries.map fun entry => ⟨entry.1, .strict⟩) plain
        (Derived.assignments entries ++ forms) frame (entries.map fun _ => mark) marks
        sound' present'
      refine (placeholders _).pending.bind fun given t sound'' later' made => ?_
      obtain ⟨made, still'⟩ := made
      have opened'' := lawful.opening_later s t frame _ later' made.2
        (fun task waiting => still' ▸ waiting) opened'
      have named : (entries.map fun entry => (⟨entry.1, .strict⟩ : Param)).map Param.name =
          entries.map Prod.fst := by simp
      -- the frame is opened with them, and what is done in it is code again
      have entering := lawful.open_keeps t _ frame given sound''
        (lawful.present_later s t frame later' present') (named ▸ opened'') made.1
      refine Keeps.bind entering fun inside u sound''' later'' entered => ?_
      have inside := stack_keeps limit fun smaller le => keeps smaller (Nat.lt_succ_of_le le)
      refine sequence_keeps lawful (inside.above appliedCalls) _ sound''' entered.1
        fun code member => ?_
      have before := d.later_trans _ _ _ later later'
      exact (lawful.code_later before present₁ (each₁ code member)).imp entered.2

theorem letrecScope_keeps (lawful : d.Lawful added strategy) (limit : Nat)
    (keeps : ∀ smaller < limit, d.InnerKeeps ((evaluator added strategy).run smaller)
      ((evaluator added strategy).run smaller))
    (entries : List (String × Value)) (forms : List Value) (sound : d.sound r)
    (present : d.present r frame) (opening : d.opening r frame (entries.map Prod.fst))
    (each : ∀ code ∈ Derived.assignments entries ++ forms, d.code r frame code) :
    d.Keeps ((evaluator added strategy).run limit
      (.evaluate (Derived.letrecScope entries forms) frame))
      ((evaluator added strategy).run limit (.evaluate (Derived.letrecScope entries forms) frame)) r
      fun v s => d.value s v := by
  cases limit with
  | zero => exact limit_keeps _ _ sound
  | succ limit =>
      obtain ⟨begun, first⟩ := lawful.begins r (Derived.letrecScope entries forms) frame sound
        present
      refine task_keeps lawful _ sound present (by simp [Derived.letrecScope]) (fun v s => .inl)
        (fun v s t later _ value => lawful.value_later later value) ?_
      have expanding : d.KeepsEffect (Run.ofExcept (Derived.namedLet.expand
          (.list (entries.map fun entry => Derived.entryForm (entry.1, mark)) ::
            (Derived.assignments entries ++ forms))))
          (r.beginning (.evaluate (Derived.letrecScope entries forms) frame))
          fun code s => s = r.beginning (.evaluate (Derived.letrecScope entries forms) frame) ∧
            code = Derived.letrecCall entries forms := by
        simp only [Derived.expand, Derived.expand_letrecScope]
        exact keeps_pure begun ⟨rfl, rfl⟩
      refine Keeps.bind expanding fun code s _ _ expanded => ?_
      obtain ⟨rfl, rfl⟩ := expanded
      simp only [Form.calls, Evaluator.evaluate_above]
      exact letrecCall_keeps lawful _ (fun smaller less => keeps smaller (by omega)) entries forms
        begun (lawful.present_later _ _ frame first present)
        (lawful.opening_later _ _ frame _ first rfl (fun _ => List.mem_cons_of_mem _) opening)
        fun code member => lawful.code_later first present (each code member)

theorem letrec_keeps (lawful : d.Lawful added strategy) (limit : Nat)
    (keeps : ∀ smaller < limit, d.InnerKeeps ((evaluator added strategy).run smaller)
      ((evaluator added strategy).run smaller))
    (operands : List Value) (sound : d.sound r) (present : d.present r frame)
    (whole : d.code r frame (.list (.sym "letrec" :: operands))) :
    d.Keeps ((evaluator added strategy).run limit
      (.evaluate (.list (.sym "letrec" :: operands)) frame))
      ((evaluator added strategy).run limit (.evaluate (.list (.sym "letrec" :: operands)) frame)) r
      fun v s => d.value s v := by
  have written := whole.written_operands (by simp)
  have items := (Value.every_list _).mp (lawful.shown_of_code whole)
  cases limit with
  | zero => exact limit_keeps _ _ sound
  | succ limit =>
      obtain ⟨begun, first⟩ := lawful.begins r (.list (.sym "letrec" :: operands)) frame sound
        present
      refine task_keeps lawful _ sound present (by simp) (fun v s => .inl)
        (fun v s t later _ value => lawful.value_later later value) ?_
      -- the first expansion is a scope, which is followed as a whole
      have expanding : d.KeepsEffect (Run.ofExcept (Derived.letrec.expand operands))
          (r.beginning (.evaluate (.list (.sym "letrec" :: operands)) frame))
          fun code s => s = r.beginning (.evaluate (.list (.sym "letrec" :: operands)) frame) ∧
            Derived.letrec.expand operands = .ok code :=
        keeps_ofExcept begun (fun code expanded => ⟨rfl, expanded⟩) fun failure failed =>
          Failure.shows_of_wholes (expand_shows (hereditary_every _) .letrec operands failure
            (.list operands fun operand member => items operand (.tail _ member)) failed)
      refine Keeps.bind expanding fun code s _ _ expanded => ?_
      obtain ⟨rfl, expanded⟩ := expanded
      obtain ⟨entries, forms, rfl, rfl⟩ := Derived.expandLetrec_eq operands code expanded
      have opening := lawful.letrec_begins r entries forms frame sound present
      simp only [Form.calls, Evaluator.evaluate_above]
      refine letrecScope_keeps lawful _ (fun smaller less => keeps smaller (by omega)) entries forms
        begun (lawful.present_later _ _ frame first present) opening fun code member => ?_
      refine lawful.code_later first present ?_
      rcases List.mem_append.mp member with assigned | behind
      · obtain ⟨entry, inside, rfl⟩ := List.mem_map.mp assigned
        have bindings := (Value.every_list _).mp (written _ (List.mem_cons_self ..))
        have parts := (Value.every_list _).mp (bindings _ (List.mem_map_of_mem inside))
        have name := (Value.every_sym entry.1).mp (parts (.sym entry.1) (by simp))
        exact .assignment entry.1 entry.2 (name.2 entry.1 rfl)
          (.written _ (parts entry.2 (by simp)))
      · exact .written code (written code (by simp [behind]))

theorem run_keeps (lawful : d.Lawful added strategy) (limit : Nat) :
    d.InnerKeeps ((evaluator added strategy).run limit) ((evaluator added strategy).run limit) := by
  induction limit using Nat.strongRecOn with
  | ind limit ih =>
      intro r task sound ready
      cases limit with
      | zero => exact limit_keeps _ _ sound
      | succ limit =>
          have keeps := stack_keeps limit fun smaller le => ih smaller (Nat.lt_succ_of_le le)
          cases task with
          | force id => exact lawful.force_keeps _ _ r id (keeps.above 0) sound ready
          | evaluate code frame =>
              obtain ⟨present, whole⟩ := ready
              -- a mark is the one thing that is evaluated and is no code
              by_cases marked : code = mark
              · subst marked
                refine (run_mark_keeps lawful (limit + 1) sound present).imp
                  fun v s later made => ?_
                refine ⟨fun whole => ?_, fun _ => made.1⟩
                have items := (Value.every_list _).mp (lawful.value_of_code whole)
                rw [made.1]
                exact lawful.value_later later (items .unassigned (by simp))
              · have whole := whole.resolve_right marked
                suffices kept : d.Keeps ((evaluator added strategy).run (limit + 1)
                    (.evaluate code frame))
                    ((evaluator added strategy).run (limit + 1) (.evaluate code frame)) r
                    fun v s => d.value s v from
                  kept.imp fun v s _ value => ⟨fun _ => value, fun same => absurd same marked⟩
                by_cases named : ∃ name, code = .sym name
                · obtain ⟨name, rfl⟩ := named
                  have used := (whole.flat_leaf rfl).2 name rfl
                  exact lawful.variable_keeps _ _ r name frame (keeps 0) sound present used
                · by_cases recursive : ∃ operands, code = .list (.sym "letrec" :: operands)
                  · obtain ⟨operands, rfl⟩ := recursive
                    exact letrec_keeps lawful (limit + 1) ih operands sound present whole
                  · have unnamed : ∀ name, code ≠ .sym name := fun name same => named ⟨name, same⟩
                    obtain ⟨begun, first⟩ := lawful.begins r code frame sound present
                    refine task_keeps lawful code sound present unnamed (fun v s => .inl)
                      (fun v s t later _ value => lawful.value_later later value) ?_
                    exact evaluate_step_keeps lawful keeps code begun
                      (lawful.present_later _ _ frame first present) unnamed
                      (fun operands same => recursive ⟨operands, same⟩)
                      (lawful.code_later first present whole)

theorem above_keeps (lawful : d.Lawful added strategy) (limit calls : Nat) :
    d.InnerKeeps (((evaluator added strategy).stack limit).above calls)
      (((evaluator added strategy).stack limit).above calls) :=
  (stack_keeps limit fun smaller _ => run_keeps lawful smaller).above calls

theorem run_code_keeps (lawful : d.Lawful added strategy) (limit : Nat) (code : Value)
    (sound : d.sound r) (present : d.present r frame) (whole : d.code r frame code) :
    d.Keeps ((evaluator added strategy).run limit (.evaluate code frame))
      ((evaluator added strategy).run limit (.evaluate code frame)) r fun v s => d.value s v :=
  (run_keeps lawful limit r (.evaluate code frame) sound ⟨present, .inl whole⟩).imp
    fun _ _ _ done => done.1 whole

/-! Sessions. -/

theorem evaluateForms_keeps (lawful : d.Lawful added strategy) (limit : Nat) (globals : FrameId)
    (forms : List Value) (last : Value) (sound : d.sound r) (present : d.present r globals)
    (value : d.value r last) (each : ∀ form ∈ forms, d.code r globals form) :
    d.Keeps (Session.evaluateForms limit ⟨evaluator added strategy, globals⟩ last forms)
      (Session.evaluateForms limit ⟨evaluator added strategy, globals⟩ last forms) r
      fun v s => d.value s v := by
  induction forms generalizing r last with
  | nil => exact keeps_pure sound value
  | cons form rest ih =>
      have first := run_code_keeps lawful limit form sound present (each form (by simp))
      refine first.bind fun v s sound' later value' => ?_
      exact ih v sound' (lawful.present_later r s globals later present) value' fun form member =>
        lawful.code_later later present (each form (by simp [member]))

/-- Whatever can be read is code in every frame. -/
structure Open (d : Discipline) : Prop where
  datum (leaf : Value) : leaf.isReadable = true → d.datum leaf
  uses (r : Recording) (frame : FrameId) (name : String) : d.uses r frame name

theorem Open.code (free : d.Open) {form : Value} (readable : Readable form) : d.code r frame form :=
  .written form (readable.imp fun leaf holds =>
    ⟨free.datum leaf holds, fun name _ => free.uses r frame name⟩)

theorem evaluateText_keeps (lawful : d.Lawful added strategy) (free : d.Open) (limit : Nat)
    (globals : FrameId) (text : String) (sound : d.sound r) (present : d.present r globals) :
    d.Keeps (Session.evaluateTextWithin limit ⟨evaluator added strategy, globals⟩ text)
      (Session.evaluateTextWithin limit ⟨evaluator added strategy, globals⟩ text) r fun v s =>
        d.value s v := by
  have fine := readAll_fine d.shown text
  have reading : d.KeepsEffect (Run.ofExcept (readAll text)) r
      fun forms s => s = r ∧ ∀ form ∈ forms, Readable form := by
    refine keeps_ofExcept sound (fun forms read => ⟨rfl, ?_⟩) fun failure failed => ?_
    · rw [read] at fine
      exact fine
    · rw [failed] at fine
      exact fine
  refine Keeps.bind reading fun forms s sound' _ read => ?_
  obtain ⟨rfl, readable⟩ := read
  exact evaluateForms_keeps lawful limit globals forms .nil sound present (lawful.value_nil _)
    fun form member => free.code (readable form member)

theorem after_keeps (lawful : d.Lawful added strategy) (free : d.Open) (limit : Nat)
    (globals : FrameId) (texts : List String) (sound : d.sound r) (present : d.present r globals) :
    d.sound (Session.after limit ⟨evaluator added strategy, globals⟩ r texts) ∧
      d.later r (Session.after limit ⟨evaluator added strategy, globals⟩ r texts) := by
  induction texts generalizing r with
  | nil => exact ⟨sound, d.later_refl r⟩
  | cons text rest ih =>
      obtain ⟨outcome, s, ran, _, _, sound', later, _⟩ :=
        evaluateText_keeps lawful free limit globals text sound present
      have behind := ih sound' (lawful.present_later r s globals later present)
      have step : Session.after limit ⟨evaluator added strategy, globals⟩ r (text :: rest) =
          Session.after limit ⟨evaluator added strategy, globals⟩ s rest := by
        simp [Session.after, ran]
      rw [step]
      exact ⟨behind.1, d.later_trans _ _ _ later behind.2⟩

theorem strategy_fine (setup : Setup) (shown : Value → Prop) :
    Fine shown (fun _ => True) setup.strategy := by
  have parsed (name : String) : Fine shown (fun _ => True) (Settings.parseStrategy name) := by
    unfold Settings.parseStrategy
    split
    · trivial
    · exact Fine.of_words (by simp [Failure.phrases])
  unfold Setup.strategy
  split
  · exact parsed _
  · exact parsed _

theorem checked_fine (setup : Setup) (shown : Value → Prop) :
    Fine shown (fun _ => True) setup.checked := by
  unfold Setup.checked
  split
  · trivial
  · unfold Settings.defaultChecked Settings.flag Settings.flag?
    refine @Fine.bind _ _ _ _ _ (fun _ => True) _ ?_ fun _ _ => trivial
    split
    · trivial
    · split
      · trivial
      · split
        · trivial
        · exact Fine.of_words (by simp [Failure.phrases])

theorem start_keeps (setup : Setup)
    (lawful : ∀ strategy, setup.strategy = .ok strategy → d.Lawful setup.added strategy)
    (free : d.Open) (sound : d.sound r) (makes : ∀ checked, setup.checked = .ok checked →
      d.KeepsEffect (makeGlobals setup.supplies checked) r fun globals s => d.present s globals) :
    d.Keeps (Session.start setup) (Session.start setup) r fun session s =>
      (∃ strategy, setup.strategy = .ok strategy ∧
        session.evaluator = evaluator setup.added strategy) ∧ d.present s session.globals := by
  have fine := strategy_fine setup d.shown
  have choosing : d.KeepsEffect (Run.ofExcept setup.strategy) r
      fun strategy s => s = r ∧ setup.strategy = .ok strategy := by
    refine keeps_ofExcept sound (fun strategy found => ⟨rfl, found⟩) fun failure failed => ?_
    rw [failed] at fine
    exact fine
  refine Keeps.bind choosing fun strategy s _ _ chosen => ?_
  obtain ⟨rfl, chosen⟩ := chosen
  have fine' := checked_fine setup d.shown
  have checking : d.KeepsEffect (Run.ofExcept setup.checked) s
      fun checked t => t = s ∧ setup.checked = .ok checked := by
    refine keeps_ofExcept sound (fun checked found => ⟨rfl, found⟩) fun failure failed => ?_
    rw [failed] at fine'
    exact fine'
  refine Keeps.bind checking fun checked t _ _ decided => ?_
  obtain ⟨rfl, decided⟩ := decided
  refine Keeps.bind (makes checked decided) fun globals u sound' _ present => ?_
  have text := evaluateText_keeps (lawful strategy chosen) free setup.limit globals setup.prelude
    sound' present
  refine text.bind fun _ v sound'' later _ => ?_
  exact keeps_pure sound''
    ⟨⟨strategy, chosen, rfl⟩, (lawful strategy chosen).present_later u v globals later present⟩

end Discipline

end ThunkLisp
