import ThunkLisp.Proofs.RunRules
import ThunkLisp.Proofs.Watches

/-!
Malformed forms. A special form whose operands are not of its shape fails before any of them is
evaluated, with a fault that shows nothing but parts of them. Names that stand twice are found late,
in the parameter list of the procedure that the form expands into; that procedure is the operator of
a call, which comes before the operands under every strategy.
-/

namespace ThunkLisp

open Machine (effect)
open Value (Every)

/-- What is in the first store is in the second as it was. Only frames may have been added. -/
structure Store.StaysIn (store after : Store) : Prop where
  printed : after.printed = store.printed
  log : after.log = store.log
  thunks : after.thunks = store.thunks
  size : store.frames.size ≤ after.frames.size
  frame : ∀ id < store.frames.size, after.frame id = store.frame id

namespace Store.StaysIn

theorem refl (store : Store) : store.StaysIn store := ⟨rfl, rfl, rfl, Nat.le_refl _, fun _ _ => rfl⟩

theorem trans {a b c : Store} (first : a.StaysIn b) (second : b.StaysIn c) : a.StaysIn c where
  printed := second.printed.trans first.printed
  log := second.log.trans first.log
  thunks := second.thunks.trans first.thunks
  size := Nat.le_trans first.size second.size
  frame id present :=
    (second.frame id (Nat.lt_of_lt_of_le present first.size)).trans (first.frame id present)

theorem takeIdentity (store : Store) : store.StaysIn store.takeIdentity.2 :=
  ⟨rfl, rfl, rfl, Nat.le_refl _, fun _ _ => rfl⟩

theorem extend (store : Store) (home : FrameId) (bindings : Bindings) :
    store.StaysIn (store.extend home bindings).2 where
  printed := rfl
  log := rfl
  thunks := rfl
  size := by simp [Store.extend, Store.addFrame]
  frame id present := store.frame_addFrame_of_lt bindings (some home) none id present

end Store.StaysIn

/-- Between the recordings these codes have begun to be evaluated, in this order, and that is all:
nothing has been forced, no primitive has been applied, and what was in the store is as it was. -/
def Recording.Quietly (r : Recording) (codes : List Value) (s : Recording) : Prop :=
  ∃ newer, s.events = newer ++ r.events ∧ newer.reverse.filterMap Event.begun? = codes ∧
    (∀ id store, .began (.force id) store ∉ newer) ∧
      (∀ p given store, .applied p given store ∉ newer) ∧
    r.store.StaysIn s.store

namespace Recording.Quietly

variable {r s t : Recording} {codes more : List Value}

theorem of_store {after : Store} (stays : r.store.StaysIn after) : r.Quietly [] ⟨after, r.events⟩ :=
  ⟨[], rfl, rfl, nofun, nofun, stays⟩

theorem trans (first : r.Quietly codes s) (second : s.Quietly more t) :
    r.Quietly (codes ++ more) t := by
  obtain ⟨newer, events, begun, unforced, unapplied, stays⟩ := first
  obtain ⟨newest, events', begun', unforced', unapplied', stays'⟩ := second
  refine ⟨newest ++ newer, ?_, ?_, ?_, ?_, stays.trans stays'⟩
  · rw [events', events, List.append_assoc]
  · rw [List.reverse_append, List.filterMap_append, begun, begun']
  · intro id store member
    exact (List.mem_append.mp member).elim (unforced' id store) (unforced id store)
  · intro p given store member
    exact (List.mem_append.mp member).elim (unapplied' p given store) (unapplied p given store)

theorem task {code : Value} {frame : FrameId}
    (inside : (r.beginning (.evaluate code frame)).Quietly codes s) (before : Store)
    (outcome : Except Failure Value) :
    r.Quietly (code :: codes) (s.ending (.evaluate code frame) before outcome) := by
  obtain ⟨newer, events, begun, unforced, unapplied, stays⟩ := inside
  refine ⟨.ended (.evaluate code frame) before outcome s.store ::
    (newer ++ [.began (.evaluate code frame) r.store]), ?_, ?_, ?_, ?_, stays⟩
  · simp [Recording.ending, Recording.note, events, Recording.beginning]
  · simp [Event.begun?, begun]
  · simpa using unforced
  · simpa using unapplied

end Recording.Quietly

/-- A recorded computation ends this way, with nothing but these codes begun. -/
def Recorded.Ends {α : Type} (x : Recorded α) (r : Recording) (outcome : Except Failure α)
    (codes : List Value) : Prop := ∃ s, x.on r = (outcome, s) ∧ r.Quietly codes s

namespace Recorded.Ends

variable {α β : Type} {r : Recording} {codes : List Value}

theorem of_effect {x : Run α} {outcome : Except Failure α} {after : Store}
    (ran : x.on r.store = (outcome, after)) (stays : r.store.StaysIn after) :
    Ends (effect x) r outcome [] := by
  refine ⟨⟨after, r.events⟩, ?_, .of_store stays⟩
  rw [Recorded.on_effect, ran]

theorem of_throw (failure : Failure) : Ends (effect (throw failure) : Recorded α) r (.error failure)
    [] :=
  of_effect (Run.on_throw failure r.store) (.refl _)

theorem of_pure (v : α) : Ends (pure v) r (.ok v) [] := ⟨r, rfl, .of_store (.refl _)⟩

theorem bind_error {x : Recorded α} {next : α → Recorded β} {failure : Failure}
    (first : x.Ends r (.error failure) codes) : (x >>= next).Ends r (.error failure) codes := by
  obtain ⟨s, ran, quietly⟩ := first
  refine ⟨s, ?_, quietly⟩
  rw [on_bind, ran]

theorem bind_ok {x : Recorded α} {next : α → Recorded β} {v : α} {outcome : Except Failure β}
    {more : List Value} (first : x.Ends r (.ok v) codes)
    (behind : ∀ s, (next v).Ends s outcome more) :
    (x >>= next).Ends r outcome (codes ++ more) := by
  obtain ⟨s, ran, quietly⟩ := first
  obtain ⟨t, goes, quietly'⟩ := behind s
  refine ⟨t, ?_, quietly.trans quietly'⟩
  rw [on_bind, ran]
  exact goes

end Recorded.Ends

/-! Faults. -/

/-- A failure of a form for its shape: the misplaced `else` if that is what is first wrong with the
clauses, and a fault of forms for everything else. It shows nothing but parts of the operands, so
nothing that is nested deeper. -/
structure FormFault (word : String) (operands : List Value) (failure : Failure) : Prop where
  misplaced : word = "cond" → ElseMisplaced operands → failure = .misplacedElse operands
  malformed : ¬ (word = "cond" ∧ ElseMisplaced operands) → ∃ fault, failure = .malformed fault ∧
    fault.OfForm
  shown (p : Value → Prop) (depth : Nat) : (∀ operand ∈ operands, Every p operand) →
    (Value.list operands).nesting ≤ depth → failure.ShowsWholes fun v => Every p v ∧
      v.nesting ≤ depth

/-- Whatever is handed down from the operands to their parts is so to what the failure shows. -/
def ShowsParts (operands : List Value) (failure : Failure) : Prop :=
  ∀ condition : Value → Prop, Hereditary condition → condition (.list operands) →
    failure.ShowsWholes condition

theorem ShowsParts.shown {operands : List Value} {failure : Failure}
    (parts : ShowsParts operands failure) (p : Value → Prop) (depth : Nat)
    (each : ∀ operand ∈ operands, Every p operand)
    (within : (Value.list operands).nesting ≤ depth) :
    failure.ShowsWholes fun v => Every p v ∧ v.nesting ≤ depth :=
  parts _ ((hereditary_every p).and (hereditary_nesting depth)) ⟨.list operands each, within⟩

theorem FormFault.of_malformed {word : String} {operands : List Value} {fault : Malformed}
    (other : word ≠ "cond") (ofForm : fault.OfForm)
    (shown : ∀ p depth, (∀ operand ∈ operands, Every p operand) →
      (Value.list operands).nesting ≤ depth →
        (Failure.malformed fault).ShowsWholes fun v => Every p v ∧ v.nesting ≤ depth) :
    FormFault word operands (.malformed fault) :=
  ⟨fun same => absurd same other, fun _ => ⟨fault, rfl, ofForm⟩, shown⟩

theorem FormFault.of_words {word : String} {operands : List Value} {fault : Malformed}
    (other : word ≠ "cond") (ofForm : fault.OfForm)
    (words : ∀ phrase ∈ fault.phrases, ∃ text, phrase = .words text) :
    FormFault word operands (.malformed fault) := by
  refine .of_malformed other ofForm (ShowsParts.shown fun _ _ _ phrase member => ?_)
  obtain ⟨text, rfl⟩ := words phrase member
  trivial

theorem FormFault.of_operand {word : String} {operands : List Value} {fault : Malformed}
    {operand : Value} (other : word ≠ "cond") (ofForm : fault.OfForm) (member : operand ∈ operands)
    (phrases : ∃ text, fault.phrases = [.words text, .written operand]) :
    FormFault word operands (.malformed fault) := by
  refine .of_malformed other ofForm (ShowsParts.shown
    fun condition passes whole phrase inside => ?_)
  obtain ⟨text, same⟩ := phrases
  rw [Failure.phrases, same] at inside
  rcases List.mem_pair.mp inside with rfl | rfl
  · trivial
  · exact passes operands whole operand member

namespace Derived

/-- The definition of the loop of a named `let`, -/
def loopDefinition (name : String) (entries : List (String × Value)) (forms : List Value) : Value :=
  .list (.sym "define" :: .list (.sym name :: symbols entries) :: forms)

/-- and the procedure around it. -/
def loopMaker (name : String) (entries : List (String × Value)) (forms : List Value) : Value :=
  .list [.sym "lambda", .list [], loopDefinition name entries forms, .sym name]

end Derived

/-- Nothing is wrong with the form but that some names stand twice. -/
inductive Doubled : String → List Value → Prop where
  | scope (entries : List (String × Value)) (forms : List Value) (doubled :
      ¬ (entries.map Prod.fst).Nodup) :
      Doubled "let" (.list (entries.map Derived.entryForm) :: forms)
  | loop (name : String) (entries : List (String × Value)) (forms : List Value)
      (doubled : ¬ (entries.map Prod.fst).Nodup) :
      Doubled "let" (.sym name :: .list (entries.map Derived.entryForm) :: forms)
  | recursive (entries : List (String × Value)) (forms : List Value) (doubled :
      ¬ (entries.map Prod.fst).Nodup) :
      Doubled "letrec" (.list (entries.map Derived.entryForm) :: forms)

/-! Forms that fail at once. -/

/-- The rule of the form fails with a fault of the form, whatever is inside. -/
def FailsAtOnce (word : String) (form : Form) (operands : List Value) : Prop :=
  ∃ failure, FormFault word operands failure ∧
    ∀ (inner : Inner Recorded) (frame : FrameId) (r : Recording),
      (form.run inner frame operands).Ends r (.error failure) []

namespace FailsAtOnce

variable {word : String} {form : Form} {operands : List Value} (fault : Malformed)

theorem of_words (other : word ≠ "cond") (ofForm : fault.OfForm)
    (words : ∀ phrase ∈ fault.phrases, ∃ text, phrase = .words text)
    (refused : ∀ (inner : Inner Recorded) (frame : FrameId),
      form.run inner frame operands = effect (throw (.malformed fault))) :
    FailsAtOnce word form operands := by
  refine ⟨.malformed fault, .of_words other ofForm words, fun inner frame r => ?_⟩
  rw [refused]
  exact .of_throw _

theorem of_operand {operand : Value} (other : word ≠ "cond") (ofForm : fault.OfForm)
    (member : operand ∈ operands)
    (phrases : ∃ text, fault.phrases = [.words text, .written operand])
    (refused : ∀ (inner : Inner Recorded) (frame : FrameId),
      form.run inner frame operands = effect (throw (.malformed fault))) :
    FailsAtOnce word form operands := by
  refine ⟨.malformed fault, .of_operand other ofForm member phrases, fun inner frame r => ?_⟩
  rw [refused]
  exact .of_throw _

end FailsAtOnce

theorem quote_fails (operands : List Value) (wrong : ¬ Shaped "quote" operands) :
    FailsAtOnce "quote" .quote operands := by
  have refused (inner : Inner Recorded) (frame : FrameId) :
      Form.quote.run inner frame operands = effect (throw (.malformed .quoteOperands)) := by
    rcases operands with _ | ⟨datum, _ | ⟨_, _⟩⟩
    · rfl
    · exact absurd (.quote datum) wrong
    · rfl
  exact .of_words .quoteOperands (by decide) trivial (by simp [Malformed.phrases]) refused

theorem assign_fails (operands : List Value) (wrong : ¬ Shaped "set!" operands) :
    FailsAtOnce "set!" .assign operands := by
  have count (odd : ∀ inner : Inner Recorded, ∀ frame,
      Form.runAssign inner frame operands = effect (throw (.malformed .setOperands))) :
      FailsAtOnce "set!" .assign operands :=
    .of_words .setOperands (by decide) trivial (by simp [Malformed.phrases]) odd
  rcases operands with _ | ⟨target, _ | ⟨code, _ | ⟨_, _⟩⟩⟩
  · exact count fun _ _ => rfl
  · exact count fun _ _ => by simp [Form.runAssign]
  · cases target with
    | sym name => exact absurd (.assign name code) wrong
    | _ =>
        exact .of_operand (.setTarget _) (by decide) trivial List.mem_cons_self ⟨_, rfl⟩
          fun _ _ => rfl
  · exact count fun _ _ => by simp [Form.runAssign]

theorem makeProcedure_ends {spec : Value} {fault : Malformed}
    (failed : parseParams spec = .error fault) (body : List Value) (frame : FrameId)
    (r : Recording) :
    (effect (Form.makeProcedure spec body frame) : Recorded Value).Ends r
      (.error (.malformed fault)) [] := by
  rw [Form.makeProcedure, failed]
  exact .of_throw _

theorem define_value_fails (name : String) (rest : List Value) (other : ∀ code, rest ≠ [code]) :
    FailsAtOnce "define" .define (.sym name :: rest) := by
  have refused (inner : Inner Recorded) (frame : FrameId) :
      Form.define.run inner frame (.sym name :: rest) =
        effect (throw (.malformed .defineValue)) := by
    rcases rest with _ | ⟨code, _ | ⟨_, _⟩⟩
    · rfl
    · exact absurd rfl (other code)
    · rfl
  exact .of_words .defineValue (by decide) trivial (by simp [Malformed.phrases]) refused

theorem define_procedure_fails (name : String) (specs body : List Value) (fault : Malformed)
    (ofForm : fault.OfForm) (failed : parseParams (.list specs) = .error fault) :
    FailsAtOnce "define" .define (.list (.sym name :: specs) :: body) := by
  refine ⟨.malformed fault, .of_malformed (by decide) ofForm fun p depth each within => ?_,
    fun _ frame r => .bind_error (makeProcedure_ends failed body frame r)⟩
  -- the list of parameters is no part of the form but the rest of one, so both are seen to at once
  have every := each (.list (.sym name :: specs)) List.mem_cons_self
  have inside : (Value.list (.sym name :: specs)).nesting <
      (Value.list (.list (.sym name :: specs) :: body)).nesting :=
    Value.nesting_lt List.mem_cons_self
  have shallow : (Value.list specs).nesting ≤ depth := calc
    (Value.list specs).nesting ≤ (Value.list (.sym name :: specs)).nesting :=
      Value.nesting_tail_le _ specs
    _ ≤ (Value.list (.list (.sym name :: specs) :: body)).nesting := Nat.le_of_lt inside
    _ ≤ depth := within
  exact parseParams_shows ((hereditary_every p).and (hereditary_nesting depth)) (.list specs) fault
    ⟨((Value.every_cons _ _).mp every).2, shallow⟩ failed

theorem define_fails (operands : List Value) (wrong : ¬ Shaped "define" operands) :
    FailsAtOnce "define" .define operands := by
  have odd (target : Value) (body : List Value)
      (refused : ∀ (inner : Inner Recorded) (frame : FrameId),
        Form.runDefine inner frame (target :: body) = effect
          (throw (.malformed (.defineTarget target)))) :
      FailsAtOnce "define" .define (target :: body) :=
    .of_operand (.defineTarget target) (by decide) trivial List.mem_cons_self ⟨_, rfl⟩ refused
  cases operands with
  | nil =>
      exact .of_words .defineOperands (by decide) trivial (by simp [Malformed.phrases])
        fun _ _ => rfl
  | cons target body =>
      cases target with
      | sym name =>
          refine define_value_fails name body ?_
          rintro code rfl
          exact wrong (.define name code)
      | list items =>
          cases items with
          | nil => exact odd _ body fun _ _ => rfl
          | cons head specs =>
              cases head with
              | sym name =>
                  rcases parseParams_cases (.list specs) with
                    ⟨_, _, _, ⟨⟩, shape⟩ | ⟨fault, failed, ofForm⟩
                  · exact absurd (.defineProcedure name specs body shape) wrong
                  · exact define_procedure_fails name specs body fault ofForm failed
              | _ => exact odd _ body fun _ _ => rfl
      | _ => exact odd _ body fun _ _ => rfl

theorem conditional_fails (operands : List Value) (wrong : ¬ Shaped "if" operands) :
    FailsAtOnce "if" .conditional operands := by
  have refused (inner : Inner Recorded) (frame : FrameId) :
      Form.conditional.run inner frame operands = effect (throw (.malformed .ifOperands)) := by
    rcases operands with _ | ⟨test, _ | ⟨usual, _ | ⟨otherwise, _ | ⟨_, _⟩⟩⟩⟩
    · rfl
    · rfl
    · exact absurd (.oneBranch test usual) wrong
    · exact absurd (.twoBranches test usual otherwise) wrong
    · rfl
  exact .of_words .ifOperands (by decide) trivial (by simp [Malformed.phrases]) refused

theorem procedure_fails (operands : List Value) (wrong : ¬ Shaped "lambda" operands) :
    FailsAtOnce "lambda" .procedure operands := by
  cases operands with
  | nil =>
      exact .of_words .lambdaOperands (by decide) trivial (by simp [Malformed.phrases])
        fun _ _ => rfl
  | cons spec body =>
      rcases parseParams_cases spec with ⟨params, specs, found, rfl, shape⟩ | ⟨fault, failed,
        ofForm⟩
      · exact absurd (.procedure specs body shape) wrong
      · refine ⟨.malformed fault, .of_malformed (by decide) ofForm
          (ShowsParts.shown fun condition passes whole => ?_), fun _ frame r => ?_⟩
        · exact parseParams_shows passes spec fault (passes _ whole spec List.mem_cons_self) failed
        · exact makeProcedure_ends failed body frame r

theorem derived_fails (word : String) (form : Derived) (operands : List Value)
    (named : word = "cond" ↔ form = .cond) (none : ∀ code, form.expand operands ≠ .ok code) :
    FailsAtOnce word (.derived form) operands := by
  have ends (failure : Failure) (failed : form.expand operands = .error failure)
      (inner : Inner Recorded)
      (frame : FrameId) (r : Recording) : ((Form.derived form).run inner frame operands).Ends r
        (.error failure) [] := by
    simp only [Form.run, failed]
    exact .bind_error (.of_throw failure)
  rcases expand_cases form operands with ⟨code, expanded, _⟩ | ⟨same, misplaced, failed⟩ | ⟨fault,
    failed, ofForm, placed⟩
  · exact absurd expanded (none code)
  · refine ⟨.misplacedElse operands, ⟨fun _ _ => rfl, fun other => ?_, ShowsParts.shown ?_⟩,
    ends _ failed⟩
    · exact absurd ⟨named.mpr same, misplaced⟩ other
    · exact fun _ passes whole => expand_shows passes form operands _ whole failed
  · refine ⟨.malformed fault, ⟨fun same misplaced => ?_, fun _ => ⟨fault, rfl, ofForm⟩,
      ShowsParts.shown ?_⟩, ends _ failed⟩
    · exact absurd misplaced (placed (named.mp same))
    · exact fun _ passes whole => expand_shows passes form operands _ whole failed

/-- A form that is not of its shape fails at once, but for names that stand twice. -/
theorem form_fails (word : String) (form : Form) (operands : List Value)
    (special : word ∈ shapedForms) (found : FormTable.full.find? word = some form)
    (wrong : ¬ Shaped word operands) (single : ¬ Doubled word operands) :
    FailsAtOnce word form operands := by
  simp only [shapedForms, List.mem_cons, List.not_mem_nil, or_false] at special
  -- the forms in their order
  rcases special with rfl | rfl | rfl | rfl | rfl | rfl | rfl | rfl | rfl | rfl <;> cases found
  · exact quote_fails operands wrong
  · exact assign_fails operands wrong
  · exact define_fails operands wrong
  · exact conditional_fails operands wrong
  · exact procedure_fails operands wrong
  · refine derived_fails "cond" .cond operands (by decide) fun code expanded => ?_
    rcases expand_cases .cond operands with ⟨_, _, shape⟩ | ⟨_, _, failed⟩ | ⟨_, failed, _⟩
    · exact wrong (.cond operands (shape rfl))
    · simp [expanded] at failed
    · simp [expanded] at failed
  · refine derived_fails "unless" .unless operands (by decide) fun code expanded => ?_
    simp only [Derived.expand, Derived.expandUnless] at expanded
    split at expanded
    · exact wrong (.unlessOnly _ _)
    · exact wrong (.unlessElse _ _ _)
    · cases expanded
  · refine derived_fails "let" .namedLet operands (by decide) fun code expanded => ?_
    rcases Derived.expandNamedLet_eq operands code expanded with
      ⟨entries, forms, rfl, _⟩ | ⟨name, entries, forms, rfl, _⟩
    · by_cases distinct : (entries.map Prod.fst).Nodup
      · exact wrong (.scope entries forms distinct)
      · exact single (.scope entries forms distinct)
    · by_cases distinct : (entries.map Prod.fst).Nodup
      · exact wrong (.loop name entries forms distinct)
      · exact single (.loop name entries forms distinct)
  · refine derived_fails "let*" .letStar operands (by decide) fun code expanded => ?_
    obtain ⟨entries, forms, rfl, _⟩ := Derived.expandLetStar_eq operands code expanded
    exact wrong (.scopes entries forms)
  · refine derived_fails "letrec" .letrec operands (by decide) fun code expanded => ?_
    obtain ⟨entries, forms, rfl, _⟩ := Derived.expandLetrec_eq operands code expanded
    by_cases distinct : (entries.map Prod.fst).Nodup
    · exact wrong (.recursive entries forms distinct)
    · exact single (.recursive entries forms distinct)

/-! Names that stand twice. -/

namespace Evaluator

variable {evaluator : Evaluator} {limit : Nat} {frame : FrameId} {r : Recording}
  {outcome : Except Failure Value}
  {codes : List Value}

theorem ends_combination {head : Value} {operands : List Value}
    (ends : (evaluator.evaluateCombination (evaluator.stack limit) head operands frame :
      Recorded Value).Ends
      (r.beginning (.evaluate (.list (head :: operands)) frame)) outcome codes) :
    (evaluator.run (limit + 1) (.evaluate (.list (head :: operands)) frame) : Recorded Value).Ends r
      outcome
      (.list (head :: operands) :: codes) := by
  obtain ⟨s, ran, quietly⟩ := ends
  exact ⟨_, on_combination ran, quietly.task r.store outcome⟩

theorem ends_form {word : String} {form : Form} {operands : List Value}
    (found : evaluator.forms.find? word = some form)
    (ends : (form.run ((evaluator.stack limit).above form.calls) frame operands :
      Recorded Value).Ends
      (r.beginning (.evaluate (.list (.sym word :: operands)) frame)) outcome codes) :
    (evaluator.run (limit + 1) (.evaluate (.list (.sym word :: operands)) frame) :
      Recorded Value).Ends r outcome
      (.list (.sym word :: operands) :: codes) := by
  refine ends_combination ?_
  rw [combination_form evaluator _ word form operands frame found]
  exact ends

theorem ends_derived {word : String} {form : Derived} {operands : List Value} {code : Value}
    (found : evaluator.forms.find? word = some (.derived form))
    (expanded : form.expand operands = .ok code)
    (ends : ∀ r, (evaluator.run (limit - 3) (.evaluate code frame) : Recorded Value).Ends r outcome
    codes) :
    (evaluator.run (limit + 1) (.evaluate (.list (.sym word :: operands)) frame) :
      Recorded Value).Ends r outcome
      (.list (.sym word :: operands) :: codes) := by
  refine ends_form found ?_
  simp only [Form.run, expanded, evaluate_above]
  exact Recorded.Ends.bind_ok (.of_effect rfl (.refl _)) ends

theorem ends_call {head : Value} {operands : List Value} {failure : Failure}
    (compound : ∀ name, head ≠ .sym name)
    (ends : ∀ r, (evaluator.run limit (.evaluate head frame) : Recorded Value).Ends r
    (.error failure) codes) :
    (evaluator.run (limit + 1) (.evaluate (.list (head :: operands)) frame) : Recorded Value).Ends r
      (.error failure)
      (.list (head :: operands) :: codes) := by
  refine ends_combination ?_
  rw [combination_application evaluator _ head operands frame fun name same =>
    absurd same (compound name), evaluate_stack]
  exact .bind_error (ends _)

theorem ends_no_arguments (strategy : Strategy) (inner : Inner Recorded) (identity : Nat)
    (body : List Value) (home : FrameId) :
    (strategy.arguments inner (.procedure identity [] body home) frame []).Ends r (.ok []) [] := by
  cases strategy with
  | strict => exact .of_pure []
  | lazy => exact .of_effect rfl (.refl _)
  | mixed => exact .of_pure []

/-- A procedure without parameters is made and called on nothing: a new frame, and then its body,
which fails in its first form. -/
theorem ends_maker_call (lambda : evaluator.forms.find? "lambda" = some .procedure)
    {first next : Value} {failure : Failure}
    (ends : ∀ frame r, (evaluator.run (limit + 1) (.evaluate first frame) : Recorded Value).Ends r
    (.error failure) codes) :
    let maker : Value := .list [.sym "lambda", .list [], first, next]
    (evaluator.run (limit + 7) (.evaluate (.list [maker]) frame) : Recorded Value).Ends r
      (.error failure)
      (.list [maker] :: maker :: codes) := by
  intro maker
  have made (r : Recording) : (evaluator.run (limit + 6) (.evaluate maker frame) :
      Recorded Value).Ends r
      (.ok (.procedure r.store.fresh [] [first, next] frame)) [maker] :=
    ends_form lambda (.of_effect rfl (.takeIdentity r.store))
  have called (identity : Nat) (r : Recording) :
      (apply evaluator.added ((evaluator.stack (limit + 6)).above appliedCalls)
        (.procedure identity [] [first, next] frame) [] : Recorded Value).Ends r (.error failure)
          codes := by
    have body (home : FrameId) (s : Recording) :
        (Inner.sequence ((evaluator.stack (limit + 6)).above appliedCalls)
        home [first, next] : Recorded Value).Ends s (.error failure) codes := by
      rw [evaluator.sequence_above]
      exact .bind_error (ends home s)
    have entered : Recorded.Ends (effect (bindParams [] frame [])) r (.ok r.store.frames.size) [] :=
      .of_effect rfl (.extend r.store frame [])
    exact entered.bind_ok fun s => body _ s
  refine ends_combination ?_
  rw [combination_application evaluator _ maker [] frame (by simp [maker]), evaluate_stack]
  refine (made _).bind_ok fun s => ?_
  exact (ends_no_arguments evaluator.strategy _ _ _ _).bind_ok fun t => called _ t

end Evaluator

/-- The trees whose evaluation begins before a form that is not of its shape has failed: the form,
and for names that stand twice what it expands into, down to the parameter list. None is an operand
of the form. -/
inductive FaultPath : String → List Value → List Value → Prop where
  | atOnce (word : String) (operands : List Value) (single : ¬ Doubled word operands) :
      FaultPath word operands [.list (.sym word :: operands)]
  | scope (entries : List (String × Value)) (forms : List Value) (doubled :
      ¬ (entries.map Prod.fst).Nodup) :
      FaultPath "let" (.list (entries.map Derived.entryForm) :: forms)
        [.list (.sym "let" :: .list (entries.map Derived.entryForm) :: forms),
          Derived.letCall entries forms,
          .list (.sym "lambda" :: .list (Derived.symbols entries) :: forms)]
  | loop (name : String) (entries : List (String × Value)) (forms : List Value)
      (doubled : ¬ (entries.map Prod.fst).Nodup) :
      FaultPath "let" (.sym name :: .list (entries.map Derived.entryForm) :: forms)
        [.list (.sym "let" :: .sym name :: .list (entries.map Derived.entryForm) :: forms),
          Derived.loopCall name entries forms, .list [Derived.loopMaker name entries forms],
          Derived.loopMaker name entries forms, Derived.loopDefinition name entries forms]
  | recursive (entries : List (String × Value)) (forms : List Value) (doubled :
      ¬ (entries.map Prod.fst).Nodup) :
      FaultPath "letrec" (.list (entries.map Derived.entryForm) :: forms)
        [Derived.letrecForm entries forms, Derived.letrecScope entries forms,
          Derived.letrecCall entries forms,
          .list (.sym "lambda" :: .list (Derived.symbols entries) ::
          (Derived.assignments entries ++ forms))]

theorem every_symbols {p : Value → Prop} {entries : List (String × Value)}
    (every : Every p (.list (entries.map Derived.entryForm))) :
      Every p (.list (Derived.symbols entries)) := by
  refine .list _ fun v member => ?_
  obtain ⟨entry, inside, rfl⟩ := List.mem_map.mp member
  have binding := (Value.every_list _).mp every (Derived.entryForm entry)
    (List.mem_map_of_mem inside)
  exact ((Value.every_cons _ _).mp binding).1

theorem nesting_symbols_le (entries : List (String × Value)) :
    (Value.list (Derived.symbols entries)).nesting ≤
      (Value.list (entries.map Derived.entryForm)).nesting := by
  refine Nat.succ_le_succ (Value.nestingAll_le_iff.mpr fun v member => ?_)
  obtain ⟨entry, inside, rfl⟩ := List.mem_map.mp member
  exact Nat.le_trans (Value.nesting_pos (Derived.entryForm entry))
    (Value.nesting_le_nestingAll (List.mem_map_of_mem inside))

theorem makeProcedure_ends_doubled {entries : List (String × Value)} (doubled :
    ¬ (entries.map Prod.fst).Nodup)
    (body : List Value) (frame : FrameId) (r : Recording) :
    (effect (Form.makeProcedure (.list (Derived.symbols entries)) body frame) : Recorded Value).Ends
      r
      (.error (.malformed (.duplicateParam (.list (Derived.symbols entries))))) [] :=
  makeProcedure_ends (by rw [parseParams_symbols, if_neg doubled]) body frame r

theorem FormFault.of_doubled {word : String} {operands : List Value}
    {entries : List (String × Value)} (other : word ≠ "cond")
    (member : .list (entries.map Derived.entryForm) ∈ operands) :
    FormFault word operands (.malformed (.duplicateParam (.list (Derived.symbols entries)))) := by
  refine .of_malformed other trivial fun p depth each within => ?_
  have shallow := Nat.le_trans (Nat.le_of_lt (Value.nesting_lt member)) within
  simpa [Failure.ShowsWholes, Failure.phrases, Malformed.phrases, Phrase.ShowsWholes] using
    And.intro (every_symbols (each _ member)) (Nat.le_trans (nesting_symbols_le entries) shallow)

theorem doubled_fails (strategy : Strategy) (added : AddedActions) (word : String)
    (operands : List Value) (doubled : Doubled word operands) :
    ∃ failure codes, FormFault word operands failure ∧ FaultPath word operands codes ∧
      ∀ (limit : Nat) (frame : FrameId) (r : Recording),
        ((⟨FormTable.full, strategy, added⟩ : Evaluator).run (limit + 12)
          (.evaluate (.list (.sym word :: operands)) frame) : Recorded Value).Ends r
            (.error failure) codes := by
  cases doubled with
  | scope entries forms doubled =>
      refine ⟨_, _, .of_doubled (by decide) List.mem_cons_self, .scope entries forms doubled,
        fun limit frame r => ?_⟩
      refine Evaluator.ends_derived rfl (Derived.expand_scope entries forms) fun r => ?_
      refine Evaluator.ends_call (by simp) fun r => ?_
      exact Evaluator.ends_form rfl (makeProcedure_ends_doubled doubled forms frame _)
  | loop name entries forms doubled =>
      refine ⟨_, _, .of_doubled (by decide) (.tail _ List.mem_cons_self),
        .loop name entries forms doubled, fun limit frame r => ?_⟩
      refine Evaluator.ends_derived rfl (Derived.expand_loop name entries forms) fun r => ?_
      refine Evaluator.ends_call (by simp) fun r => ?_
      -- the loop is defined in the frame of a call that its definition ends
      refine Evaluator.ends_maker_call rfl fun frame r => ?_
      exact Evaluator.ends_form rfl (.bind_error (makeProcedure_ends_doubled doubled forms frame _))
  | recursive entries forms doubled =>
      refine ⟨_, _, .of_doubled (by decide) List.mem_cons_self, .recursive entries forms doubled,
        fun limit frame r => ?_⟩
      refine Evaluator.ends_derived rfl (Derived.expand_letrec entries forms) fun r => ?_
      refine Evaluator.ends_derived rfl (Derived.expand_letrecScope entries forms) fun r => ?_
      refine Evaluator.ends_call (by simp) fun r => ?_
      exact Evaluator.ends_form rfl (makeProcedure_ends_doubled doubled _ frame _)

/-! Messages. -/

/-- Leaves that can be written in every store: no suspension, whose text may hold anything, and no
whole number with too many digits. -/
def Value.isWritable : Value → Bool
  | .thunk _ => false
  | .int n => decide (n.natAbs < 10 ^ Number.digitLimit)
  | _ => true

theorem writtenItems_ok {thunkText : List Value → ThunkId → Except Failure String}
    {far near items : List Value} (each : ∀ v ∈ items, ∃ text, v.writtenWith thunkText far near =
    .ok text) :
    ∃ texts, Value.writtenItems thunkText far near items = .ok texts := by
  induction items with
  | nil => exact ⟨[], by rw [Value.writtenItems]⟩
  | cons item rest ih =>
      obtain ⟨text, first⟩ := each item List.mem_cons_self
      obtain ⟨texts, behind⟩ := ih fun v member => each v (.tail _ member)
      exact ⟨text :: texts, by simp [Value.writtenItems, first, behind, bind, Except.bind, pure,
        Except.pure]⟩

theorem writtenWith_ok (thunkText : List Value → ThunkId → Except Failure String) {v : Value}
    (writable : Every (fun leaf => leaf.isWritable = true) v) {far near : List Value}
    (room : near.length + far.length + v.nesting ≤ Value.writtenLimit) :
    ∃ text, v.writtenWith thunkText far near = .ok text := by
  induction writable generalizing far near with
  | leaf v flat holds =>
      cases v with
      | list items => cases flat
      | thunk id => cases holds
      | int n =>
          have short : n.natAbs < 10 ^ Number.digitLimit := by simpa [Value.isWritable] using holds
          exact ⟨_, by rw [Value.writtenWith, if_pos short]⟩
      | bool b => cases b <;> exact ⟨_, by rw [Value.writtenWith]⟩
      | _ => exact ⟨_, by rw [Value.writtenWith]⟩
  | list items _ ih =>
      have deep : near.length + far.length < Value.writtenLimit :=
        Nat.lt_of_lt_of_le (Nat.lt_add_of_pos_right (Value.nesting_pos _)) room
      have texts : ∃ texts, Value.writtenItems thunkText far (.list items :: near) items =
          .ok texts := by
        refine writtenItems_ok fun v member => ih v member ?_
        have inside := Value.nesting_lt member
        simp only [List.length_cons]
        omega
      rw [Value.writtenWith, if_neg (Nat.not_le_of_lt deep)]
      split
      · exact ⟨_, rfl⟩
      · obtain ⟨texts, found⟩ := texts
        exact ⟨_, by rw [found]; rfl⟩

def Value.IsTold (v : Value) : Prop := Every (fun leaf => leaf.isWritable = true) v ∧
    v.nesting ≤ writtenLimit

theorem Value.IsTold.written {v : Value} (told : v.IsTold) (store : Store) :
    ∃ text, store.written v = .ok text :=
  writtenWith_ok _ told.1 (by simpa using told.2)

theorem Value.IsTold.displayed {v : Value} (told : v.IsTold) (store : Store) :
    ∃ text, store.displayed v = .ok text := by
  cases v with
  | str text => exact ⟨text, rfl⟩
  | sym name => exact ⟨name, rfl⟩
  | _ => exact told.written store

theorem reported_of_told (store : Store) (failure : Failure)
    (shown : failure.ShowsWholes Value.IsTold) :
    failure.reported store = failure := by
  have texts (phrases : List Phrase) (each : ∀ phrase ∈ phrases, phrase.ShowsWholes Value.IsTold) :
      ∃ texts, phrases.mapM (Phrase.text store) = .ok texts := by
    induction phrases with
    | nil => exact ⟨[], rfl⟩
    | cons phrase rest ih =>
        have here : ∃ text, phrase.text store = .ok text := by
          have told := each phrase List.mem_cons_self
          cases phrase with
          | words text => exact ⟨text, rfl⟩
          | written v => exact told.written store
          | displayed v => exact told.displayed store
        obtain ⟨text, first⟩ := here
        obtain ⟨behind, others⟩ := ih fun found member => each found (.tail _ member)
        exact ⟨text :: behind, by simp [List.mapM_cons, first, others, bind, Except.bind, pure,
          Except.pure]⟩
  obtain ⟨found, told⟩ := texts failure.phrases shown
  simp only [Failure.reported, Failure.message, told, Except.map]

/-- A special form whose operands are not of its shape fails for that, under every strategy and in
every frame and store. Only the form and what it expands into has begun to be evaluated; nothing is
applied or forced, nothing is printed, and what was in the store is as it was. The failure is also
reported, unless the operands hold something that can not be written, or too many lists inside each
other. -/
theorem malformed_form_fails_first (strategy : Strategy) (added : AddedActions) (word : String)
    (operands : List Value) (special : word ∈ shapedForms) (wrong : ¬ Shaped word operands)
    (limit : Nat) (frame : FrameId) (r : Recording) :
    let evaluator : Evaluator := ⟨FormTable.full, strategy, added⟩
    let task : Task := .evaluate (.list (.sym word :: operands)) frame
    ∃ failure codes s, FormFault word operands failure ∧ FaultPath word operands codes ∧
      (evaluator.run (limit + 12) task : Recorded Value).on r = (.error failure, s) ∧
      (evaluator.run (limit + 12) task : Run Value).on r.store = (.error failure, s.store) ∧
        r.Quietly codes s ∧
      ((∀ operand ∈ operands, Every (fun leaf => leaf.isWritable = true) operand) →
        (Value.list operands).nesting ≤ Value.writtenLimit →
          failure.reported s.store = failure) := by
  intro evaluator task
  have fails : ∃ failure codes, FormFault word operands failure ∧ FaultPath word operands codes ∧
      (evaluator.run (limit + 12) task : Recorded Value).Ends r (.error failure) codes := by
    by_cases doubled : Doubled word operands
    · obtain ⟨failure, codes, fault, path, ends⟩ :=
        doubled_fails strategy added word operands doubled
      exact ⟨failure, codes, fault, path, ends limit frame r⟩
    · obtain ⟨form, found⟩ : ∃ form, FormTable.full.find? word = some form := by
        simp only [shapedForms, List.mem_cons, List.not_mem_nil, or_false] at special
        rcases special with rfl | rfl | rfl | rfl | rfl | rfl | rfl | rfl | rfl | rfl <;>
          exact ⟨_, rfl⟩
      obtain ⟨failure, fault, ends⟩ := form_fails word form operands special found wrong doubled
      exact ⟨failure, _, fault, .atOnce word operands doubled,
        Evaluator.ends_form found (ends _ _ _)⟩
  obtain ⟨failure, codes, fault, path, s, ran, quietly⟩ := fails
  refine ⟨failure, codes, s, fault, path, ran, ?_, quietly, fun writable within => ?_⟩
  · rw [evaluator.run_on_store, ran]
  · exact reported_of_told s.store failure (fault.shown _ _ writable within)

theorem Shaped.clauses {clauses : List Value} (shaped : Shaped "cond" clauses) :
    ClausesShape clauses := by
  generalize named : "cond" = word at shaped
  cases shaped with
  | cond _ shape => exact shape
  | _ => simp at named

theorem Shaped.target {target : Value} {body : List Value}
    (shaped : Shaped "define" (target :: body)) :
    (∃ name, target = .sym name) ∨ ∃ name specs, target = .list (.sym name :: specs) := by
  generalize named : "define" = word at shaped
  generalize given : target :: body = operands at shaped
  cases shaped with
  | define name _ => exact .inl ⟨name, (List.cons.inj given).1⟩
  | defineProcedure name specs _ _ => exact .inr ⟨name, specs, (List.cons.inj given).1⟩
  | _ => simp at named

/-- An `else` before the last clause. -/
theorem malformed_form_fails_first_else :
    let operands : List Value := [.list [.sym "else", .int 1], .list [.bool true, .int 2]]
    let evaluator : Evaluator := ⟨FormTable.full, .lazy, fun _ _ => return .nil⟩
    "cond" ∈ shapedForms ∧ ¬ Shaped "cond" operands ∧
      ((evaluator.run evaluationLimit (.evaluate (.list (.sym "cond" :: operands)) 0) :
        Run Value).on {}).1 =
        .error (.misplacedElse operands) := by
  intro operands evaluator
  have special : "cond" ∈ shapedForms := by decide
  have wrong : ¬ Shaped "cond" operands := by
    intro shaped
    have shape : ClausesShape [.list [.sym "else", .int 1], .list [.bool true, .int 2]] :=
      shaped.clauses
    cases shape with
    | next _ _ _ ordinary => exact ordinary rfl
  obtain ⟨failure, _, _, fault, _, _, ran, _⟩ :=
    malformed_form_fails_first .lazy (fun _ _ => return .nil) "cond" operands special wrong 988 0 {}
  refine ⟨special, wrong, ?_⟩
  rw [← fault.misplaced rfl (.here _ _ _)]
  exact congrArg Prod.fst ran

/-- A target that has too many digits to be written. What is wrong with the form can not be said
then, and that is reported. -/
theorem unwritable_target_reported_otherwise :
    let target : Value := .int (10 ^ 4352)
    let evaluator : Evaluator := ⟨FormTable.full, .strict, fun _ _ => return .nil⟩
    ¬ Shaped "define" [target, .int 1] ∧
      (evaluator.run evaluationLimit (.evaluate (.list [.sym "define", target, .int 1]) 0) :
        Run Value).on {} =
        (.error (.malformed (.defineTarget target)), {}) ∧
      (Failure.malformed (.defineTarget target)).reported {} = .notWritable := by
  intro target evaluator
  refine ⟨fun shaped => ?_, rfl, ?_⟩
  · rcases shaped.target with ⟨_, same⟩ | ⟨_, _, same⟩ <;> simp only [target, reduceCtorEq] at same
  · have long : ¬ ((10 : Int) ^ 4352).natAbs < 10 ^ Number.digitLimit := by decide +kernel
    have unwritten : Store.written {} target = .error .notWritable := by
      rw [Store.written, Value.writtenWith, if_neg long]
    simp [Failure.reported, Failure.message, Failure.phrases, Malformed.phrases, Phrase.text,
      unwritten, bind, Except.bind, Except.map]

end ThunkLisp
