import ThunkLisp.Proofs.AccordSessions
import ThunkLisp.Proofs.UsualFailures
import ThunkLisp.Proofs.Watches

/-!
What is evaluated. In a session with the default primitives every tree that is handed to evaluation
comes from the source texts, as a part of a form or of its expansions, and is an atom, a symbol or a
combination. Quoted data and computed values are never evaluated as code, whatever is suspended and
whatever fails.
-/

namespace ThunkLisp

open Machine (effect)
open Value (Every)

/-! Trees that may come up. -/

/-- Code as it was read, or as an expansion has built it around what was read. -/
abbrev ReadCode (form : Value) : Prop := Code (fun _ => True)
    (fun leaf => leaf.isReadable = true) form

theorem readCode_of_readable {form : Value} (readable : Readable form) : ReadCode form :=
  .written form (readable.imp fun _ holds => ⟨holds, fun _ _ => trivial⟩)

/-- An atom or a symbol that can be read, or a combination. The empty list is an atom. -/
def Value.IsExpression (code : Value) : Prop :=
  code.isReadable = true ∨ code = .list [] ∨ ∃ head operands, code = .list (head :: operands)

theorem Value.IsExpression.cases {code : Value} (expression : code.IsExpression) :
    (∃ name, code = .sym name) ∨ code.isSelfEvaluating = true ∧ Readable code ∨
      code.isSelfEvaluating = false ∧ ∃ parts, Evaluator.splitCombination code = .ok parts := by
  rcases expression with readable | rfl | ⟨head, operands, rfl⟩
  · cases code with
    | sym name => exact .inl ⟨name, rfl⟩
    | nil | bool | int | float | str => exact .inr (.inl ⟨rfl, readable_leaf rfl readable⟩)
    | _ => cases readable
  · exact .inr (.inl ⟨rfl, Value.every_nil_list⟩)
  · exact .inr (.inr ⟨rfl, _, rfl⟩)

/-- Besides such code the mark of unassigned variables may come up, and what a `letrec` becomes on
the way to the call that binds its names to it. -/
inductive Evaluable : Value → Prop where
  | code (form : Value) (whole : ReadCode form) : Evaluable form
  | mark : Evaluable mark
  | scope (entries : List (String × Value)) (forms : List Value)
      (values : ∀ entry ∈ entries, ReadCode entry.2)
      (each : ∀ form ∈ forms, ReadCode form) : Evaluable (Derived.letrecScope entries forms)
  | call (entries : List (String × Value)) (forms : List Value)
      (values : ∀ entry ∈ entries, ReadCode entry.2)
      (each : ∀ form ∈ forms, ReadCode form) : Evaluable (Derived.letrecCall entries forms)

theorem evaluable_of_expand {word : String} {form : Derived} {operands : List Value} {code : Value}
    (found : FormTable.full.find? word = some (.derived form))
    (whole : ReadCode (.list (.sym word :: operands)))
    (expanded : form.expand operands = .ok code) : Evaluable code := by
  by_cases recursive : form = .letrec
  · subst recursive
    have member := FormTable.full_derived word .letrec found
    simp only [List.mem_cons, Prod.mk.injEq, reduceCtorEq, and_false, and_true, List.not_mem_nil,
      or_false, false_or] at member
    subst member
    obtain ⟨entries, forms, rfl, rfl⟩ := Derived.expandLetrec_eq operands code expanded
    have written := whole.written_operands (by simp)
    refine .scope entries forms (Code.written_values (written _ List.mem_cons_self))
      fun form member => ?_
    exact .written form (written form (.tail _ member))
  · exact .code code (Code.of_expand readable_basics word form operands code found recursive whole
      expanded)

theorem readCode_of_assignments {entries : List (String × Value)} {forms : List Value}
    (values : ∀ entry ∈ entries, ReadCode entry.2) (each : ∀ form ∈ forms, ReadCode form) :
    ∀ form ∈ Derived.assignments entries ++ forms, ReadCode form := by
  intro form member
  rcases List.mem_append.mp member with assigned | behind
  · obtain ⟨entry, inside, rfl⟩ := List.mem_map.mp assigned
    exact .assignment entry.1 entry.2 trivial (values entry inside)
  · exact each form behind

theorem Evaluable.part {whole code : Value} (evaluable : Evaluable whole)
    (part : Subcode FormTable.full whole code) : Evaluable code := by
  cases evaluable with
  | code _ whole =>
      cases part with
      | form word form operands _ found inside =>
          have member := FormTable.mem_of_find? _ _ _ found
          -- the word of the form is told by the kind of its part
          cases inside with
          | expansion form _ _ expanded => exact evaluable_of_expand found whole expanded
          | assigned name =>
              obtain rfl : word = "set!" := by simpa [FormTable.full, FormTable.core] using member
              exact .code code whole.assignment_parts.2
          | defined name =>
              obtain rfl : word = "define" := by simpa [FormTable.full, FormTable.core] using member
              exact .code code whole.definition_of_value_parts.2
          | definedBody name params body _ inside =>
              obtain rfl : word = "define" := by simpa [FormTable.full, FormTable.core] using member
              exact .code code (whole.definition_of_procedure_parts.2.2 code inside)
          | branch _ _ inside =>
              obtain rfl : word = "if" := by simpa [FormTable.full, FormTable.core] using member
              exact .code code (whole.conditional_parts code inside)
          | body spec body _ inside =>
              obtain rfl : word = "lambda" := by simpa [FormTable.full, FormTable.core] using member
              exact .code code (whole.procedure_parts.2 code inside)
          | step _ _ inside =>
              obtain rfl : word = "begin" := by simpa [FormTable.full, FormTable.core] using member
              exact .code code (whole.sequence_parts code inside)
      | applied head operands _ ordinary inside =>
          have unbuilt : ∀ name ∈ ["if", "begin", "lambda", "let", "define", "set!"],
              head ≠ .sym name := by
            rintro name member rfl
            have absent := ordinary name rfl
            simp only [List.mem_cons, List.not_mem_nil, or_false] at member
            rcases member with rfl | rfl | rfl | rfl | rfl | rfl <;> cases absent
          obtain ⟨first, each⟩ := whole.application_parts unbuilt
          rcases List.mem_cons.mp inside with rfl | member
          · exact .code code first
          · exact .code code (each code member)
  | mark => cases Subcode.of_form rfl part
  | scope entries forms values each =>
      -- the scope is an ordinary `let`, whose expansion is the call
      cases Subcode.of_form rfl part with
      | expansion _ _ _ expanded =>
          rw [Derived.expand, Derived.expand_letrecScope] at expanded
          cases expanded
          exact .call entries forms values each
  | call entries forms values each =>
      have inside := Subcode.of_call (by simp) part
      rcases List.mem_cons.mp inside with rfl | member
      · refine .code _ (.procedure _ _ (Code.words readable_basics entries) ?_)
        exact readCode_of_assignments values each
      · obtain ⟨_, _, rfl⟩ := List.mem_map.mp member
        exact .mark

theorem Evaluable.isExpression {code : Value} (evaluable : Evaluable code) : code.IsExpression := by
  cases evaluable with
  | code _ whole =>
      cases code with
      | list items =>
          cases items with
          | nil => exact .inr (.inl rfl)
          | cons head operands => exact .inr (.inr ⟨head, operands, rfl⟩)
      | _ => exact .inl (whole.flat_leaf rfl).1
  | _ => exact .inr (.inr ⟨_, _, rfl⟩)

theorem Evaluable.quoted {datum : Value} (evaluable : Evaluable (.list [.sym "quote", datum])) :
    Readable datum ∨ datum = .unassigned := by
  generalize same : Value.list [.sym "quote", datum] = form at evaluable
  cases evaluable with
  | code _ whole =>
      subst same
      have items := (Value.every_list _).mp (whole.data readable_basics)
      exact .inl (items datum (by simp))
  | mark =>
      cases same
      exact .inr rfl
  | scope => simp [Derived.letrecScope] at same
  | call => simp [Derived.letrecCall] at same

/-- What a program may have evaluated: its forms, and whatever is part of them or of their
expansions. -/
def Runnable (program : Value → Prop) (code : Value) : Prop :=
  ∃ form, program form ∧ Relation.ReflTransGen (Subcode FormTable.full) form code

namespace Runnable

variable {program : Value → Prop} {whole code : Value}

theorem of_program (written : program code) : Runnable program code := ⟨code, written, .refl⟩

theorem part (runnable : Runnable program whole) (inside : Subcode FormTable.full whole code) :
    Runnable program code := by
  obtain ⟨form, written, path⟩ := runnable
  exact ⟨form, written, path.tail inside⟩

theorem evaluable (readable : ∀ form, program form → Readable form)
    (runnable : Runnable program code) :
    Evaluable code := by
  obtain ⟨form, written, path⟩ := runnable
  induction path with
  | refl => exact .code form (readCode_of_readable (readable form written))
  | tail _ inside ih => exact ih.part inside

end Runnable

/-! Stores and recordings. -/

/-- A leaf of a value through which nothing but certain code may be evaluated, and no added
primitive applied. -/
def Value.RunsOnly (runs : Value → Prop) : Value → Prop
  | .procedure _ _ body _ => ∀ form ∈ body, runs form
  | .primitive p => ∀ name, p.operation ≠ .added name
  | _ => True

structure Store.RunsOnly (runs : Value → Prop) (store : Store) : Prop where
  bound (frame : FrameId) : ∀ entry ∈ (store.frame frame).bindings,
    Every (Value.RunsOnly runs) entry.2
  waiting (id : ThunkId) (code : Value) (frame : FrameId) (kept : Bool) :
    store.thunk id = .waiting code frame kept → runs code
  settled (id : ThunkId) (v : Value) : store.thunk id = .settled v → Every (Value.RunsOnly runs) v

namespace Store.RunsOnly

variable {runs : Value → Prop} {store after : Store}

theorem of_same (only : store.RunsOnly runs) (frames : after.frames = store.frames)
    (thunks : after.thunks = store.thunks) : after.RunsOnly runs := by
  have frame (id : FrameId) : after.frame id = store.frame id := by
    rw [Store.frame, frames, Store.frame]
  have thunk (id : ThunkId) : after.thunk id = store.thunk id := by
    rw [Store.thunk, thunks, Store.thunk]
  constructor
  · intro id
    rw [frame id]
    exact only.bound id
  · intro id
    rw [thunk id]
    exact only.waiting id
  · intro id
    rw [thunk id]
    exact only.settled id

theorem empty : Store.RunsOnly runs {} := by
  constructor
  · nofun
  · nofun
  · rintro id v ⟨⟩
    exact (Value.every_of_flat rfl).mpr trivial

theorem bind (only : store.RunsOnly runs) (frame : FrameId) (name : Value) {v : Value}
    (value : Every (Value.RunsOnly runs) v) : (store.bind frame name v).RunsOnly runs := by
  refine ⟨fun id entry member => ?_, only.waiting, only.settled⟩
  rcases Store.mem_bindings_bind member with before | ⟨same, _⟩
  · exact only.bound id entry before
  · exact same ▸ value

theorem addFrame (only : store.RunsOnly runs) {bindings : Bindings} (outer : Option FrameId)
    (checked : Option Bool) (values : ∀ entry ∈ bindings, Every (Value.RunsOnly runs) entry.2) :
    (store.addFrame bindings outer checked).2.RunsOnly runs := by
  refine ⟨fun id entry member => ?_, only.waiting, only.settled⟩
  rcases Store.mem_bindings_addFrame member with before | ⟨_, new⟩
  · exact only.bound id entry before
  · exact values entry new

theorem addThunk (only : store.RunsOnly runs) {code : Value} (frame : FrameId) (kept : Bool)
    (whole : runs code) :
    (store.addThunk code frame kept).2.RunsOnly runs := by
  have thunk (id : ThunkId) : (store.addThunk code frame kept).2.thunk id =
      if id = store.thunks.size then .waiting code frame kept else store.thunk id := by
    simp only [Store.thunk, Store.addThunk, Array.getD_eq_getD_getElem?, Array.getElem?_push]
    split <;> rfl
  refine ⟨only.bound, fun id => ?_, fun id v found => ?_⟩
  · rw [thunk]
    split
    · rintro _ _ _ ⟨⟩
      exact whole
    · exact only.waiting id
  · rw [thunk] at found
    split at found
    · cases found
    · exact only.settled id v found

theorem settle (only : store.RunsOnly runs) (id : ThunkId) {v : Value}
    (value : Every (Value.RunsOnly runs) v) :
    (store.settle id v).RunsOnly runs := by
  have thunk (other : ThunkId) :
      (store.settle id v).thunk other = .settled v ∨ (store.settle id v).thunk other =
        store.thunk other := by
    by_cases present : id < store.thunks.size
    · rw [store.thunk_settle id other v present]
      split
      · exact .inl rfl
      · exact .inr rfl
    · right
      simp [Store.thunk, Store.settle, Array.setIfInBounds, present]
  refine ⟨only.bound, fun other code frame kept found => ?_, fun other w found => ?_⟩
  · rcases thunk other with new | old
    · rw [new] at found
      cases found
    · exact only.waiting other code frame kept (old ▸ found)
  · rcases thunk other with new | old
    · rw [new] at found
      cases found
      exact value
    · exact only.settled other w (old ▸ found)

end Store.RunsOnly

/-- Only code of this kind has begun to be evaluated or has been stored, and no task has ended
because code was no expression. -/
structure Recording.RunsOnly (runs : Value → Prop) (r : Recording) : Prop where
  store : r.store.RunsOnly runs
  stores : ∀ event ∈ r.events, event.store.RunsOnly runs
  begun : ∀ event ∈ r.events, ∀ code, event.begun? = some code → runs code
  ended : ∀ task before outcome after, .ended task before outcome after ∈ r.events → Usually outcome

namespace Recording.RunsOnly

variable {runs : Value → Prop} {r : Recording}

theorem eventless {store : Store} (only : store.RunsOnly runs) :
    Recording.RunsOnly runs ⟨store, []⟩ :=
  ⟨only, nofun, nofun, nofun⟩

theorem of_store {after : Store} (only : r.RunsOnly runs) (next : after.RunsOnly runs) :
    Recording.RunsOnly runs ⟨after, r.events⟩ :=
  ⟨next, only.stores, only.begun, only.ended⟩

theorem note (only : r.RunsOnly runs) {event : Event} (now : event.store = r.store)
    (begins : ∀ code, event.begun? = some code → runs code)
    (ends : ∀ task before outcome after, event = .ended task before outcome after →
      Usually outcome) :
    (r.note event).RunsOnly runs := by
  refine ⟨only.store, ?_, ?_, fun task before outcome after member => ?_⟩
  · exact List.forall_mem_cons.mpr ⟨now ▸ only.store, only.stores⟩
  · exact List.forall_mem_cons.mpr ⟨begins, only.begun⟩
  · rcases List.mem_cons.mp member with same | older
    · exact ends task before outcome after same.symm
    · exact only.ended task before outcome after older

end Recording.RunsOnly

/-! Runs. -/

def onlyCode (runs : Value → Prop) : Watch where
  sound := Recording.RunsOnly runs
  later _ _ := True
  code := runs
  value := Every (Value.RunsOnly runs)
  fails := Failure.Usual

namespace onlyCode

variable {runs : Value → Prop} {r : Recording}

theorem moves {after : Store} (only : r.RunsOnly runs) (next : after.RunsOnly runs) :
    (onlyCode runs).Moves r after :=
  ⟨only.of_store next, trivial⟩

theorem answers_iff {α : Type} {post : α → Prop} {outcome : Except Failure α} :
    (onlyCode runs).Answers post outcome ↔ Usually outcome ∧ ∀ v, outcome = .ok v → post v := by
  cases outcome with
  | ok v => exact ⟨fun holds => ⟨.ok v, by rintro _ ⟨⟩; exact holds⟩, fun holds => holds.2 v rfl⟩
  | error failure => exact ⟨fun usual => ⟨.error usual, nofun⟩, fun holds => holds.1 failure rfl⟩

theorem value_of_readable {v : Value} (readable : Readable v) : Every (Value.RunsOnly runs) v :=
  readable.imp fun leaf readable => by cases leaf <;> trivial

theorem results : HasResults (Value.RunsOnly runs) :=
  ⟨trivial, fun _ => trivial, fun _ => trivial, fun _ => trivial, fun _ => trivial, fun _ =>
    trivial⟩

theorem ending (only : r.RunsOnly runs) (task : Task) (before : Store)
    {outcome : Except Failure Value} (usually : Usually outcome) :
    (r.ending task before outcome).RunsOnly runs := by
  refine only.note rfl ?_ ?_
  · rintro _ ⟨⟩
  · rintro _ _ _ _ ⟨⟩
    exact usually

theorem performs (added : AddedActions) (p : Primitive) (given : List Value)
    (only : r.RunsOnly runs) (applied : Every (Value.RunsOnly runs) (.primitive p))
    (values : ∀ v ∈ given, Every (Value.RunsOnly runs) v) :
    (onlyCode runs).Keeps (Every (Value.RunsOnly runs))
      (Machine.duringPrimitive p given (effect (p.operation.run added given)))
        (p.operation.run added given) r := by
  have default_ : ∀ name, p.operation ≠ .added name := (Value.every_of_flat rfl).mp applied
  have usually := Run.Usually.operation added p.operation default_ given r.store
  obtain ⟨outcome, fresh, printed, ran, value⟩ :=
    Mild.operation_on results added p.operation default_ given values r.store
  rw [ran] at usually
  have noted : (r.applying p given).RunsOnly runs := by
    refine only.note rfl ?_ ?_
    · rintro _ ⟨⟩
    · rintro _ _ _ _ ⟨⟩
  have same : ({ r.store with fresh := fresh, printed := printed } : Store).RunsOnly runs :=
    noted.store.of_same rfl rfl
  have kept := noted.of_store same
  exact Watch.keeps_primitive ran kept trivial (answers_iff.mpr ⟨usually, value⟩)

end onlyCode

/-- What a program may have evaluated is all that is evaluated. -/
theorem onlyCode_lawful {program : Value → Prop} (readable : ∀ form, program form → Readable form)
    (strategy : Strategy) (added : AddedActions) :
    (onlyCode (Runnable program)).Lawful ⟨FormTable.full, strategy, added⟩ where
  usual usual := usual
  stuck form failure runnable unnamed other failed := by
    rcases (runnable.evaluable readable).isExpression.cases with
      ⟨name, rfl⟩ | ⟨itself, _⟩ | ⟨_, parts, split⟩
    · exact absurd rfl (unnamed name)
    · rw [itself] at other
      cases other
    · rw [split] at failed
      cases failed
  part _ _ runnable inside := runnable.part inside
  quoted word datum found runnable := by
    obtain rfl : word = "quote" := by simpa [FormTable.full,
      FormTable.core] using FormTable.mem_of_find? _ _ _ found
    rcases (runnable.evaluable readable).quoted with data | rfl
    · exact onlyCode.value_of_readable data
    · exact (Value.every_of_flat rfl).mpr trivial
  constant word v found := by
    have member := FormTable.mem_of_find? _ _ _ found
    simp [FormTable.full, FormTable.core] at member
  itself form runnable itself := by
    rcases (runnable.evaluable readable).isExpression.cases with
      ⟨name, rfl⟩ | ⟨_, data⟩ | ⟨other, _⟩
    · cases itself
    · exact onlyCode.value_of_readable data
    · rw [other] at itself
      cases itself
  nil := (Value.every_of_flat rfl).mpr trivial
  sym name := (Value.every_of_flat rfl).mpr trivial
  body identity params body home := Value.every_of_flat rfl
  refl _ := trivial
  trans _ _ _ _ _ := trivial
  thunk id := (Value.every_of_flat rfl).mpr trivial
  bound r frame name v only found := by
    obtain ⟨owner, _, member⟩ := Store.mem_of_bound? found
    exact only.store.bound owner _ member
  waiting r id code frame kept only found := only.store.waiting id code frame kept found
  settled r id v only found := only.store.settled id v found
  numbers r only := onlyCode.moves only (only.store.of_same rfl rfl)
  suspends r code frame kept only whole :=
    onlyCode.moves only (only.store.addThunk frame kept whole)
  extends_ r home bindings only values :=
    onlyCode.moves only (only.store.addFrame (some home) none values)
  settles _ s id _ _ v _ _ only value := onlyCode.moves only (only.store.settle id value)
  performs r p given only applied values := onlyCode.performs added p given only applied values
  begins r task only ready := by
    refine ⟨only.note rfl ?_ ?_, trivial⟩
    · cases task with
      | evaluate code frame =>
          rintro _ ⟨⟩
          exact ready
      | force id => rintro _ ⟨⟩
    · rintro _ _ _ _ ⟨⟩
  ends limit task r s outcome _ _ only _ answers :=
    ⟨onlyCode.ending only task r.store (onlyCode.answers_iff.mp answers).1, trivial⟩
  stores limit task r s owner name v _ _ only _ value _ := by
    have bound := only.of_store (only.store.bind owner (.sym name) value)
    exact ⟨onlyCode.ending bound task r.store (.ok _), trivial⟩

/-! Sessions. -/

namespace Watch.Lawful

variable {w : Watch} {evaluator : Evaluator} {r : Recording} (lawful : w.Lawful evaluator)
  (limit : Nat)
  (globals : FrameId)

include lawful

theorem evaluateForms_keeps (forms : List Value) (last : Value) (sound : w.sound r)
    (value : w.value last) (each : ∀ form ∈ forms, w.code form) :
    w.Keeps w.value (Session.evaluateForms limit ⟨evaluator, globals⟩ last forms)
      (Session.evaluateForms limit ⟨evaluator, globals⟩ last forms) r := by
  induction forms generalizing r last with
  | nil => exact lawful.keeps_pure sound value
  | cons form rest ih =>
      have first := lawful.run_keeps limit (.evaluate form globals)
        (each form List.mem_cons_self) r sound
      exact lawful.keeps_bind first fun v s sound' _ value => ih v sound' value fun form member =>
        each form (.tail _ member)

theorem evaluateText_keeps (text : String) (sound : w.sound r)
    (reads : ∀ forms, readAll text = .ok forms → ∀ form ∈ forms, w.code form) :
    w.Keeps w.value (Session.evaluateTextWithin limit ⟨evaluator, globals⟩ text)
      (Session.evaluateTextWithin limit ⟨evaluator, globals⟩ text) r := by
  have reading : w.Keeps (fun forms => ∀ form ∈ forms, w.code form)
      (effect (Run.ofExcept (readAll text)))
      (effect (Run.ofExcept (readAll text))) r := by
    refine keeps_effect (Run.on_ofExcept _ r.store) (lawful.stays sound) ?_
    cases read : readAll text with
    | ok forms => exact reads forms read
    | error failure => exact lawful.usual (usual_of_readAll text failure read)
  exact lawful.keeps_bind reading fun forms s sound' _ each =>
    lawful.evaluateForms_keeps limit globals forms .nil sound' lawful.nil each

theorem replies_keep (texts : List String) (sound : w.sound r)
    (reads : ∀ text ∈ texts, ∀ forms, readAll text = .ok forms → ∀ form ∈ forms, w.code form) :
    ∀ reply ∈ Session.replies limit ⟨evaluator, globals⟩ r texts, w.sound reply.2 ∧
      w.Answers w.value reply.1 := by
  induction texts generalizing r with
  | nil => nofun
  | cons text rest ih =>
      obtain ⟨outcome, after, ran, _, sound', _, answers⟩ :=
        lawful.evaluateText_keeps limit globals text sound (reads text List.mem_cons_self)
      simp only [Session.replies, ran]
      refine List.forall_mem_cons.mpr ⟨⟨sound', answers⟩, ?_⟩
      exact ih sound' fun text member => reads text (.tail _ member)

end Watch.Lawful

/-- The forms that a session has to evaluate: those of its prelude and of its texts. -/
def Setup.program (setup : Setup) (texts : List String) (form : Value) : Prop :=
  ∃ text ∈ setup.prelude :: texts, ∃ forms, readAll text = .ok forms ∧ form ∈ forms

theorem Setup.program_readable (setup : Setup) (texts : List String) :
    ∀ form, setup.program texts form → Readable form := by
  rintro form ⟨text, _, forms, read, member⟩
  have fine := readAll_fine (fun _ => True) text
  rw [read] at fine
  exact fine form member

theorem Setup.opening_runsOnly {setup : Setup} (supplied : setup.supplies = defaultSupplies)
    (runs : Value → Prop) :
    Usually ((effect setup.opening : Recorded FrameId).on {}).1 ∧
      Recording.RunsOnly runs ((effect setup.opening : Recorded FrameId).on {}).2 := by
  -- the bindings are made in order, up to the first whose name is no symbol
  have defining (bindings : Bindings) (store : Store) (only : store.RunsOnly runs)
      (values : ∀ entry ∈ bindings, Every (Value.RunsOnly runs) entry.2) :
      ((Scope.defineAll 0 bindings).on store).2.RunsOnly runs := by
    induction bindings generalizing store with
    | nil => exact only
    | cons entry rest ih =>
        have defined := only.bind 0 entry.1 (values entry List.mem_cons_self)
        simp only [Scope.defineAll, Scope.define, Run.on_bind]
        cases entry.1.isSymbol with
        | true => exact ih _ defined fun found member => values found (.tail _ member)
        | false => exact only
  simp only [opening, Recorded.on_effect, Run.on_bind, Run.on_ofExcept, supplied]
  cases chosen : setup.checked with
  | error failure => exact ⟨.error (usual_of_checked setup failure chosen), .eventless .empty⟩
  | ok checked =>
      refine ⟨Run.Usually.makeGlobals defaultSupplies checked {}, .eventless ?_⟩
      have given (store : Store) : (suppliedBindings defaultSupplies).on store =
          (.ok defaultPrimitives, store) :=
        Policy.on_suppliedBindings defaultPrimitives store
      have bare : (({} : Store).addFrame [] none (some checked)).2.RunsOnly runs :=
        Store.RunsOnly.empty.addFrame none (some checked) (List.forall_mem_nil _)
      have filled := defining defaultPrimitives _ bare fun entry member => by
        obtain ⟨name, operation, rfl, default_⟩ := Policy.defaultPrimitives_each entry member
        exact (Value.every_of_flat rfl).mpr default_
      change Store.RunsOnly runs ((makeGlobals defaultSupplies checked).on {}).2
      rw [makeGlobals_on_nothing]
      simp only [fillGlobals, Run.on_bind, given]
      cases ran : (Scope.defineAll 0 defaultPrimitives).on (emptyGlobals checked) with
      | mk outcome store =>
          rw [emptyGlobals] at ran
          rw [ran] at filled
          cases outcome <;> exact filled

/-- In a session with the default primitives, whatever texts it is given, only what the program's
own forms are made of is evaluated or kept to be evaluated, quoted data and computed values apart.
All of it is atoms, symbols and combinations, and nothing fails because code is no expression. -/
theorem programs_run_their_own_code (setup : Setup) (texts : List String)
    (supplied : setup.supplies = defaultSupplies) :
    (∀ code, Runnable (setup.program texts) code → code.IsExpression) ∧
      Usually (setup.replies texts).1.1 ∧
      (setup.replies texts).1.2.RunsOnly (Runnable (setup.program texts)) ∧
      ∀ reply ∈ (setup.replies texts).2, Usually reply.1 ∧
        reply.2.RunsOnly (Runnable (setup.program texts)) := by
  have readable := setup.program_readable texts
  refine ⟨fun code runnable => (runnable.evaluable readable).isExpression, ?_⟩
  have reads (text : String) (member : text ∈ setup.prelude :: texts) (forms : List Value)
      (read : readAll text = .ok forms) : ∀ form ∈ forms, Runnable (setup.program texts) form :=
    fun form inside => .of_program ⟨text, member, forms, read, inside⟩
  cases chosen : setup.strategy with
  | error failure =>
      have refused : (Session.start setup : Recorded Session).on {} = (.error failure, {}) := by
        simp [Session.start, Recorded.on_bind, Recorded.on_effect, Run.on_ofExcept, chosen]
      simp only [Setup.replies, refused]
      exact ⟨.error (usual_of_strategy setup failure chosen), .eventless .empty,
        List.forall_mem_nil _⟩
  | ok strategy =>
      have lawful := onlyCode_lawful readable strategy setup.added
      obtain ⟨usually, only⟩ := Setup.opening_runsOnly supplied (Runnable (setup.program texts))
      rw [Setup.replies, setup.on_start chosen]
      -- the prelude and the texts run one behind the other, from the globals that the setup fills
      cases made : (effect setup.opening : Recorded FrameId).on {} with
      | mk outcome opened =>
          rw [made] at usually only
          cases outcome with
          | error failure => exact ⟨usually, only, List.forall_mem_nil _⟩
          | ok globals =>
              obtain ⟨outcome, after, ran, _, sound, _, answers⟩ :=
                lawful.evaluateText_keeps setup.limit globals setup.prelude
                  only (reads _ List.mem_cons_self)
              simp only [Setup.session, ran]
              cases outcome with
              | error failure => exact ⟨.error answers, sound, List.forall_mem_nil _⟩
              | ok v =>
                  have replied := lawful.replies_keep setup.limit globals texts sound
                      fun text member =>
                    reads text (.tail _ member)
                  refine ⟨.ok _, sound, fun reply member => ?_⟩
                  obtain ⟨kept, answers⟩ := replied reply member
                  exact ⟨(onlyCode.answers_iff.mp answers).1, kept⟩

/-- The datum has the shape of a call, and comes out of the procedure as it is. -/
def quotedCall : String := "(letrec ((pick (lambda (x) '(car 2)))) (pick (pick 1)))"

set_option maxRecDepth 20000 in
theorem programs_run_their_own_code_quotedCall :
    (Setup.plain "lazy" true).supplies = defaultSupplies ∧
      (((Setup.plain "lazy" true).replies [quotedCall]).2.map Prod.fst) =
        [.ok (.list [.sym "car", .int 2])] ∧
      ((∀ code, Runnable ((Setup.plain "lazy" true).program [quotedCall]) code →
        code.IsExpression) ∧
        Usually ((Setup.plain "lazy" true).replies [quotedCall]).1.1 ∧
        ((Setup.plain "lazy" true).replies [quotedCall]).1.2.RunsOnly
          (Runnable ((Setup.plain "lazy" true).program [quotedCall])) ∧
        ∀ reply ∈ ((Setup.plain "lazy" true).replies [quotedCall]).2,
          Usually reply.1 ∧ reply.2.RunsOnly
            (Runnable ((Setup.plain "lazy" true).program [quotedCall]))) :=
  ⟨rfl, by cbv, programs_run_their_own_code (Setup.plain "lazy" true) [quotedCall] rfl⟩

end ThunkLisp
