import Mathlib.Data.List.Forall2
import ThunkLisp.Proofs.Agreement.Guarded
import ThunkLisp.Proofs.Agreement.Meaning

/-!
Strict runs of code without effects. They suspend nothing and change no frame. What they return is
what the code means in the store that they end in, and in every store that this one grows into.
-/

namespace ThunkLisp

open Machine (effect)
open Value (Every)

def refusesCompounds (p : Primitive) (given : List Value) : Bool :=
  p.operation.compares && given.any Value.isCompound

/-- Leaves of what a strict run without effects can hold. -/
def SettledLeaf (store : Store) : Value → Prop
  | .procedure _ _ body frame => frame < store.frames.size ∧ ∀ code ∈ body, Effectless code
  | .primitive p => p.operation.isPlain = true
  | .thunk _ | .unassigned => False
  | _ => True

def Settled (store : Store) (v : Value) : Prop := Every (SettledLeaf store) v

def Store.Plain (store : Store) : Prop :=
  ∀ frame, ∀ entry ∈ (store.frame frame).bindings, Settled store entry.2

/-- The value is what the code means from this store on. -/
def Denotes (store : Store) (frame : FrameId) (code v : Value) : Prop :=
  ∀ frames bound, store.Grows frames → store.frames.size ≤ bound → Means frames bound frame code v

section Stores

variable {store after : Store} {frame : FrameId} {code v : Value}

theorem settled_results (store : Store) : HasResults (SettledLeaf store) :=
  ⟨trivial, fun _ => trivial, fun _ => trivial, fun _ => trivial, fun _ => trivial, fun _ =>
    trivial⟩

theorem settled_nil (store : Store) : Settled store .nil := (Value.every_of_flat rfl).mpr trivial

theorem settled_of_readable (readable : Readable v) : Settled store v := by
  refine readable.imp fun leaf holds => ?_
  cases leaf <;> trivial

theorem Settled.present (settled : Settled store v) : v.isThunk = false := by
  cases v with
  | thunk id => exact False.elim ((Value.every_of_flat rfl).mp settled)
  | _ => rfl

theorem Settled.grow (settled : Settled store v) (grows : store.Grows after) : Settled after v := by
  refine settled.imp fun leaf holds => ?_
  cases leaf with
  | procedure identity params body frame => exact ⟨Nat.lt_of_lt_of_le holds.1 grows.1, holds.2⟩
  | _ => exact holds

theorem Denotes.grow (denotes : Denotes store frame code v) (grows : store.Grows after) :
    Denotes after frame code v := fun frames bound grows' above =>
  denotes frames bound (grows.trans grows') (Nat.le_trans grows.1 above)

theorem settled_of_bound? (plain : store.Plain) (name : String)
    (bound : store.bound? frame name = some v) : Settled store v := by
  obtain ⟨owner, -, member⟩ := Store.mem_of_bound? bound
  exact plain owner _ member

theorem Store.Grows.bound?_eq (grows : store.Grows after) (name : String)
    (present : frame < store.frames.size) : after.bound? frame name = store.bound? frame name := by
  induction frame using Nat.strongRecOn with
  | ind frame ih =>
      rw [after.bound?_eq, store.bound?_eq, grows.2 frame present]
      cases (store.frame frame).bindings.find? (.sym name) with
      | some v => rfl
      | none =>
          cases (store.frame frame).outer with
          | none => rfl
          | some outer =>
              by_cases less : outer < frame
              · simp only [less, if_true]
                exact ih outer less (Nat.lt_trans less present)
              · simp only [less, if_false]

theorem Store.Plain.of_frames (plain : store.Plain) (same : after.frames = store.frames) :
    after.Plain := by
  intro frame entry member
  have here : after.frame frame = store.frame frame := by simp [Store.frame, same]
  rw [here] at member
  exact (plain frame entry member).grow (.of_frames same)

theorem Store.Plain.extend (plain : store.Plain) (frame : FrameId) (bindings : Bindings)
    (each : ∀ entry ∈ bindings, Settled store entry.2) : (store.extend frame bindings).2.Plain := by
  have grows := Store.Grows.extend store frame bindings
  intro other entry member
  rcases Store.mem_bindings_addFrame member with before | ⟨_, among⟩
  · exact (plain other entry before).grow grows
  · exact (each entry among).grow grows

end Stores

/-! Computations that only add frames. -/

/-- If the computation returns, the store has grown and is plain, and the result is as asked for. -/
def Yields {α : Type} (x : Guarded refusesCompounds α) (store : Store) (post : α → Store → Prop) :
    Prop :=
  ∀ v after, x.on store = (.ok v, after) → store.Grows after ∧ after.Plain ∧ post v after

section Computations

variable {α β : Type} {store : Store} {post : α → Store → Prop}

theorem yields_pure {v : α} (plain : store.Plain) (holds : post v store) :
    Yields (pure v) store post := by
  intro w after ran
  cases ran
  exact ⟨.refl store, plain, holds⟩

theorem yields_throw (failure : Failure) : Yields (effect (throw failure)) store post := by
  intro v after ran
  cases ran

theorem Yields.bind {x : Guarded refusesCompounds α} {next : α → Guarded refusesCompounds β}
    {between : α → Store → Prop} {post : β → Store → Prop} (first : Yields x store between)
    (continues : ∀ v after, store.Grows after → after.Plain → between v after →
      Yields (next v) after post) :
    Yields (x >>= next) store post := by
  intro w final ran
  rw [Guarded.on_bind] at ran
  split at ran
  · next v after ran' =>
      obtain ⟨grows, plain, holds⟩ := first v after ran'
      obtain ⟨grows', rest⟩ := continues v after grows plain holds w final ran
      exact ⟨grows.trans grows', rest⟩
  · cases ran

theorem Yields.imp {x : Guarded refusesCompounds α} {stronger : α → Store → Prop}
    (first : Yields x store stronger)
    (weaker : ∀ v after, store.Grows after → stronger v after → post v after) :
      Yields x store post := by
  intro v after ran
  obtain ⟨grows, plain, holds⟩ := first v after ran
  exact ⟨grows, plain, weaker v after grows holds⟩

end Computations

/-! Tasks in a row. -/

def Returned (store : Store) (frame : FrameId) (code v : Value) : Prop :=
  Settled store v ∧ Denotes store frame code v

def InnerYields (inner : Inner (Guarded refusesCompounds)) : Prop :=
  ∀ (store : Store) frame code, store.Plain → frame < store.frames.size → Effectless code →
    Yields (inner.evaluate code frame) store fun v after => Returned after frame code v

theorem Returned.grow {store after : Store} {frame : FrameId} {code v : Value}
    (returned : Returned store frame code v) (grows : store.Grows after) :
      Returned after frame code v :=
  ⟨returned.1.grow grows, returned.2.grow grows⟩

theorem settled_each {store : Store} {frame : FrameId} {codes vs : List Value}
    (each : List.Forall₂ (Returned store frame) codes vs) : ∀ v ∈ vs, Settled store v := by
  induction each with
  | nil => simp
  | cons first _ ih =>
      intro v member
      rcases List.mem_cons.mp member with rfl | member
      · exact first.1
      · exact ih v member

theorem settled_last {store : Store} (vs : List Value) (each : ∀ v ∈ vs, Settled store v) :
    Settled store (vs.getLastD .nil) := by
  cases vs with
  | nil => exact settled_nil store
  | cons v rest => exact each _ (by simp [List.getLastD, List.getLast_mem])

theorem means_each {store frames : Store} {frame : FrameId} {codes vs : List Value} {bound : Nat}
    (each : List.Forall₂ (Returned store frame) codes vs) (grows : store.Grows frames)
    (above : store.frames.size ≤ bound) :
    ∀ pair ∈ codes.zip vs, Means frames bound frame pair.1 pair.2 := fun _ member =>
  (List.forall₂_zip each member).2 frames bound grows above

section Rules

variable {inner : Inner (Guarded refusesCompounds)} {stack : Stack (Guarded refusesCompounds)}
  {store : Store} {frame : FrameId}

theorem evaluateAll_yields (yields : InnerYields inner) (codes : List Value) (plain : store.Plain)
    (present : frame < store.frames.size) (each : ∀ code ∈ codes, Effectless code) :
    Yields (inner.evaluateAll frame codes) store
      fun vs after => List.Forall₂ (Returned after frame) codes vs := by
  induction codes generalizing store with
  | nil => exact yields_pure plain .nil
  | cons code rest ih =>
      refine (yields store frame code plain present (each code (by simp))).bind
        fun v after grows plain' returned => ?_
      have present' := Nat.lt_of_lt_of_le present grows.1
      refine (ih plain' present' fun code member => each code (by simp [member])).bind
        fun vs final grows' plain'' behind => ?_
      exact yields_pure plain'' (.cons (returned.grow grows') behind)

theorem sequence_yields (yields : InnerYields inner) (forms : List Value) (plain : store.Plain)
    (present : frame < store.frames.size) (each : ∀ code ∈ forms, Effectless code) :
    Yields (inner.sequence frame forms) store fun v after =>
      ∃ vs, List.Forall₂ (Returned after frame) forms vs ∧ v = vs.getLastD .nil := by
  induction forms generalizing store with
  | nil => exact yields_pure plain ⟨[], .nil, rfl⟩
  | cons code rest ih =>
      have first := yields store frame code plain present (each code (by simp))
      cases rest with
      | nil => exact first.imp fun v after _ returned => ⟨[v], .cons returned .nil, rfl⟩
      | cons next behind =>
          refine first.bind fun v after grows plain' returned => ?_
          have present' := Nat.lt_of_lt_of_le present grows.1
          refine (ih plain' present' fun code member => each code (by simp [member])).imp
            fun w final grows' found => ?_
          obtain ⟨vs, others, rfl⟩ := found
          refine ⟨v :: vs, .cons (returned.grow grows') others, ?_⟩
          cases others
          rfl

/-! Application. -/

theorem perform_yields (added : AddedActions) (p : Primitive) (given : List Value)
    (plain : store.Plain) (harmless : p.operation.isPlain = true)
    (settled : ∀ v ∈ given, Settled store v) :
    Yields (Machine.duringPrimitive p given (effect (p.operation.run added given))) store
      fun v after => Settled after v ∧ Gives p given v := by
  intro v after ran
  rw [Guarded.on_duringPrimitive] at ran
  cases refused : refusesCompounds p given with
  | true =>
      rw [refused] at ran
      cases ran
  | false =>
      rw [refused] at ran
      replace ran : (p.operation.run added given).on store = (.ok v, after) := ran
      obtain ⟨every, same⟩ := Operation.run_every (settled_results store) added p.operation harmless
        given
        settled ran
      have grows : store.Grows after := .of_frames same
      refine ⟨grows, plain.of_frames same, Settled.grow every grows, harmless,
        fun comparing v member => ?_, added, store, _, ran⟩
      simp only [refusesCompounds, comparing, Bool.true_and, List.any_eq_false] at refused
      simpa using refused v member

theorem call_yields (yields : InnerYields inner) (added : AddedActions) (identity : Nat)
    (params : List Param) (body : List Value) (home : FrameId) (given : List Value)
    (plain : store.Plain) (settled : Settled store (.procedure identity params body home))
    (each : ∀ v ∈ given, Settled store v) :
    Yields (apply added inner (.procedure identity params body home) given) store fun v after =>
      ∃ vs, given.length = params.length ∧ home < store.frames.size ∧
        store.frames.size < after.frames.size ∧ (after.frame store.frames.size).outer = some home ∧
        (after.frame store.frames.size).bindings = (params.map fun p => .sym p.name).zip given ∧
        List.Forall₂ (Returned after store.frames.size) body vs ∧ v = vs.getLastD .nil := by
  obtain ⟨present, effectless⟩ : SettledLeaf store (.procedure identity params body home) :=
    (Value.every_of_flat rfl).mp settled
  intro v final ran
  rw [apply, Guarded.on_bind, Guarded.on_effect, on_bindParams] at ran
  by_cases count : given.length = params.length
  · rw [if_pos count] at ran
    have entered : store.frames.size <
        (store.extend home ((params.map fun p => .sym p.name).zip given)).2.frames.size := by
      simp [Store.extend, Store.addFrame]
    have bound : ∀ entry ∈ (params.map fun p => Value.sym p.name).zip given,
        Settled store entry.2 :=
      fun entry member => each entry.2 (List.of_mem_zip member).2
    obtain ⟨grows, plain', vs, returned, rfl⟩ :=
      sequence_yields yields body (plain.extend home _ bound) entered effectless v final ran
    have here := grows.2 store.frames.size entered
    rw [Store.frame_extend_self] at here
    refine ⟨(Store.Grows.extend store home _).trans grows, plain', vs, count, present,
      Nat.lt_of_lt_of_le entered grows.1, ?_, ?_, returned, rfl⟩
    · rw [here]
    · rw [here]
  · rw [if_neg count] at ran
    cases ran

theorem application_yields (evaluates : InnerYields (stack 0))
    (yields : ∀ calls, InnerYields (stack.above calls)) (added : AddedActions) (head : Value)
    (operands : List Value) (plain : store.Plain) (present : frame < store.frames.size)
    (ordinary : ∀ name, head = .sym name → FormTable.full.find? name = none)
    (first : Effectless head) (each : ∀ code ∈ operands, Effectless code) :
    Yields ((Discipline.evaluator added .strict).evaluate stack (.list (head :: operands)) frame)
      store
      fun v after => Returned after frame (.list (head :: operands)) v := by
  rw [Evaluator.evaluate_application _ _ _ _ _ ordinary]
  refine (evaluates store frame head plain present first).bind fun fn s grows plain' function => ?_
  have present' := Nat.lt_of_lt_of_le present grows.1
  refine (evaluateAll_yields (yields _) operands plain' present' each).bind
    fun us t grows' plain'' given => ?_
  have count := given.length_eq
  have settled := function.1.grow grows'
  cases fn with
  | procedure identity params body home =>
      refine (call_yields (yields _) added identity params body home us plain'' settled
        (settled_each given)).imp fun v final grows'' called => ?_
      obtain ⟨vs, arity, around, below, outer, bindings, returned, rfl⟩ := called
      refine ⟨settled_last vs (settled_each returned), fun frames bound reaches above => ?_⟩
      -- later frames know no more of the frame of the call than that it is as the body has left it
      have inside := reaches.2 t.frames.size below
      have reaches' := grows''.trans reaches
      exact .call bound frame head operands identity params body home us vs t.frames.size ordinary
        (function.2 frames bound (grows'.trans reaches')
          (Nat.le_trans (Nat.le_trans grows'.1 grows''.1) above)) count.symm arity
        (means_each given reaches' (Nat.le_refl _)) (Nat.lt_of_lt_of_le below above) around
        (by rw [inside, outer]) (by rw [inside, bindings]) returned.length_eq.symm
        (means_each returned reaches above)
  | primitive p =>
      have harmless : p.operation.isPlain = true := (Value.every_of_flat rfl).mp settled
      rw [apply, Inner.concreteAll_of_present _ us fun v member =>
        (settled_each given v member).present]
      refine (perform_yields added p us plain'' harmless (settled_each given)).imp
        fun v final grows'' performed => ?_
      refine ⟨performed.1, fun frames bound reaches above => ?_⟩
      have reaches' := grows''.trans reaches
      have above' := Nat.le_trans grows''.1 above
      exact .primitive bound frame head operands p us v ordinary
        (function.2 frames bound (grows'.trans reaches') (Nat.le_trans grows'.1 above')) count.symm
        (means_each given reaches' above') performed.2
  | _ => exact yields_throw _

/-! Special forms and variables. -/

theorem variable_yields (name : String) (plain : store.Plain)
    (present : frame < store.frames.size) :
    Yields (Evaluator.evaluateVariable inner name frame) store
      fun v after => Returned after frame (.sym name) v := by
  intro v after ran
  rw [Evaluator.evaluateVariable, Guarded.on_bind, Guarded.on_effect, Scope.on_lookup] at ran
  cases bound : store.bound? frame name with
  | none =>
      rw [bound] at ran
      cases ran
  | some found =>
      have settled := settled_of_bound? plain name bound
      have assigned : found ≠ .unassigned := by
        rintro rfl
        exact (Value.every_of_flat rfl).mp settled
      simp only [bound, Scope.on_checkAssigned _ _ _ _ assigned] at ran
      have meaning : Denotes store frame (.sym name) found := fun frames bound grows above =>
        .lookup bound frame name found (Nat.lt_of_lt_of_le present above) (by
          rw [grows.bound?_eq name present]
          assumption)
      cases found with
      | thunk id => cases settled.present
      | _ =>
          cases ran
          exact ⟨.refl store, plain, settled, meaning⟩

theorem test_yields (yields : InnerYields inner) (test : Value)
    (next : Value → Guarded refusesCompounds Value) (post : Value → Store → Prop)
    (plain : store.Plain) (present : frame < store.frames.size) (effectless : Effectless test)
    (continues : ∀ decided after, store.Grows after → after.Plain →
    Returned after frame test decided →
      Yields (next decided) after post) :
    Yields (do
      let decided ← inner.concrete (← inner.evaluate test frame)
      next decided) store post := by
  refine (yields store frame test plain present effectless).bind
    fun decided after grows plain' decides => ?_
  rw [inner.concrete_of_present decides.1.present, pure_bind]
  exact continues decided after grows plain' decides

theorem Returned.taken {test decided chosen v : Value} (decides : Returned store frame test decided)
    (so : decided.isTrue = true) (gives : Returned store frame chosen v) (others : List Value)
    (few : others.length ≤ 1) : Returned store frame (.list (.sym "if" :: test :: chosen :: others))
      v :=
  ⟨gives.1, fun frames bound reaches above => .taken bound frame test decided chosen v others few
    (decides.2 frames bound reaches above) so (gives.2 frames bound reaches above)⟩

theorem Returned.otherwise {test decided other chosen v : Value}
    (decides : Returned store frame test decided) (so : decided.isTrue = false)
    (gives : Returned store frame chosen v) :
    Returned store frame (.list [.sym "if", test, other, chosen]) v :=
  ⟨gives.1, fun frames bound reaches above => .otherwise bound frame test decided other chosen v
    (decides.2 frames bound reaches above) so (gives.2 frames bound reaches above)⟩

theorem branches_yield (yields : InnerYields inner) {test usual : Value} {others : List Value}
    (few : others.length ≤ 1) (plain : store.Plain) (present : frame < store.frames.size)
    (tested : Effectless test) (chosen : Effectless usual) {other : Guarded refusesCompounds Value}
    (skipped : ∀ decided after, store.Grows after → after.Plain →
      Returned after frame test decided → decided.isTrue = false →
        Yields other after fun v final =>
          Returned final frame (.list (.sym "if" :: test :: usual :: others)) v) :
    Yields (do
      let decided ← inner.concrete (← inner.evaluate test frame)
      if decided.isTrue then inner.evaluate usual frame else other) store
      fun v after => Returned after frame (.list (.sym "if" :: test :: usual :: others)) v := by
  refine test_yields yields test _ _ plain present tested fun decided s grows plain' decides => ?_
  cases so : decided.isTrue with
  | true =>
      rw [if_pos rfl]
      exact (yields s frame usual plain' (Nat.lt_of_lt_of_le present grows.1) chosen).imp
        fun v after grows' gives => (decides.grow grows').taken so gives others few
  | false =>
      rw [if_neg Bool.false_ne_true]
      exact skipped decided s grows plain' decides so

theorem conditional_yields (yields : InnerYields inner) (operands : List Value)
    (plain : store.Plain) (present : frame < store.frames.size)
    (each : ∀ code ∈ operands, Effectless code) :
    Yields (Form.runConditional inner frame operands) store
      fun v after => Returned after frame (.list (.sym "if" :: operands)) v := by
  unfold Form.runConditional
  split
  · next test usual =>
      refine branches_yield yields (by simp) plain present (each test (by simp))
        (each usual (by simp)) fun decided s _ plain' decides so => ?_
      refine yields_pure plain' ⟨settled_nil s, fun frames bound reaches above => ?_⟩
      exact .skipped bound frame test decided usual (decides.2 frames bound reaches above) so
  · next test usual otherwise =>
      refine branches_yield yields (by simp) plain present (each test (by simp))
        (each usual (by simp)) fun decided s grows plain' decides so => ?_
      exact (yields s frame otherwise plain' (Nat.lt_of_lt_of_le present grows.1)
        (each otherwise (by simp))).imp
          fun v after grows' gives => (decides.grow grows').otherwise so gives
  · exact yields_throw _

theorem procedure_yields (spec : Value) (body : List Value) (plain : store.Plain)
    (present : frame < store.frames.size) (each : ∀ code ∈ body, Effectless code) :
    Yields (effect (Form.makeProcedure spec body frame) : Guarded refusesCompounds Value) store
      fun v after => Returned after frame (.list (.sym "lambda" :: spec :: body)) v := by
  unfold Form.makeProcedure
  cases parsed : parseParams spec with
  | error fault => exact yields_throw _
  | ok params =>
      intro v after ran
      cases ran
      have grows : store.Grows { store with fresh := store.fresh + 1 } := .of_frames rfl
      refine ⟨grows, plain.of_frames rfl, (Value.every_of_flat rfl).mpr ⟨present, each⟩,
        fun frames bound _ _ => ?_⟩
      exact .procedure bound frame spec body store.fresh params parsed

theorem derived_yields (yields : InnerYields inner) (name : String) (form : Derived)
    (operands : List Value) (plain : store.Plain) (present : frame < store.frames.size)
    (found : FormTable.full.find? name = some (.derived form))
    (effectless : ∀ code, form.expand operands = .ok code → Effectless code) :
    Yields (Form.run inner frame (.derived form) operands) store
      fun v after => Returned after frame (.list (.sym name :: operands)) v := by
  rw [Form.run]
  cases expanded : form.expand operands with
  | error failure => exact yields_throw failure
  | ok code =>
      refine (yields store frame code plain present (effectless code expanded)).imp
        fun v after _ returned => ⟨returned.1, fun frames bound reaches above => ?_⟩
      exact .derived bound frame name form operands code v found expanded
        (returned.2 frames bound reaches above)

/-! Whole runs. -/

theorem evaluate_yields (evaluates : InnerYields (stack 0))
    (yields : ∀ calls, InnerYields (stack.above calls)) (added : AddedActions) (code : Value)
    (plain : store.Plain) (present : frame < store.frames.size) (effectless : Effectless code) :
    Yields ((Discipline.evaluator added .strict).evaluate stack code frame) store
      fun v after => Returned after frame code v := by
  have table (name : String) (form : Form) (operands : List Value)
      (found : FormTable.full.find? name = some form) :
      (Discipline.evaluator added .strict).evaluate stack (.list (.sym name :: operands)) frame =
        form.run (stack.above form.calls) frame operands :=
    Evaluator.evaluate_form _ stack name form operands frame found
  have itself (v : Value) (own : v.isSelfEvaluating = true) (readable : Readable v) :
      Yields ((Discipline.evaluator added .strict).evaluate stack v frame) store
        fun w after => Returned after frame v w := by
    rw [Evaluator.evaluate_constant _ _ _ _ own]
    exact yields_pure plain ⟨settled_of_readable readable, fun frames bound _ _ =>
      .constant bound frame v own readable⟩
  cases effectless with
  | constant _ flat readable =>
      cases code with
      | sym name => exact variable_yields name plain present
      | list items => cases flat
      | _ => first | exact itself _ rfl (readable_leaf rfl rfl) | cases readable
  | empty => exact itself _ rfl Value.every_nil_list
  | quotation datum readable =>
      rw [table "quote" .quote [datum] rfl]
      exact yields_pure plain ⟨settled_of_readable readable, fun frames bound _ _ =>
        .quotation bound frame datum readable⟩
  | conditional operands each =>
      rw [table "if" .conditional operands rfl]
      exact conditional_yields (yields _) operands plain present each
  | procedure spec body each =>
      rw [table "lambda" .procedure (spec :: body) rfl]
      exact procedure_yields spec body plain present each
  | sequence forms each =>
      rw [table "begin" .sequence forms rfl]
      refine (sequence_yields (yields _) forms plain present each).imp fun v after _ found => ?_
      obtain ⟨vs, returned, rfl⟩ := found
      exact ⟨settled_last vs (settled_each returned), fun frames bound reaches above =>
        .sequence bound frame forms vs returned.length_eq.symm (means_each returned reaches above)⟩
  -- a derived form is what its expansion is, and that is effectless again
  | cond clauses tests actions =>
      rw [table "cond" (.derived .cond) _ rfl]
      exact derived_yields (yields _) "cond" .cond _ plain present rfl fun code expanded =>
        .of_expandCond clauses code tests actions expanded
  | conjunction operands each =>
      rw [table "and" (.derived .conjunction) _ rfl]
      refine derived_yields (yields _) "and" .conjunction _ plain present rfl
        fun code expanded => ?_
      cases expanded
      exact .of_conjunction operands each
  | disjunction operands each =>
      rw [table "or" (.derived .disjunction) _ rfl]
      refine derived_yields (yields _) "or" .disjunction _ plain present rfl fun code expanded => ?_
      cases expanded
      exact .of_disjunction operands each
  | exception operands each =>
      rw [table "unless" (.derived .unless) _ rfl]
      exact derived_yields (yields _) "unless" .unless _ plain present rfl fun code expanded =>
        .of_unless operands code each expanded
  | scope entries forms values each =>
      rw [table "let" (.derived .namedLet) _ rfl]
      exact derived_yields (yields _) "let" .namedLet _ plain present rfl fun code expanded =>
        .of_expandLet entries forms code values each expanded
  | scopes entries forms values each =>
      rw [table "let*" (.derived .letStar) _ rfl]
      exact derived_yields (yields _) "let*" .letStar _ plain present rfl fun code expanded =>
        .of_expandLetStar entries forms code values each expanded
  | application head operands ordinary first each =>
      exact application_yields evaluates yields added head operands plain present ordinary first
        each

end Rules

/-- What a strict run returns is what the code means. -/
theorem strict_run_yields (added : AddedActions) (limit : Nat) :
    InnerYields ((Discipline.evaluator added .strict).run limit) := by
  induction limit using Nat.strongRecOn with
  | ind limit ih =>
      cases limit with
      | zero => exact fun store frame code _ _ _ => yields_throw .recursion
      | succ limit =>
          have inside (calls : Nat) :
              InnerYields ((Discipline.evaluator added .strict).stack limit calls) := by
            rw [Evaluator.stack_eq_run]
            exact ih (limit - calls) (by omega)
          exact fun store frame code plain present effectless =>
            evaluate_yields (inside 0) (fun calls => inside (calls + 2)) added code plain present
              effectless

end ThunkLisp
