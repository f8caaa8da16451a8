import Mathlib
import ThunkLisp.Proofs.RunRules
import ThunkLisp.Proofs.SpareSuspensions

/-!
Lazy runs beside a spare suspension. A run gives the same value or failure whether or not a
suspension that nothing refers to is in the store, and what it leaves is the same store but for that
one. Only a suspension that is itself the value, or that is applied, has another number.
-/

namespace ThunkLisp

open Machine (effect)
open Value (Every)

section Alongside

variable {α β γ δ : Type} (spare : Nat) (suspension : Suspension) (least : Nat)

def pastOutcome (spare : Nat) (past : α → β) : Except Failure α → Except Failure β
  | .ok v => .ok (past v)
  | .error failure => .error (failure.past spare)

/-- While there are so many suspensions, the result meets the condition, or what the failure shows
does. -/
def Within (spare count : Nat) (post : Nat → α → Prop) : Except Failure α → Prop
  | .ok v => post count v
  | .error failure => failure.Held spare count

/-- The second computation does beside the spare suspension what the first one does without it, if
there are some suspensions at least. The results correspond, and those of the first meet the
condition. -/
def Alongside (past : α → β) (post : Nat → α → Prop) (x : Run α) (y : Run β) : Prop :=
  ∀ store : Store, store.Orderly spare → least ≤ store.thunks.size → ∃ outcome after,
    x.on store = (outcome, after) ∧
    y.on (store.withSpare spare suspension) =
      (pastOutcome spare past outcome, after.withSpare spare suspension) ∧
    after.Orderly spare ∧ store.thunks.size ≤ after.thunks.size ∧
      Within spare after.thunks.size post outcome

/-- It gives the very same value, with older suspensions only. -/
def SameBeside (x y : Run Value) : Prop :=
  Alongside spare suspension least id (fun _ v => v.Older spare) x y

/-- It gives a value of the same kind, which may be a suspension. -/
def ResultBeside (x y : Run Value) : Prop :=
  Alongside spare suspension least (Value.past spare) (Value.Held spare) x y

variable {spare suspension least}

namespace Alongside

theorem pure {past : α → β} {post : Nat → α → Prop} {v : α}
    (holds : ∀ count, least ≤ count → post count v) :
    Alongside spare suspension least past post (Pure.pure v) (Pure.pure (past v)) :=
  fun store orderly enough => ⟨.ok v, store, rfl, rfl, orderly, le_rfl, holds _ enough⟩

theorem throw {past : α → β} {post : Nat → α → Prop} {failure : Failure}
    (shows_ : failure.Shows (Value.Older spare)) :
    Alongside spare suspension least past post (MonadExcept.throw failure)
      (MonadExcept.throw failure) := by
  intro store orderly _
  refine ⟨.error failure, store, rfl, ?_, orderly, le_rfl, .inl shows_⟩
  rw [pastOutcome, shows_.past]
  rfl

theorem ofExcept {post : Nat → α → Prop} {outcome : Except Failure α}
    (fine : Fine (Value.Older spare) (fun v => ∀ count, post count v) outcome) :
    Alongside spare suspension least id post (Run.ofExcept outcome) (Run.ofExcept outcome) := by
  cases outcome with
  | ok v => exact pure fun count _ => fine count
  | error failure => exact throw fine

theorem bind {past : α → β} {past' : γ → δ} {between : Nat → α → Prop} {post : Nat → γ → Prop}
    {x : Run α} {y : Run β} {next : α → Run γ} {following : β → Run δ}
    (first : Alongside spare suspension least past between x y)
    (behind : ∀ more v, least ≤ more → between more v →
      Alongside spare suspension more past' post (next v) (following (past v))) :
    Alongside spare suspension least past' post (x >>= next) (y >>= following) := by
  intro store orderly enough
  obtain ⟨outcome, after, ran, ran', orderly', grown, within⟩ := first store orderly enough
  cases outcome with
  | error failure =>
      refine ⟨.error failure, after, ?_, ?_, orderly', grown, within⟩
      · rw [Run.on_bind, ran]
      · rw [Run.on_bind, ran']
        rfl
  | ok v =>
      obtain ⟨outcome, last, ran₂, ran₂', orderly₂, grown₂, within₂⟩ :=
        behind _ v (enough.trans grown) within after orderly' le_rfl
      refine ⟨outcome, last, ?_, ?_, orderly₂, grown.trans grown₂, within₂⟩
      · rw [Run.on_bind, ran]
        exact ran₂
      · rw [Run.on_bind, ran']
        exact ran₂'

theorem unmoved {past : α → α} {post weaker : Nat → α → Prop} {x y : Run α}
    (same : Alongside spare suspension least id post x y)
    (fixed : ∀ count v, post count v → past v = v)
    (weakens : ∀ count v, post count v → weaker count v) :
    Alongside spare suspension least past weaker x y := by
  intro store orderly enough
  obtain ⟨outcome, after, ran, ran', orderly', grown, within⟩ := same store orderly enough
  cases outcome with
  | error failure => exact ⟨.error failure, after, ran, ran', orderly', grown, within⟩
  | ok v =>
      refine ⟨.ok v, after, ran, ?_, orderly', grown, weakens _ v within⟩
      rw [ran', pastOutcome, pastOutcome, fixed _ v within, id]

end Alongside

theorem SameBeside.result {x y : Run Value} (same : SameBeside spare suspension least x y) :
    ResultBeside spare suspension least x y :=
  Alongside.unmoved same (fun _ _ older => older.past) fun _ _ older => .inl older

end Alongside

/-- What an added primitive does with values depends on no number of a suspension. It may give a
suspension, also a new one, but has none in its results otherwise unless they are older. -/
def AddedActions.Indifferent (added : AddedActions) : Prop :=
  ∀ (name : String) (given : List Value) (spare : Nat) (suspension : Suspension),
    (∀ v ∈ given, v.Older spare) →
    ResultBeside spare suspension 0 (added name given) (added name given)

section Effects

variable {spare : Nat} {suspension : Suspension} {least : Nat} (frame : FrameId) (name : String)

theorem checkAssigned_beside {v : Value} (older : v.Older spare) :
    SameBeside spare suspension least (Scope.checkAssigned frame (.sym name) v)
      (Scope.checkAssigned frame (.sym name) v) := by
  intro store orderly _
  by_cases assigned : v = .unassigned
  · subst assigned
    have checked : ((store.withSpare spare suspension).frame frame).checked =
        (store.frame frame).checked := by
      rw [store.withSpare_frame]
      rfl
    refine ⟨_, store, Scope.on_checkAssigned_unassigned frame _ store, ?_, orderly, le_rfl, ?_⟩
    · rw [Scope.on_checkAssigned_unassigned, checked]
      split <;> rfl
    · split
      · exact .inl (by simp [Failure.Shows, Failure.phrases, Phrase.Shows, Value.every_sym,
          Value.older_sym])
      · exact older
  · refine ⟨.ok v, store, Scope.on_checkAssigned frame _ v store assigned, ?_, orderly, le_rfl,
    older⟩
    exact Scope.on_checkAssigned frame _ v _ assigned

theorem lookup_beside :
    ResultBeside spare suspension least (Scope.lookup frame (.sym name))
      (Scope.lookup frame (.sym name)) := by
  intro store orderly enough
  have found := store.withSpare_bound? spare suspension frame name
  have ran := Scope.on_lookup frame name store
  have ran' := Scope.on_lookup frame name (store.withSpare spare suspension)
  cases bound : store.bound? frame name with
  | none =>
      rw [bound] at found ran
      rw [found] at ran'
      refine ⟨_, store, ran, ran', orderly, le_rfl, .inl ?_⟩
      simp [Failure.Shows, Failure.phrases, Phrase.Shows, Value.every_sym, Value.older_sym]
  | some v =>
      rw [bound] at found ran
      rw [found] at ran'
      rcases orderly.held_of_bound? bound with older | ⟨id, present, rfl⟩
      · have checking : SameBeside spare suspension least (Scope.checkAssigned frame (.sym name) v)
            (Scope.checkAssigned frame (.sym name) v) := checkAssigned_beside frame name older
        obtain ⟨outcome, after, checked, checked', rest⟩ := checking.result store orderly enough
        simp only [Option.map_some, older.past] at ran'
        exact ⟨outcome, after, ran.trans checked, ran'.trans checked', rest⟩
      · exact ⟨.ok (.thunk id), store, ran, ran', orderly, le_rfl, .inr ⟨id, present, rfl⟩⟩

theorem bind_beside (owner : FrameId) {v : Value} (held : v.Held spare least) :
    Alongside spare suspension least id (fun _ _ => True)
      (Run.change fun store => store.bind owner (.sym name) v)
      (Run.change fun store => store.bind owner (.sym name) (v.past spare)) := by
  intro store orderly enough
  refine ⟨.ok (), store.bind owner (.sym name) v, rfl, ?_, orderly.bind owner _ (held.mono enough),
    le_rfl, trivial⟩
  rw [Run.on_change, store.withSpare_bind suspension owner (.sym name) v]
  rfl

theorem assign_beside {v : Value} (held : v.Held spare least) :
    SameBeside spare suspension least (Scope.assign frame (.sym name) v)
      (Scope.assign frame (.sym name) (v.past spare)) := by
  have located : Alongside spare suspension least id (fun _ _ => True)
      (Scope.locate frame (.sym name))
      (Scope.locate frame (.sym name)) := by
    intro store orderly _
    refine ⟨_, store, Scope.on_locate frame name store, ?_, orderly, le_rfl, trivial⟩
    rw [Scope.on_locate, store.withSpare_find?]
    rfl
  refine located.bind fun more owner le _ => ?_
  cases owner with
  | none => exact .throw (by simp [Failure.Shows, Failure.phrases, Phrase.Shows, Value.every_sym,
      Value.older_sym])
  | some owner =>
      exact (bind_beside name owner (held.mono le)).bind fun _ _ _ _ => .pure fun _ _ =>
        Value.older_sym name

theorem define_beside {v : Value} (held : v.Held spare least) :
    SameBeside spare suspension least (Scope.define frame (.sym name) v)
      (Scope.define frame (.sym name) (v.past spare)) :=
  (bind_beside name frame held).bind fun _ _ _ _ => .pure fun _ _ => Value.older_sym name

theorem takeIdentity_beside : Alongside spare suspension least id (fun _ _ => True)
    (Run.make Store.takeIdentity) (Run.make Store.takeIdentity) :=
  fun _ orderly _ => ⟨_, _, rfl, rfl, orderly.of_same rfl rfl, le_rfl, trivial⟩

theorem makeProcedure_beside {spec : Value} {body : List Value} (older : spec.Older spare)
    (each : ∀ code ∈ body, code.Older spare) :
    SameBeside spare suspension least (Form.makeProcedure spec body frame)
      (Form.makeProcedure spec body frame) := by
  unfold Form.makeProcedure
  cases parsed : parseParams spec with
  | error fault =>
      exact .throw (Failure.shows_of_wholes
        (parseParams_shows (hereditary_every _) spec fault ((Value.every_older_iff spec).mpr older)
          parsed))
  | ok params =>
      refine takeIdentity_beside.bind fun _ identity _ _ => ?_
      exact .pure fun _ _ => (Value.older_procedure identity params body frame).mpr each

theorem suspendAll_beside {codes : List Value} (each : ∀ code ∈ codes, code.Older spare) :
    Alongside spare suspension least (List.map (Value.past spare))
      (fun count vs => ∀ v ∈ vs, v.Held spare count)
      (suspendAll frame codes) (suspendAll frame codes) := by
  induction codes generalizing least with
  | nil => exact .pure (by simp)
  | cons code rest ih =>
      have first : ResultBeside spare suspension least (suspend code frame false)
          (suspend code frame false) := by
        intro store orderly _
        have size : (store.addThunk code frame false).2.thunks.size = store.thunks.size + 1 := by
          simp [Store.addThunk]
        refine ⟨_, _, on_suspend code frame false store, ?_,
          orderly.addThunk frame false (each code List.mem_cons_self), by
            omega, .inr ⟨_, by omega, rfl⟩⟩
        rw [on_suspend, store.withSpare_addThunk suspension orderly.old]
        have number : (store.withSpare spare suspension).thunks.size =
            pastSpare spare store.thunks.size :=
          congrArg Prod.fst (store.withSpare_addThunk suspension orderly.old code frame false)
        rw [number]
        rfl
      refine first.bind fun count v _ held => ?_
      refine (ih fun code member => each code (.tail _ member)).bind fun more vs le behind => ?_
      refine .pure fun count enough => List.forall_mem_cons.mpr
        ⟨held.mono (le.trans enough), fun w member => ?_⟩
      exact (behind w member).mono enough

theorem bindParams_beside (params : List Param) {given : List Value}
    (held : ∀ v ∈ given, v.Held spare least) :
    Alongside spare suspension least id (fun _ _ => True) (bindParams params frame given)
      (bindParams params frame (given.map (Value.past spare))) := by
  intro store orderly enough
  have ran := on_bindParams params frame given store
  have ran' := on_bindParams params frame (given.map (Value.past spare))
    (store.withSpare spare suspension)
  rw [List.length_map, List.zip_map_right] at ran'
  by_cases fits : given.length = params.length
  · rw [if_pos fits] at ran ran'
    refine ⟨_, _, ran, ?_, orderly.extend frame _ fun entry member => ?_, le_rfl, trivial⟩
    · have opened : (store.withSpare spare suspension).extend frame
          (((params.map fun p => Value.sym p.name).zip given).map
            (Prod.map id (Value.past spare))) = _ :=
        store.withSpare_extend suspension frame _
      rw [ran', opened, store.withSpare_size]
      rfl
    · exact (held _ (List.of_mem_zip member).2).mono enough
  · rw [if_neg fits] at ran ran'
    refine ⟨_, _, ran, ran', orderly, le_rfl, .inl ?_⟩
    simp [Failure.Shows, Failure.phrases, Phrase.Shows]

open Classical in
/-- The store with the spare suspension, if it has the frames and the suspensions of a certain
store. The texts that a primitive prints are the same beside the spare suspension in orderly stores
only, and it has to be given a view of all stores. -/
noncomputable def Store.withSpareIf (base : Store) (spare : Nat) (suspension : Suspension)
  (store : Store) : Store :=
  if store.frames = base.frames ∧ store.thunks = base.thunks then store.withSpare spare
    suspension else store

theorem Store.clear_withSpareIf (base : Store) (spare : Nat) (suspension : Suspension) :
    Clear (base.withSpareIf spare suspension) := by
  refine ⟨fun store => ?_, fun store => ?_, fun store fresh printed => ?_⟩
  all_goals
    unfold withSpareIf
    split <;> rfl

theorem perform_beside {added : AddedActions} (indifferent : added.Indifferent)
    (operation : Operation) {given : List Value} (each : ∀ v ∈ given, v.Older spare) :
    ResultBeside spare suspension least (operation.run added given)
      (operation.run added given) := by
  by_cases default_ : ∀ name, operation ≠ .added name
  · refine SameBeside.result fun store orderly _ => ?_
    have every : ∀ v ∈ given, Every (Value.Older spare) v :=
      fun v member => (Value.every_older_iff v).mpr (each v member)
    have displayed : ∀ v ∈ given, ∀ other,
        (store.withSpareIf spare suspension other).displayed v = other.displayed v := by
      intro v member other
      unfold Store.withSpareIf
      split
      · next same => exact (orderly.of_same same.1 same.2).displayed_withSpare suspension (each v
          member)
      · rfl
    -- a default primitive sees of other values at most their texts, and those stay
    have mild := Mild.operation (store.clear_withSpareIf spare suspension) Value.older_results
      (fun _ older => older)
      added operation default_ given every displayed
    obtain ⟨outcome, fresh, printed, ran, ran', fine⟩ := mild store
    rw [Store.withSpareIf, if_pos ⟨rfl, rfl⟩] at ran'
    refine ⟨outcome, _, ran, ?_, orderly.of_same rfl rfl, le_rfl, ?_⟩
    · cases outcome with
      | ok v => exact ran'
      | error failure =>
          have shows_ : failure.Shows (Value.Older spare) := fine
          rw [pastOutcome, shows_.past]
          exact ran'
    · cases outcome with
      | ok v => exact (Value.every_older_iff v).mp fine
      | error failure => exact .inl fine
  -- an added one is indifferent by assumption
  · obtain ⟨name, same⟩ := not_forall.mp default_
    obtain rfl := not_not.mp same
    exact fun store orderly _ => indifferent name given spare suspension each store orderly
      (Nat.zero_le _)

end Effects

/-! The rules. -/

section Rules

variable (spare : Nat) (suspension : Suspension)

/-- The tasks inside a task do the same beside the spare suspension. What is forced is no
suspension. -/
structure InnerBeside (inner : Inner Run) : Prop where
  evaluate {least : Nat} (code : Value) (frame : FrameId) : code.Older spare →
    ResultBeside spare suspension least (inner (.evaluate code frame))
      (inner (.evaluate code frame))
  force {least : Nat} (number : Nat) :
    Alongside spare suspension least id (fun _ v => v.Older spare ∧ v.isThunk = false)
      (inner (.force number))
      (inner (.force (pastSpare spare number)))

variable {spare suspension} {least : Nat} {inner : Inner Run}
  (beside : InnerBeside spare suspension inner)
  (frame : FrameId)

include beside

theorem concrete_beside {count : Nat} {v : Value} (held : v.Held spare count) :
    Alongside spare suspension least id (fun _ v => v.Older spare ∧ v.isThunk = false)
      (inner.concrete v)
      (inner.concrete (v.past spare)) := by
  cases v with
  | thunk id => exact beside.force id
  | _ =>
      obtain older | ⟨id, _, impossible⟩ := held
      · exact .pure fun _ _ => ⟨older, rfl⟩
      · cases impossible

theorem concreteAll_beside {count : Nat} {given : List Value}
    (held : ∀ v ∈ given, v.Held spare count) :
    Alongside spare suspension least id (fun _ vs => ∀ v ∈ vs, v.Older spare)
      (inner.concreteAll given)
      (inner.concreteAll (given.map (Value.past spare))) := by
  induction given generalizing least with
  | nil => exact .pure (by simp)
  | cons first rest ih =>
      refine (concrete_beside beside (held first List.mem_cons_self)).bind fun _ v _ found => ?_
      refine (ih fun v member => held v (.tail _ member)).bind fun _ vs _ behind => ?_
      exact .pure fun _ _ => List.forall_mem_cons.mpr ⟨found.1, behind⟩

theorem evaluateAll_beside {codes : List Value} (each : ∀ code ∈ codes, code.Older spare) :
    Alongside spare suspension least (List.map (Value.past spare))
      (fun count vs => ∀ v ∈ vs, v.Held spare count)
      (inner.evaluateAll frame codes) (inner.evaluateAll frame codes) := by
  induction codes generalizing least with
  | nil => exact .pure (by simp)
  | cons code rest ih =>
      refine (beside.evaluate code frame (each code List.mem_cons_self)).bind fun _ v _ held => ?_
      refine (ih fun code member => each code (.tail _ member)).bind fun more vs le behind => ?_
      refine .pure fun count enough => List.forall_mem_cons.mpr
        ⟨held.mono (le.trans enough), fun w member => ?_⟩
      exact (behind w member).mono enough

theorem sequence_beside {codes : List Value} (each : ∀ code ∈ codes, code.Older spare) :
    ResultBeside spare suspension least (inner.sequence frame codes)
      (inner.sequence frame codes) := by
  induction codes generalizing least with
  | nil => exact .pure fun _ _ => .inl Value.older_nil
  | cons code rest ih =>
      have first {least : Nat} : ResultBeside spare suspension least (inner.evaluate code frame)
          (inner.evaluate code frame) := beside.evaluate code frame (each code List.mem_cons_self)
      cases rest with
      | nil => exact first
      | cons next behind => exact first.bind fun _ _ _ _ => ih fun code member => each code (.tail _
          member)

theorem runAssign_beside {operands : List Value} (each : ∀ code ∈ operands, code.Older spare) :
    ResultBeside spare suspension least (Form.runAssign inner frame operands)
      (Form.runAssign inner frame operands) := by
  unfold Form.runAssign
  split
  · next name code =>
      refine (beside.evaluate code frame (each code (by simp))).bind fun _ v _ held => ?_
      exact (assign_beside frame name held).result
  · next target _ _ =>
      have shown := (Value.every_older_iff target).mpr (each target (by simp))
      exact .throw (by simpa [Failure.Shows, Failure.phrases, Malformed.phrases,
        Phrase.Shows] using shown)
  · exact .throw (by simp [Failure.Shows, Failure.phrases, Malformed.phrases, Phrase.Shows])

theorem runDefine_beside {operands : List Value} (each : ∀ code ∈ operands, code.Older spare) :
    ResultBeside spare suspension least (Form.runDefine inner frame operands)
      (Form.runDefine inner frame operands) := by
  unfold Form.runDefine
  split
  · exact .throw (by simp [Failure.Shows, Failure.phrases, Malformed.phrases, Phrase.Shows])
  · next name code =>
      refine (beside.evaluate code frame (each code (by simp))).bind fun _ v _ held => ?_
      exact (define_beside frame name held).result
  · exact .throw (by simp [Failure.Shows, Failure.phrases, Malformed.phrases, Phrase.Shows])
  · next name params body =>
      have target := (Value.older_list _).mp (each (.list (.sym name :: params)) List.mem_cons_self)
      have spec : (Value.list params).Older spare :=
        (Value.older_list _).mpr fun param member => target param (.tail _ member)
      have made {least : Nat} : ResultBeside spare suspension least
          (Form.makeProcedure (.list params) body frame)
          (Form.makeProcedure (.list params) body frame) :=
        (makeProcedure_beside frame spec fun code member => each code (.tail _ member)).result
      exact made.bind fun _ v _ held => (define_beside frame name held).result
  · next target _ _ _ _ =>
      have shown := (Value.every_older_iff target).mpr (each target List.mem_cons_self)
      exact .throw (by simpa [Failure.Shows, Failure.phrases, Malformed.phrases,
        Phrase.Shows] using shown)

theorem runConditional_beside {operands : List Value} (each : ∀ code ∈ operands, code.Older spare) :
    ResultBeside spare suspension least (Form.runConditional inner frame operands)
      (Form.runConditional inner frame operands) := by
  have testing {branch : Value → Run Value} (test : Value) (older : test.Older spare)
      (branches : ∀ more decided, ResultBeside spare suspension more (branch decided)
        (branch decided)) :
      ResultBeside spare suspension least (do
        branch (← inner.concrete (← inner.evaluate test frame)))
        (do branch (← inner.concrete (← inner.evaluate test frame))) := by
    refine (beside.evaluate test frame older).bind fun _ v _ held => ?_
    exact (concrete_beside beside held).bind fun more decided _ _ => branches more decided
  unfold Form.runConditional
  split
  · next test usual =>
      refine testing test (each test (by simp)) fun _ decided => ?_
      split
      · exact beside.evaluate usual frame (each usual (by simp))
      · exact .pure fun _ _ => .inl Value.older_nil
  · next test usual otherwise =>
      refine testing test (each test (by simp)) fun _ decided => ?_
      split
      · exact beside.evaluate usual frame (each usual (by simp))
      · exact beside.evaluate otherwise frame (each otherwise (by simp))
  · exact .throw (by simp [Failure.Shows, Failure.phrases, Malformed.phrases, Phrase.Shows])

theorem runDerived_beside (form : Derived) {operands : List Value}
    (each : ∀ code ∈ operands, code.Older spare) :
    ResultBeside spare suspension least ((Form.derived form).run inner frame operands)
      ((Form.derived form).run inner frame operands) := by
  have every : ∀ operand ∈ operands, Every (Value.Older spare) operand :=
    fun operand member => (Value.every_older_iff operand).mpr (each operand member)
  have fine : Fine (Value.Older spare) (fun code => ∀ _ : Nat, code.Older spare)
      (form.expand operands) := by
    cases expanded : form.expand operands with
    | error failure =>
        exact Failure.shows_of_wholes
          (expand_shows (hereditary_every _) form operands failure (.list operands every) expanded)
    | ok code => exact fun _ => (Value.every_older_iff code).mp (every_of_expand Value.older_words
        form every expanded)
  exact (Alongside.ofExcept fine).bind fun _ code _ older => beside.evaluate code frame older

theorem form_beside (word : String) (form : Form) (found : FormTable.full.find? word = some form)
    {operands : List Value} (each : ∀ code ∈ operands, code.Older spare) :
    ResultBeside spare suspension least (form.run inner frame operands)
      (form.run inner frame operands) := by
  cases form with
  | assign => exact runAssign_beside beside frame each
  | define => exact runDefine_beside beside frame each
  | conditional => exact runConditional_beside beside frame each
  | sequence => exact sequence_beside beside frame each
  | derived form => exact runDerived_beside beside frame form each
  | quote =>
      cases operands with
      | nil => exact .throw (by simp [Failure.Shows, Failure.phrases, Malformed.phrases,
          Phrase.Shows])
      | cons datum rest =>
          cases rest with
          | nil => exact SameBeside.result (.pure fun _ _ => each datum List.mem_cons_self)
          | cons next behind =>
              exact .throw (by simp [Failure.Shows, Failure.phrases, Malformed.phrases,
                Phrase.Shows])
  | procedure =>
      cases operands with
      | nil => exact .throw (by simp [Failure.Shows, Failure.phrases, Malformed.phrases,
          Phrase.Shows])
      | cons spec body =>
          exact (makeProcedure_beside frame (each spec List.mem_cons_self) fun code member =>
            each code (.tail _ member)).result
  | constant v => simpa [FormTable.full, FormTable.core] using FormTable.mem_of_find? _ _ _ found

theorem apply_beside {added : AddedActions} (indifferent : added.Indifferent) {fn : Value}
    (found : fn.Held spare least) {given : List Value} (held : ∀ v ∈ given, v.Held spare least) :
    ResultBeside spare suspension least (apply added inner fn given)
      (apply added inner (fn.past spare) (given.map (Value.past spare))) := by
  obtain older | ⟨id, present, rfl⟩ := found
  · rw [older.past]
    unfold apply
    split
    · next identity params body home =>
        refine (bindParams_beside home params held).bind fun _ scope _ _ => ?_
        exact sequence_beside beside scope
          ((Value.older_procedure identity params body home).mp older)
    · next p =>
        refine (concreteAll_beside beside held).bind fun _ vs _ each => ?_
        exact perform_beside indifferent p.operation each
    · have shown := (Value.every_older_iff fn).mpr older
      exact .throw (by simpa [Failure.Shows, Failure.phrases, Phrase.Shows] using shown)
  · exact fun store orderly enough =>
      ⟨_, store, rfl, rfl, orderly, le_rfl, .inr ⟨id, Nat.lt_of_lt_of_le present enough, rfl⟩⟩

theorem arguments_beside (fn : Value) {operands : List Value}
    (each : ∀ code ∈ operands, code.Older spare) :
    Alongside spare suspension least (List.map (Value.past spare))
      (fun count vs => ∀ v ∈ vs, v.Held spare count)
      (Strategy.lazy.arguments inner fn frame operands)
      (Strategy.lazy.arguments inner (fn.past spare) frame operands) := by
  cases fn with
  | procedure identity params body home => exact suspendAll_beside frame each
  | _ => exact evaluateAll_beside beside frame each

theorem evaluateVariable_beside (name : String) :
    ResultBeside spare suspension least (Evaluator.evaluateVariable inner name frame)
      (Evaluator.evaluateVariable inner name frame) := by
  refine (lookup_beside frame name).bind fun count v _ held => ?_
  cases v with
  | thunk id => exact (beside.force id).bind fun _ v _ found => (checkAssigned_beside frame name
      found.1).result
  | _ => exact .pure fun _ enough => held.mono enough

omit beside in
theorem combination_beside {stack : Stack Run}
    (beside : ∀ calls, InnerBeside spare suspension (stack.above calls))
    (direct : InnerBeside spare suspension (stack 0)) {added : AddedActions}
    (indifferent : added.Indifferent) {head : Value} {operands : List Value}
    (older : head.Older spare) (each : ∀ code ∈ operands, code.Older spare) :
    let evaluator : Evaluator := ⟨FormTable.full, .lazy, added⟩
    ResultBeside spare suspension least (evaluator.evaluateCombination stack head operands frame)
      (evaluator.evaluateCombination stack head operands frame) := by
  intro evaluator
  unfold Evaluator.evaluateCombination
  cases found : evaluator.form? head with
  | some form =>
      cases head with
      | sym word => exact form_beside (beside form.calls) frame word form found each
      | _ => cases found
  | none =>
      refine (direct.evaluate head frame older).bind fun _ fn _ found => ?_
      -- a procedure stays one under its new number, so its operands are behind as many calls
      have calls : Strategy.lazy.calls (fn.past spare) operands =
        Strategy.lazy.calls fn operands := by cases fn <;> rfl
      rw [calls]
      refine (arguments_beside (beside _) frame fn each).bind fun _ given le held => ?_
      exact apply_beside (beside appliedCalls) indifferent (found.mono le) held

omit beside in
theorem evaluate_beside {stack : Stack Run}
    (beside : ∀ calls, InnerBeside spare suspension (stack.above calls))
    (direct : InnerBeside spare suspension (stack 0)) {added : AddedActions}
    (indifferent : added.Indifferent) {code : Value} (older : code.Older spare) :
    let evaluator : Evaluator := ⟨FormTable.full, .lazy, added⟩
    ResultBeside spare suspension least (evaluator.evaluate stack code frame)
      (evaluator.evaluate stack code frame) := by
  intro evaluator
  unfold Evaluator.evaluate
  split
  · next name => exact evaluateVariable_beside direct frame name
  · split
    · exact SameBeside.result (.pure fun _ _ => older)
    · have fine : Fine (Value.Older spare) (fun parts => ∀ _ : Nat, parts.1.Older spare ∧
          ∀ operand ∈ parts.2, operand.Older spare) (Evaluator.splitCombination code) := by
        unfold Evaluator.splitCombination
        split
        · exact fun _ => List.forall_mem_cons.mp ((Value.older_list _).mp older)
        · have shown := (Value.every_older_iff code).mpr older
          simpa [Fine, Failure.Shows, Failure.phrases, Malformed.phrases, Phrase.Shows] using shown
      exact (Alongside.ofExcept fine).bind fun _ parts _ each =>
        combination_beside frame beside direct indifferent each.1 each.2

omit frame in
theorem force_beside (number : Nat) :
    Alongside spare suspension least id (fun _ v => v.Older spare ∧ v.isThunk = false)
      (inner.force number)
      (inner.force (pastSpare spare number)) := by
  have reading : Alongside spare suspension least id (fun _ found => found.Orderly spare number)
      (Run.read fun store => store.thunk number)
        (Run.read fun store => store.thunk (pastSpare spare number)) := by
    intro store orderly _
    refine ⟨.ok (store.thunk number), store, rfl, ?_, orderly, le_rfl, orderly.thunk number⟩
    rw [Run.on_read, store.withSpare_thunk]
    rfl
  have settling {least : Nat} {v : Value} (found : v.Older spare ∧ v.isThunk = false) :
      Alongside spare suspension least id (fun _ _ => True)
        (Run.change fun store => store.settle number v)
        (Run.change fun store => store.settle (pastSpare spare number) v) := by
    intro store orderly _
    refine ⟨.ok (), store.settle number v, rfl, ?_, orderly.settle number found.1 found.2, ?_,
      trivial⟩
    · rw [Run.on_change, store.withSpare_settle suspension orderly.old]
      rfl
    · simp [Store.settle]
  -- the suspension is read first and settled last, with its code evaluated in between
  refine reading.bind fun _ waiting _ inside => ?_
  cases waiting with
  | settled v => exact .pure fun _ _ => inside
  | waiting code home kept =>
      refine (beside.evaluate code home inside.1).bind fun _ v _ held => ?_
      refine (concrete_beside beside held).bind fun _ w _ found => ?_
      cases kept with
      | false => exact .pure fun _ _ => found
      | true => exact (settling found).bind fun _ _ _ _ => .pure fun _ _ => found

end Rules

namespace Evaluator

/-- Whole runs are the same beside a spare suspension. -/
theorem run_beside {added : AddedActions} (indifferent : added.Indifferent) (spare : Nat)
    (suspension : Suspension) (limit : Nat) : InnerBeside spare suspension
    ((⟨FormTable.full, .lazy, added⟩ : Evaluator).run limit) := by
  have recursion : Failure.recursion.Shows (Value.Older spare) := by
    simp [Failure.Shows, Failure.phrases, Phrase.Shows]
  induction limit using Nat.strongRecOn with
  | ind limit ih =>
      cases limit with
      | zero => exact ⟨fun _ _ _ => .throw recursion, fun _ => .throw recursion⟩
      | succ limit =>
          have above (calls : Nat) :
              InnerBeside spare suspension
                (((⟨FormTable.full, .lazy, added⟩ : Evaluator).stack limit).above calls) := by
            constructor
            · intro least code frame older
              rw [above_stack]
              exact (ih _ (by omega)).evaluate code frame older
            · intro least number
              rw [above_stack, above_stack]
              exact (ih _ (by omega)).force number
          exact ⟨fun _ frame older => evaluate_beside frame above
            (ih limit (Nat.lt_succ_self limit)) indifferent older, fun id =>
            force_beside (above 0) id⟩

end Evaluator

end ThunkLisp
