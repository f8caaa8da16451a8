import ThunkLisp.Proofs.Agreement.Matching
import ThunkLisp.Proofs.Agreement.Strict

/-!
Runs under any strategy, in a store that matches the frames of strict runs. With a limit that is
large enough they return a value for what the code means. The induction is on the bound of the
meaning: what the operands of a call mean is bounded by the number of the frame of the call, and a
variable of that frame is used where the bound is larger.
-/

namespace ThunkLisp

open Machine (effect)
open Value (Every)

namespace Matching

/-- With every limit that is large enough the computation returns the same value and ends in the
same store, which matches as before and where the value is as asked for. -/
def Comes {refuses : Primitive → List Value → Bool} {α : Type} (frames : Store) (m : Matching)
    (store : Store) (x : Nat → Guarded refuses α) (post : Matching → Store → α → Prop) : Prop :=
  ∃ (enough : Nat) (v : α) (after : Store) (m' : Matching),
    (∀ limit ≥ enough, (x limit).on store = (.ok v, after)) ∧ Extends m m' store after ∧
      m'.Holds frames after ∧ post m' after v

section Computations

variable {refuses : Primitive → List Value → Bool} {α β : Type} {frames store : Store}
  {m : Matching}

theorem comes_pure {v : α} {post : Matching → Store → α → Prop} (holds : m.Holds frames store)
    (answers : post m store v) : Comes frames m store (fun _ => (pure v : Guarded refuses α))
      post :=
  ⟨0, v, store, m, fun _ _ => rfl, .refl m store, holds, answers⟩

theorem comes_effect {x : Run α} {post : Matching → Store → α → Prop} {v : α} {after : Store}
    {m' : Matching} (ran : x.on store = (.ok v, after)) (extends_ : Extends m m' store after)
    (holds : m'.Holds frames after) (answers : post m' after v) :
    Comes frames m store (fun _ => (effect x : Guarded refuses α)) post :=
  ⟨0, v, after, m', fun _ _ => ran, extends_, holds, answers⟩

theorem Comes.congr {x y : Nat → Guarded refuses α} {post : Matching → Store → α → Prop}
    (comes : Comes frames m store y post)
    (same : ∀ limit, (x limit).on store = (y limit).on store) :
    Comes frames m store x post := by
  obtain ⟨enough, v, after, m', ran, rest⟩ := comes
  exact ⟨enough, v, after, m', fun limit more => (same limit).trans (ran limit more), rest⟩

theorem Comes.bind {x : Nat → Guarded refuses α} {next : Nat → α → Guarded refuses β}
    {between : Matching → Store → α → Prop} {post : Matching → Store → β → Prop}
    (first : Comes frames m store x between)
    (continues : ∀ m' after v, Extends m m' store after → m'.Holds frames after →
      between m' after v →
      Comes frames m' after (fun limit => next limit v) post) :
    Comes frames m store (fun limit => x limit >>= next limit) post := by
  obtain ⟨enough, v, after, m', ran, extends_, holds, answers⟩ := first
  obtain ⟨enough', w, final, m'', ran', extends', holds', answers'⟩ :=
    continues m' after v extends_ holds answers
  refine ⟨max enough enough', w, final, m'', fun limit more => ?_, extends_.trans extends', holds',
    answers'⟩
  rw [Guarded.on_bind, ran limit (Nat.le_trans (Nat.le_max_left _ _) more)]
  exact ran' limit (Nat.le_trans (Nat.le_max_right _ _) more)

theorem Comes.imp {x : Nat → Guarded refuses α} {stronger post : Matching → Store → α → Prop}
    (first : Comes frames m store x stronger)
    (weaker : ∀ m' after v, Extends m m' store after → m'.Holds frames after → stronger m' after v →
      post m' after v) : Comes frames m store x post := by
  obtain ⟨enough, v, after, m', ran, extends_, holds, answers⟩ := first
  exact ⟨enough, v, after, m', ran, extends_, holds, weaker m' after v extends_ holds answers⟩

theorem Comes.deeper {evaluator : Evaluator} {task : Task} {post : Matching → Store → Value → Prop}
    (inside : Comes frames m store
      (fun limit => evaluator.step (evaluator.stack limit : Stack (Guarded refuses)) task) post)
    (calls : Nat) :
    Comes frames m store (fun limit => (evaluator.stack limit calls task : Guarded refuses Value))
      post := by
  obtain ⟨enough, v, after, m', ran, rest⟩ := inside
  refine ⟨enough + 1 + calls, v, after, m', fun limit more => ?_, rest⟩
  obtain ⟨less, rfl⟩ : ∃ less, limit = less + 1 + calls := ⟨limit - 1 - calls, by omega⟩
  change (evaluator.stack (less + 1 + calls) calls task : Guarded refuses Value).on store = _
  rw [evaluator.stack_eq_run, Nat.add_sub_cancel]
  exact ran less (by omega)

end Computations

theorem Stands.present {m : Matching} {store : Store} {v u : Value} (stands : m.Stands store v u) :
    v.isThunk = false := by
  cases v with
  | thunk id => exact False.elim ((Value.every_of_flat rfl).mp stands.1)
  | _ => rfl

section Rules

variable {refuses : Primitive → List Value → Bool} {frames : Store} (evaluator : Evaluator)

/-- Code that means the value in the frame comes to it, in every match and behind any calls. -/
def Reached (refuses : Primitive → List Value → Bool) (frames : Store) (evaluator : Evaluator)
    (inside : FrameId) (code u : Value) : Prop :=
  ∀ (calls : Nat) (m : Matching) (store : Store) (frame : FrameId), m.Holds frames store →
    frame < store.frames.size → m.frame frame = inside → Comes frames m store
      (fun limit => (evaluator.stack limit calls (.evaluate code frame) : Guarded refuses Value))
      fun m' after v => m'.Stands after v u

variable {calls : Nat} {m : Matching} {store : Store} {frame inside : FrameId}

/-! Tasks in a row. -/

theorem evaluateAll_comes (codes us : List Value) (count : us.length = codes.length)
    (reached : ∀ pair ∈ codes.zip us, Reached refuses frames evaluator inside pair.1 pair.2)
    (holds : m.Holds frames store) (present : frame < store.frames.size)
    (here : m.frame frame = inside) :
    Comes frames m store
      (fun limit => (Inner.evaluateAll ((evaluator.stack limit).above calls) frame codes :
        Guarded refuses (List Value)))
      fun m' after vs => List.Forall₂ (m'.Stands after) vs us := by
  induction codes generalizing m store us with
  | nil =>
      obtain rfl := List.eq_nil_of_length_eq_zero count
      exact comes_pure holds .nil
  | cons code rest ih =>
      cases us with
      | nil => cases count
      | cons u us =>
          refine (reached (code, u) (by simp) _ m store frame holds present here).bind
            fun m' after v extends_ holds' stands => ?_
          have here' := (extends_.frame frame present).trans here
          refine (ih us (Nat.succ.inj count) (fun pair member => reached pair (by simp [member]))
            holds'
            (Nat.lt_of_lt_of_le present extends_.frames) here').bind
            fun m'' final vs extends' holds'' behind => ?_
          exact comes_pure holds'' (.cons (extends'.stands stands) behind)

theorem sequence_comes (forms us : List Value) (count : us.length = forms.length)
    (reached : ∀ pair ∈ forms.zip us, Reached refuses frames evaluator inside pair.1 pair.2)
    (holds : m.Holds frames store) (present : frame < store.frames.size)
    (here : m.frame frame = inside) :
    Comes frames m store
      (fun limit => (Inner.sequence ((evaluator.stack limit).above calls) frame forms :
        Guarded refuses Value))
      fun m' after v => m'.Stands after v (us.getLastD .nil) := by
  induction forms generalizing m store us with
  | nil =>
      obtain rfl := List.eq_nil_of_length_eq_zero count
      exact comes_pure holds ⟨(Value.every_of_flat rfl).mpr trivial, rfl⟩
  | cons code rest ih =>
      cases us with
      | nil => cases count
      | cons u us =>
          have first := reached (code, u) (by simp) (calls + 2) m store frame holds present here
          cases rest with
          | nil =>
              obtain rfl := List.eq_nil_of_length_eq_zero (Nat.succ.inj count)
              exact first
          | cons next behind =>
              refine first.bind fun m' after v extends_ holds' _ => ?_
              have here' := (extends_.frame frame present).trans here
              refine (ih us (Nat.succ.inj count) (fun pair member => reached pair (by simp_all))
                holds'
                (Nat.lt_of_lt_of_le present extends_.frames) here').imp
                fun m'' final w _ _ stands => ?_
              cases us with
              | nil => cases count
              | cons u' us => exact stands

/-! Arguments. -/

theorem suspend_comes (code u : Value) (kept : Bool) (callee : FrameId)
    (holds : m.Holds frames store) (present : frame < store.frames.size)
    (means : Means frames callee (m.frame frame) code u) :
    Comes frames m store (fun _ => (effect (suspend code frame kept) : Guarded refuses Value))
      fun m' after v => m'.Binds after callee v u := by
  obtain ⟨m', extends_, holds', value, bound⟩ :=
    holds.addThunk code frame kept u callee present means
  refine comes_effect (on_suspend code frame kept store) extends_ holds'
    (.inr ⟨store.thunks.size, rfl, ?_, value, Nat.le_of_eq bound⟩)
  simp [Store.addThunk]

theorem argumentFor_comes (mode : ParamMode) (code u : Value) (callee : FrameId)
    (holds : m.Holds frames store) (present : frame < store.frames.size)
    (means : Means frames callee (m.frame frame) code u)
    (reached : Reached refuses frames evaluator (m.frame frame) code u) :
    Comes frames m store
      (fun limit => (argumentFor ((evaluator.stack limit).above calls) frame mode code :
        Guarded refuses Value))
      fun m' after v => m'.Binds after callee v u := by
  cases mode with
  | strict => exact (reached _ m store frame holds present
      rfl).imp fun _ _ _ _ _ stands => .inl stands
  | lazy => exact suspend_comes code u false callee holds present means
  | lazyMemo => exact suspend_comes code u true callee holds present means

variable (calls) in
theorem argumentsFor_comes (params : List Param) (codes us : List Value) (callee : FrameId)
    (count : params.length = codes.length) (count' : us.length = codes.length)
    (means : ∀ pair ∈ codes.zip us, Means frames callee inside pair.1 pair.2)
    (reached : ∀ pair ∈ codes.zip us, Reached refuses frames evaluator inside pair.1 pair.2)
    (holds : m.Holds frames store) (present : frame < store.frames.size)
    (here : m.frame frame = inside) :
    Comes frames m store
      (fun limit => (argumentsFor ((evaluator.stack limit).above calls) frame params codes :
        Guarded refuses (List Value)))
      fun m' after vs => List.Forall₂ (m'.Binds after callee) vs us := by
  induction codes generalizing m store params us with
  | nil =>
      obtain rfl := List.eq_nil_of_length_eq_zero count
      obtain rfl := List.eq_nil_of_length_eq_zero count'
      exact comes_pure holds .nil
  | cons code rest ih =>
      cases params with
      | nil => cases count
      | cons param params =>
          cases us with
          | nil => cases count'
          | cons u us =>
              subst here
              refine (argumentFor_comes evaluator param.mode code u callee holds present
                (means (code, u) (by simp)) (reached (code, u) (by simp))).bind
                fun m' after v extends_ holds' binds => ?_
              refine (ih params us (Nat.succ.inj count) (Nat.succ.inj count')
                (fun pair member => means pair (by simp [member]))
                (fun pair member => reached pair (by simp [member])) holds'
                (Nat.lt_of_lt_of_le present extends_.frames) (extends_.frame frame present)).bind
                fun m'' final vs extends' holds'' behind => ?_
              exact comes_pure holds'' (.cons (extends'.binds binds) behind)

theorem effect_suspendAll (inner : Inner (Guarded refuses)) (params : List Param)
    (codes : List Value) (count : params.length = codes.length) :
    (effect (suspendAll frame codes) : Guarded refuses (List Value)) =
      argumentsFor inner frame (params.map fun p => ⟨p.name, .lazy⟩) codes := by
  induction params generalizing codes with
  | nil =>
      obtain rfl := List.eq_nil_of_length_eq_zero count.symm
      rfl
  | cons param params ih =>
      cases codes with
      | nil => cases count
      | cons code rest =>
          simp only [List.map_cons, argumentsFor, ← ih rest (Nat.succ.inj count)]
          rfl

theorem arguments_comes (identity : Nat) (params : List Param) (body : List Value) (home : FrameId)
    (codes us : List Value) (callee : FrameId) (count : us.length = codes.length)
    (arity : us.length = params.length)
    (means : ∀ pair ∈ codes.zip us, Means frames callee inside pair.1 pair.2)
    (reached : ∀ pair ∈ codes.zip us, Reached refuses frames evaluator inside pair.1 pair.2)
    (holds : m.Holds frames store) (present : frame < store.frames.size)
    (here : m.frame frame = inside) :
    Comes frames m store
      (fun limit => (evaluator.strategy.arguments ((evaluator.stack limit).above calls)
        (.procedure identity params body home)
        frame codes : Guarded refuses (List Value)))
      fun m' after vs => List.Forall₂ (m'.Binds after callee) vs us := by
  have equal : params.length = codes.length := arity.symm.trans count
  cases chosen : evaluator.strategy with
  | strict =>
      exact (evaluateAll_comes evaluator codes us count reached holds present here).imp
        fun _ _ _ _ _ stands => stands.imp fun _ _ stands => .inl stands
  | lazy =>
      refine (argumentsFor_comes evaluator calls (params.map fun p => ⟨p.name, .lazy⟩) codes us
        callee
        (by simpa using equal) count means reached holds present here).congr fun limit => ?_
      rw [← effect_suspendAll _ params codes equal]
      rfl
  | mixed =>
      simp only [Strategy.arguments, if_pos equal.symm]
      exact argumentsFor_comes evaluator calls params codes us callee equal count means reached
        holds present here

/-! Uses of variables. -/

variable (calls) in
theorem force_comes (id : ThunkId) (holds : m.Holds frames store) (there : id < store.thunks.size)
    (reached : ∀ inside code, Means frames (m.bound id) inside code (m.value id) →
      Reached refuses frames evaluator inside code (m.value id)) :
    Comes frames m store (fun limit => (evaluator.stack limit calls (.force id) :
      Guarded refuses Value))
      fun m' after v => m'.Stands after v (m.value id) := by
  have found := Array.getElem?_eq_getElem there
  have suspends := holds.suspended id _ found
  have suspension := Store.thunk_of_getElem? found
  generalize store.thunks[id] = suspended at suspends suspension
  refine .deeper ?_ calls
  cases suspended with
  | settled v =>
      refine (comes_pure holds suspends).congr fun limit => ?_
      simp only [Evaluator.step, Inner.force, Guarded.on_bind, Guarded.on_effect, Run.on_read,
        suspension]
  | waiting code frame kept =>
      obtain ⟨present, means⟩ := suspends
      suffices waits : Comes frames m store (fun limit => (do
          let v ← Inner.concrete ((evaluator.stack limit).above 0)
            (← Inner.evaluate ((evaluator.stack limit).above 0) code frame)
          if kept then effect (Run.change fun store => store.settle id v)
          return v : Guarded refuses Value)) fun m' after v => m'.Stands after v (m.value id) from
        waits.congr fun limit => by
          simp only [Evaluator.step, Inner.force, Guarded.on_bind, Guarded.on_effect, Run.on_read,
            suspension]
      refine (reached _ code means _ m store frame holds present rfl).bind
        fun m' after v extends_ holds' stands => ?_
      simp only [Inner.concrete_of_present _ stands.present, pure_bind]
      cases kept with
      | false => exact comes_pure holds' stands
      | true =>
          have meant := (extends_.value id there).1
          obtain ⟨holds'', settles⟩ := holds'.settle id v (by rwa [meant])
          have changes : Comes frames m' after
              (fun _ => (effect (Run.change fun store => store.settle id v) : Guarded refuses Unit))
              fun m'' final _ => m''.Stands final v (m.value id) :=
            comes_effect rfl settles holds'' (settles.stands stands)
          exact changes.bind fun m'' final _ _ holds''' stands' => comes_pure holds''' stands'

variable (calls) in
theorem variable_comes (name : String) (u : Value) (holds : m.Holds frames store)
    (present : frame < store.frames.size) (found : frames.bound? (m.frame frame) name = some u)
    (reached : ∀ bound inside code, bound ≤ m.frame frame → Means frames bound inside code u →
      Reached refuses frames evaluator inside code u) :
    Comes frames m store
      (fun limit => (Evaluator.evaluateVariable (evaluator.stack limit calls) name frame :
        Guarded refuses Value))
      fun m' after v => m'.Stands after v u := by
  have assigned {m' : Matching} {after : Store} {v : Value} (stands : m'.Stands after v u) :
      v ≠ .unassigned := by
    rintro rfl
    exact (Value.every_of_flat rfl).mp stands.1
  have binding := holds.bound? frame name present
  rw [found] at binding
  generalize bound : store.bound? frame name = v? at binding
  cases binding with
  | @some v _ binds =>
      rcases binds with stands | ⟨id, rfl, there, rfl, below⟩
      · refine (comes_pure holds stands).congr fun limit => ?_
        have there := stands.present
        simp only [Evaluator.evaluateVariable, Guarded.on_bind, Guarded.on_effect, Scope.on_lookup,
          bound, Scope.on_checkAssigned _ _ _ _ (assigned stands)]
        cases v <;> first | rfl | cases there
      · have forces := force_comes evaluator calls id holds there fun inside code =>
          reached (m.bound id) inside code below
        suffices checks : Comes frames m store (fun limit => (do
            let v ← evaluator.stack limit calls (.force id)
            effect (Scope.checkAssigned frame (.sym name) v) : Guarded refuses Value))
            fun m' after v => m'.Stands after v (m.value id) from
          checks.congr fun limit => by
            have suspended : Value.thunk id ≠ .unassigned := by simp
            simp only [Evaluator.evaluateVariable, Guarded.on_bind, Guarded.on_effect,
              Scope.on_lookup, bound, Scope.on_checkAssigned _ _ _ _ suspended]
        refine forces.bind fun m' after v _ holds' stands => ?_
        exact comes_effect (Scope.on_checkAssigned frame (.sym name) v after (assigned stands))
          (.refl m' after) holds' stands

/-! Application. -/

theorem stands_procedure {w : Value} {identity : Nat} {params : List Param} {body : List Value}
    {home : FrameId} (stands : m.Stands store w (.procedure identity params body home)) :
    ∃ again around, w = .procedure again params body around ∧ around < store.frames.size ∧
      m.frame around = home := by
  obtain ⟨known, shape⟩ := stands
  cases w with
  | procedure again params' body' around =>
      simp only [Value.outline, Value.procedure.injEq, true_and, id] at shape
      obtain ⟨rfl, rfl, same⟩ := shape
      exact ⟨again, around, rfl, (Value.every_of_flat rfl).mp known, same⟩
  | list items => simp [Value.outline] at shape
  | _ => cases shape

theorem stands_primitive {w : Value} {p : Primitive} (stands : m.Stands store w (.primitive p)) :
    w = .primitive p := by
  cases w with
  | list items => simp [Stands, Value.outline] at stands
  | primitive q => exact stands.2
  | _ => cases stands.2

theorem outlines_each {vs us : List Value} (each : List.Forall₂ (m.Stands store) vs us) :
    vs.map (Value.outline m.frame) = us.map (Value.outline id) := by
  induction each with
  | nil => rfl
  | cons first _ ih => rw [List.map_cons, List.map_cons, first.2, ih]

theorem known_each {vs us : List Value} (each : List.Forall₂ (m.Stands store) vs us) :
    ∀ v ∈ vs, Every (KnownLeaf store) v ∧ v.isThunk = false := by
  induction each with
  | nil => simp
  | cons first _ ih =>
      intro v member
      rcases List.mem_cons.mp member with rfl | member
      · exact ⟨first.1, first.present⟩
      · exact ih v member

theorem primitive_comes (weaker : ∀ p given, refuses p given = true →
    refusesCompounds p given = true)
    (p : Primitive) (vs us : List Value) (u : Value) (holds : m.Holds frames store)
    (given : List.Forall₂ (m.Stands store) vs us) (gives : Gives p us u) :
    Comes frames m store
      (fun limit => (apply evaluator.added ((evaluator.stack limit).above calls) (.primitive p) vs :
        Guarded refuses Value))
      fun m' after v => m'.Stands after v u := by
  obtain ⟨plain, simple, added, before, after, ran⟩ := gives
  have known := known_each given
  -- the operands are no compounds, as those were that they stand for
  have accepted : refuses p vs = false := by
    cases refused : refuses p vs with
    | false => rfl
    | true =>
        have compound := weaker p vs refused
        simp only [refusesCompounds, Bool.and_eq_true, List.any_eq_true] at compound
        obtain ⟨comparing, v, member, big⟩ := compound
        have inside : v.outline m.frame ∈ us.map (Value.outline id) := by
          rw [← outlines_each given]
          exact List.mem_map_of_mem member
        obtain ⟨w, member', shape⟩ := List.mem_map.mp inside
        rw [← Value.isCompound_outline m.frame, ← shape, Value.isCompound_outline,
          simple comparing w member'] at big
        cases big
  obtain ⟨w, fresh, ran', shape⟩ : ∃ w fresh, (p.operation.run evaluator.added vs).on store =
      (.ok w, { store with fresh := fresh }) ∧ w.outline m.frame = u.outline id :=
    Operation.run_outline evaluator.added added p.operation plain m.frame id (outlines_each given)
      simple ran
  obtain ⟨every, _⟩ := Operation.run_every (known_results store) evaluator.added p.operation plain
    vs
    (fun v member => (known v member).1) ran'
  refine (comes_effect ran' (.of_sizes m (Nat.le_refl _) (Nat.le_refl _)) (holds.of_fresh fresh)
    ⟨every, shape⟩).congr fun limit => ?_
  rw [apply, Inner.concreteAll_of_present _ vs fun v member => (known v member).2, pure_bind,
    Guarded.on_duringPrimitive, accepted]

theorem call_comes (identity : Nat) (params : List Param) (body : List Value) (home : FrameId)
    (vs us ws : List Value) (callee : FrameId) (arity : us.length = params.length)
    (present : home < store.frames.size) (around : m.frame home < callee)
    (outer : (frames.frame callee).outer = some (m.frame home))
    (bindings : (frames.frame callee).bindings = (params.map fun p => .sym p.name).zip us)
    (length : ws.length = body.length)
    (reached : ∀ pair ∈ body.zip ws, Reached refuses frames evaluator callee pair.1 pair.2)
    (holds : m.Holds frames store) (given : List.Forall₂ (m.Binds store callee) vs us) :
    Comes frames m store
      (fun limit => (apply evaluator.added ((evaluator.stack limit).above calls)
        (.procedure identity params body home) vs :
        Guarded refuses Value))
      fun m' after v => m'.Stands after v (ws.getLastD .nil) := by
  have binds : List.Forall₂ (fun entry entry' => entry.1 = entry'.1 ∧
      m.Binds store callee entry.2 entry'.2)
      ((params.map fun p => .sym p.name).zip vs) (frames.frame callee).bindings := by
    rw [bindings]
    exact binds_zip _ given
  obtain ⟨m', extends_, holds', here⟩ := holds.extend home _ callee present around outer binds
  have enters : (bindParams params home vs).on store =
      (.ok store.frames.size,
        (store.extend home ((params.map fun p => .sym p.name).zip vs)).2) := by
    rw [on_bindParams, if_pos (given.length_eq.trans arity)]
  have entering : Comes frames m store (fun _ =>
      (effect (bindParams params home vs) : Guarded refuses FrameId))
      fun m' after inside => inside < after.frames.size ∧ m'.frame inside = callee :=
    comes_effect enters extends_ holds' ⟨by simp [Store.extend, Store.addFrame], here⟩
  exact entering.bind fun m'' after inside _ holds'' entered =>
    sequence_comes evaluator body ws length reached holds'' entered.1 entered.2

/-! Special forms. -/

theorem stands_of_readable (m : Matching) (store : Store) {v : Value} (readable : Readable v) :
    m.Stands store v v := by
  constructor
  · refine readable.imp fun leaf holds => ?_
    cases leaf <;> trivial
  · have frameless : Every (fun leaf => ∀ identity params body frame,
        leaf = .procedure identity params body frame → False) v :=
      readable.imp fun leaf holds identity params body frame same => by
        subst same
        cases holds
    exact Value.outline_congr m.frame id frameless fun _ absurd_ => False.elim absurd_

theorem procedure_comes (spec : Value) (body : List Value) (identity : Nat) (params : List Param)
    (parsed : parseParams spec = .ok params) (holds : m.Holds frames store)
    (present : frame < store.frames.size) (here : m.frame frame = inside) :
    Comes frames m store (fun _ => (effect (Form.makeProcedure spec body frame) :
      Guarded refuses Value))
      fun m' after v => m'.Stands after v (.procedure identity params body inside) := by
  have ran : (Form.makeProcedure spec body frame).on store =
      (.ok (.procedure store.fresh params body frame), { store with fresh :=
        store.fresh + 1 }) := by
    simp only [Form.makeProcedure, parsed]
    rfl
  refine comes_effect ran (.of_sizes m (Nat.le_refl _) (Nat.le_refl _)) (holds.of_fresh _)
    ⟨(Value.every_of_flat rfl).mpr present, ?_⟩
  simp only [Value.outline, here, id]

variable (calls) in
theorem test_comes (test decided : Value) (next : Nat → Value → Guarded refuses Value)
    (post : Matching → Store → Value → Prop)
    (reached : Reached refuses frames evaluator inside test decided) (holds : m.Holds frames store)
    (present : frame < store.frames.size) (here : m.frame frame = inside)
    (continues : ∀ m' after v, Extends m m' store after → m'.Holds frames after →
      v.isTrue = decided.isTrue → Comes frames m' after (fun limit => next limit v) post) :
    Comes frames m store (fun limit => (do
      let v ← Inner.concrete ((evaluator.stack limit).above calls)
        (← Inner.evaluate ((evaluator.stack limit).above calls) test frame)
      next limit v : Guarded refuses Value)) post := by
  refine (reached _ m store frame holds present here).bind
    fun m' after v extends_ holds' stands => ?_
  have same : v.isTrue = decided.isTrue := by
    rw [← Value.isTrue_outline m'.frame, stands.2, Value.isTrue_outline]
  simp only [Inner.concrete_of_present _ stands.present, pure_bind]
  exact continues m' after v extends_ holds' same

/-! Code by its shape. -/

variable (full : evaluator.forms = FormTable.full)

include full

theorem form_reached (name : String) (form : Form) (operands : List Value) (u : Value)
    (found : FormTable.full.find? name = some form)
    (comes : ∀ (m : Matching) (store : Store) (frame : FrameId), m.Holds frames store →
      frame < store.frames.size → m.frame frame = inside → Comes frames m store
        (fun limit => (form.run ((evaluator.stack limit).above form.calls) frame operands :
          Guarded refuses Value))
        fun m' after v => m'.Stands after v u) :
    Reached refuses frames evaluator inside (.list (.sym name :: operands)) u := by
  intro calls m store frame holds present here
  refine .deeper ((comes m store frame holds present here).congr fun limit => ?_) calls
  exact congrArg (Guarded.on · store)
    (evaluator.evaluate_form _ name form operands frame (by rw [full, found]))

theorem taken_reached (test decided chosen v : Value) (others : List Value)
    (few : others.length ≤ 1) (decides : Reached refuses frames evaluator inside test decided)
    (so : decided.isTrue = true) (gives : Reached refuses frames evaluator inside chosen v) :
    Reached refuses frames evaluator inside (.list (.sym "if" :: test :: chosen :: others)) v := by
  refine form_reached evaluator full "if" .conditional _ v rfl
    fun m store frame holds present here => ?_
  have branch (untaken : Nat → Guarded refuses Value) := test_comes evaluator 1 test decided
    (fun limit w => if w.isTrue then Inner.evaluate ((evaluator.stack limit).above 1) chosen
      frame else untaken limit)
    (fun m' after w => m'.Stands after w v) decides holds present here
      fun m' after w extends_ holds' same => by
      simp only [same, so, if_true]
      exact gives _ m' after frame holds' (Nat.lt_of_lt_of_le present extends_.frames)
        ((extends_.frame frame present).trans here)
  match others, few with
  | [], _ => exact branch fun _ => pure .nil
  | [other], _ => exact branch fun limit => Inner.evaluate ((evaluator.stack
      limit).above 1) other frame

theorem otherwise_reached (test decided other chosen v : Value)
    (decides : Reached refuses frames evaluator inside test decided) (so : decided.isTrue = false)
    (gives : Reached refuses frames evaluator inside chosen v) :
    Reached refuses frames evaluator inside (.list [.sym "if", test, other, chosen]) v := by
  refine form_reached evaluator full "if" .conditional _ v rfl
    fun m store frame holds present here => ?_
  exact test_comes evaluator 1 test decided
    (fun limit w => if w.isTrue then Inner.evaluate ((evaluator.stack limit).above 1) other frame
      else Inner.evaluate ((evaluator.stack limit).above 1) chosen frame)
    (fun m' after w => m'.Stands after w v) decides holds present here
      fun m' after w extends_ holds' same => by
      simp only [same, so, Bool.false_eq_true, if_false]
      exact gives _ m' after frame holds' (Nat.lt_of_lt_of_le present extends_.frames)
        ((extends_.frame frame present).trans here)

theorem skipped_reached (test decided other : Value)
    (decides : Reached refuses frames evaluator inside test decided) (so : decided.isTrue = false) :
    Reached refuses frames evaluator inside (.list [.sym "if", test, other]) .nil := by
  refine form_reached evaluator full "if" .conditional _ .nil rfl
    fun m store frame holds present here => ?_
  exact test_comes evaluator 1 test decided
    (fun limit w => if w.isTrue then Inner.evaluate ((evaluator.stack limit).above 1) other
      frame else pure .nil)
    (fun m' after w => m'.Stands after w .nil) decides holds present here
      fun m' after w _ holds' same => by
      simp only [same, so, Bool.false_eq_true, if_false]
      exact comes_pure holds' (stands_of_readable m' after (readable_leaf rfl rfl))

theorem application_reached (head : Value) (operands : List Value) (f u : Value)
    (ordinary : ∀ name, head = .sym name → FormTable.full.find? name = none)
    (fn : Reached refuses frames evaluator inside head f)
    (comes : ∀ (m : Matching) (store : Store) (frame : FrameId) (w : Value), m.Holds frames store →
      frame < store.frames.size → m.frame frame = inside → m.Stands store w f → Comes frames m store
        (fun limit => (do
          let given ← evaluator.strategy.arguments
            ((evaluator.stack limit).above (evaluator.strategy.calls w operands)) w frame operands
          apply evaluator.added ((evaluator.stack limit).above appliedCalls) w given :
            Guarded refuses Value))
        fun m' after v => m'.Stands after v u) :
    Reached refuses frames evaluator inside (.list (head :: operands)) u := by
  intro calls m store frame holds present here
  have whole : Comes frames m store (fun limit => (do
      let w ← Inner.evaluate (evaluator.stack limit 0) head frame
      let given ← evaluator.strategy.arguments
            ((evaluator.stack limit).above (evaluator.strategy.calls w operands)) w frame operands
      apply evaluator.added ((evaluator.stack limit).above appliedCalls) w given :
        Guarded refuses Value))
      fun m' after v => m'.Stands after v u :=
    (fn _ m store frame holds present here).bind fun m' after w extends_ holds' stands =>
      comes m' after frame w holds' (Nat.lt_of_lt_of_le present extends_.frames)
        ((extends_.frame frame present).trans here) stands
  refine .deeper (whole.congr fun limit => ?_) calls
  exact congrArg (Guarded.on · store) (evaluator.evaluate_application _ head operands frame
    (by rwa [full]))

/-- The operands of a call may be evaluated in the caller's frame before the call or during it. -/
theorem call_reached (head : Value) (operands : List Value) (identity : Nat) (params : List Param)
    (body : List Value) (home : FrameId) (us vs : List Value) (callee : FrameId)
    (ordinary : ∀ name, head = .sym name → FormTable.full.find? name = none)
    (fn : Reached refuses frames evaluator inside head (.procedure identity params body home))
    (count : us.length = operands.length) (arity : us.length = params.length)
    (means : ∀ pair ∈ operands.zip us, Means frames callee inside pair.1 pair.2)
    (given : ∀ pair ∈ operands.zip us, Reached refuses frames evaluator inside pair.1 pair.2)
    (around : home < callee) (outer : (frames.frame callee).outer = some home)
    (bindings : (frames.frame callee).bindings = (params.map fun p => .sym p.name).zip us)
    (length : vs.length = body.length)
    (each : ∀ pair ∈ body.zip vs, Reached refuses frames evaluator callee pair.1 pair.2) :
    Reached refuses frames evaluator inside (.list (head :: operands)) (vs.getLastD .nil) := by
  refine application_reached evaluator full head operands _ _ ordinary fn
    fun m store frame w holds present here stands => ?_
  obtain ⟨again, home', rfl, there, same⟩ := stands_procedure stands
  refine (arguments_comes evaluator again params body home' operands us callee count arity means
    given holds
    present here).bind fun m' after ws extends_ holds' binds => ?_
  have same' : m'.frame home' = home := (extends_.frame home' there).trans same
  exact call_comes evaluator again params body home' ws us vs callee arity
    (Nat.lt_of_lt_of_le there extends_.frames) (by rwa [same'])
    (by rw [outer, same']) bindings length each
    holds' binds

theorem primitive_reached (weaker : ∀ p given, refuses p given = true →
    refusesCompounds p given = true)
    (head : Value) (operands : List Value) (p : Primitive) (us : List Value) (v : Value)
    (ordinary : ∀ name, head = .sym name → FormTable.full.find? name = none)
    (fn : Reached refuses frames evaluator inside head (.primitive p))
    (count : us.length = operands.length)
    (given : ∀ pair ∈ operands.zip us, Reached refuses frames evaluator inside pair.1 pair.2)
    (gives : Gives p us v) : Reached refuses frames evaluator inside (.list (head :: operands))
    v := by
  refine application_reached evaluator full head operands _ _ ordinary fn
    fun m store frame w holds present here stands => ?_
  obtain rfl := stands_primitive stands
  have evaluated (calls limit : Nat) : evaluator.strategy.arguments
      ((evaluator.stack limit : Stack (Guarded refuses)).above calls)
      (.primitive p) frame operands = Inner.evaluateAll ((evaluator.stack limit).above calls) frame
        operands := by
    cases evaluator.strategy <;> rfl
  simp only [evaluated]
  exact (evaluateAll_comes evaluator operands us count given holds present here).bind
    fun m' after ws _ holds' values => primitive_comes evaluator weaker p ws us v holds' values
      gives

end Rules

/-- Code comes to what it means, whatever the strategy. -/
theorem means_reached {refuses : Primitive → List Value → Bool} {frames : Store}
    (weaker : ∀ p given, refuses p given = true → refusesCompounds p given = true)
    (evaluator : Evaluator) (full : evaluator.forms = FormTable.full) (bound : Nat)
    (inside : FrameId) (code u : Value) (means : Means frames bound inside code u) :
    Reached refuses frames evaluator inside code u := by
  induction bound using Nat.strongRecOn generalizing inside code u with
  | ind bound below =>
      induction means with
      | constant bound inside v itself readable =>
          intro calls m store frame holds present here
          refine .deeper ((comes_pure holds (stands_of_readable m store readable)).congr
            fun limit => ?_)
            calls
          exact congrArg (Guarded.on · store) (evaluator.evaluate_constant _ v frame itself)
      | lookup bound inside name v less found =>
          intro calls m store frame holds present here
          subst here
          -- the operand that the variable is bound to means less than the bound
          have comes := variable_comes evaluator 0 name v holds present found
            fun bound' inside' code le means =>
              below bound' (Nat.lt_of_le_of_lt le less) inside' code v means
          exact .deeper comes calls
      | quotation bound inside datum readable =>
          exact form_reached evaluator full "quote" .quote [datum] datum rfl
              fun m store frame holds _ _ =>
            comes_pure holds (stands_of_readable m store readable)
      | procedure bound inside spec body identity params parsed =>
          exact form_reached evaluator full "lambda" .procedure _ _ rfl
              fun m store frame holds present here =>
            procedure_comes spec body identity params parsed holds present here
      | sequence bound inside forms vs count each ih =>
          exact form_reached evaluator full "begin" .sequence forms _ rfl
              fun m store frame holds present here =>
            sequence_comes evaluator forms vs count (fun pair member => ih pair member below) holds
              present here
      | taken bound inside test decided chosen v others few _ so _ decides gives =>
          exact taken_reached evaluator full test decided chosen v others few (decides below) so
            (gives below)
      | otherwise bound inside test decided other chosen v _ so _ decides gives =>
          exact otherwise_reached evaluator full test decided other chosen v (decides below) so
            (gives below)
      | skipped bound inside test decided other _ so decides =>
          exact skipped_reached evaluator full test decided other (decides below) so
      | derived bound inside name form operands code v found expanded _ gives =>
          refine form_reached evaluator full name (.derived form) operands v found
            fun m store frame holds present here => ?_
          refine (gives below 3 m store frame holds present here).congr fun limit => ?_
          simp only [Form.run, expanded, Guarded.on_bind, Guarded.on_effect, Run.on_ofExcept]
          rfl
      | call bound inside head operands identity params body home us vs callee ordinary _ count
          arity means less
          around outer bindings length _ fn _ each =>
          exact call_reached evaluator full head operands identity params body home us vs callee
            ordinary
            (fn below) count arity means
            (fun pair member => below callee less inside pair.1 pair.2 (means pair member)) around
              outer bindings
            length fun pair member => each pair member below
      | primitive bound inside head operands p us v ordinary _ count _ gives fn given =>
          exact primitive_reached evaluator full weaker head operands p us v ordinary (fn below)
            count
            (fun pair member => given pair member below) gives

end Matching

end ThunkLisp
