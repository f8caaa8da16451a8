import ThunkLisp.Proofs.Scopes
import ThunkLisp.Proofs.WaitingNames

/-!
The scope of a `letrec`. By way of its expansions the form makes one frame, in which all its names
are bound without values. It evaluates the values there from left to right, each bound to its name
as soon as it is there, and then the body. What else is evaluated meanwhile or afterwards finds a
name without a value refused.
-/

namespace ThunkLisp

open Machine (effect)

/-! The frame. -/

def Store.suspendMarks (store : Store) (frame : FrameId) : Nat → List Value × Store
  | 0 => ([], store)
  | count + 1 =>
      let rest := (store.addThunk mark frame false).2.suspendMarks frame count
      (.thunk store.thunks.size :: rest.1, rest.2)

/-- What stands for values that are not there yet. -/
def Strategy.placeholders (strategy : Strategy) (store : Store) (frame : FrameId) (count : Nat) :
    List Value × Store :=
  match strategy with
  | .lazy => store.suspendMarks frame count
  | _ => (List.replicate count .unassigned, store)

/-- The store with the frame of a `letrec` of these names. -/
def Store.openScope (store : Store) (strategy : Strategy) (frame : FrameId) (names : List String) :
    Store :=
  let given := strategy.placeholders store.takeIdentity.2 frame names.length
  (given.2.extend frame ((names.map Value.sym).zip given.1)).2

/-- In the second store there is one more frame, inside another. It binds exactly these names, and
none of them has a value; all else that can be seen is as it was. -/
structure Store.Opens (store : Store) (around : FrameId) (names : List String) (opened : Store) :
    Prop where
  frame : ∃ bindings, opened.frames = store.frames.push
    ⟨bindings, some around, (store.frame around).checked⟩ ∧
    bindings.map Prod.fst = names.map Value.sym
  unassigned : ∀ name ∈ names, opened.Unassigned store.frames.size name
  thunks : ∀ (id : ThunkId) suspension, store.thunks[id]? = some suspension →
    opened.thunks[id]? = some suspension
  printed : opened.printed = store.printed
  log : opened.log = store.log

/-- Placeholders are made in the store, and nothing else is. -/
structure Placeholders (store : Store) (frame : FrameId) (count : Nat)
    (given : List Value × Store) : Prop where
  count : given.1.length = count
  each : ∀ v ∈ given.1, v = .unassigned ∨ ∃ id, v = .thunk id ∧
    given.2.thunk id = .waiting mark frame false
  undisturbed : store.Undisturbed given.2
  printed : given.2.printed = store.printed
  log : given.2.log = store.log

theorem Store.suspendMarks_placeholders (store : Store) (frame : FrameId) (count : Nat) :
    Placeholders store frame count (store.suspendMarks frame count) := by
  induction count generalizing store with
  | zero => exact ⟨rfl, nofun, ⟨rfl, fun _ _ found => found⟩, rfl, rfl⟩
  | succ count ih =>
      have rest := ih (store.addThunk mark frame false).2
      have added : (store.addThunk mark frame false).2.thunks[store.thunks.size]? =
          some (.waiting mark frame false) := by simp [Store.addThunk]
      refine ⟨congrArg (· + 1) rest.count, ?_,
        ⟨rest.undisturbed.frames, fun id suspension found => ?_⟩, ?_, ?_⟩
      · intro v member
        rcases List.mem_cons.mp member with rfl | behind
        · exact .inr ⟨_, rfl, Store.thunk_of_getElem? (rest.undisturbed.thunks _ _ added)⟩
        · exact rest.each v behind
      · exact rest.undisturbed.thunks id suspension
          ((Undisturbed.addThunk store mark frame false).thunks id _ found)
      · exact rest.printed
      · exact rest.log

theorem Strategy.placeholders_placeholders (strategy : Strategy) (store : Store) (frame : FrameId)
    (count : Nat) :
    Placeholders store frame count (strategy.placeholders store frame count) := by
  have replicated : Placeholders store frame count (List.replicate count .unassigned, store) :=
    ⟨by simp, fun v member => .inl (List.eq_of_mem_replicate member), ⟨rfl, fun _ _ found =>
      found⟩, rfl, rfl⟩
  cases strategy with
  | lazy => exact store.suspendMarks_placeholders frame count
  | _ => exact replicated

theorem Bindings.find?_zip {names : List String} {given : List Value}
    (count : given.length = names.length) {name : String} (member : name ∈ names) :
    ∃ v ∈ given, Bindings.find? ((names.map Value.sym).zip given) (.sym name) = some v := by
  induction names generalizing given with
  | nil => cases member
  | cons first rest ih =>
      cases given with
      | nil => cases count
      | cons v vs =>
          by_cases here : first = name
          · subst here
            exact ⟨v, List.mem_cons_self, by simp [Bindings.find?, Value.same_sym_right]⟩
          · have behind : name ∈ rest := (List.mem_cons.mp member).resolve_left (Ne.symm here)
            obtain ⟨w, inside, found⟩ := ih (Nat.succ.inj count) behind
            refine ⟨w, .tail _ inside, ?_⟩
            rw [← found]
            simp [Bindings.find?, Value.same_sym_right, here]

theorem Store.opens_openScope (store : Store) (strategy : Strategy) (frame : FrameId)
    (names : List String) :
    store.Opens frame names (store.openScope strategy frame names) := by
  have made := strategy.placeholders_placeholders store.takeIdentity.2 frame names.length
  unfold Store.openScope
  generalize strategy.placeholders store.takeIdentity.2 frame names.length = given at made ⊢
  obtain ⟨vs, after⟩ := given
  obtain ⟨count, each, ⟨frames, thunks⟩, printed, log⟩ := made
  have same : after.frames = store.frames := frames
  have size : store.frames.size = after.frames.size := by rw [same]
  refine ⟨⟨(names.map Value.sym).zip vs, ?_, ?_⟩, fun name member => ?_, thunks, printed, log⟩
  · simp [extend, addFrame, Store.frame, same]
  · exact List.map_fst_zip (by simp [count])
  · obtain ⟨v, inside, found⟩ := Bindings.find?_zip count member
    refine ⟨v, ?_, ?_⟩
    · rw [size, after.frame_extend_self frame]
      exact found
    · exact (each v inside).imp_right (Exists.imp fun _ given => ⟨frame, given⟩)

namespace Store.Opens

variable {store opened : Store} {around : FrameId} {names : List String}
  (opens : store.Opens around names opened)

include opens

theorem size : opened.frames.size = store.frames.size + 1 := by
  obtain ⟨bindings, frames, _⟩ := opens.frame
  rw [frames, Array.size_push]

theorem checked : (opened.frame store.frames.size).checked = (store.frame around).checked := by
  obtain ⟨bindings, frames, _⟩ := opens.frame
  simp [Store.frame, frames, Array.getD_eq_getD_getElem?]

theorem binds (name : String) (member : name ∈ names) :
    (opened.frame store.frames.size).bindings.binds (.sym name) = true := by
  obtain ⟨v, found, _⟩ := opens.unassigned name member
  rw [Bindings.binds, found]
  rfl

end Store.Opens

/-! What comes before the frame. -/

/-- From the first recording on, up to the second, frames have stayed as they were. -/
def Recording.FramesStay (r s : Recording) : Prop :=
  s.store.frames = r.store.frames ∧
    ∃ newer, s.events = newer ++ r.events ∧ ∀ event ∈ newer, event.store.frames = r.store.frames

namespace Recording.FramesStay

variable {r s t : Recording}

theorem of_store {after : Store} (frames : after.frames = r.store.frames) :
    r.FramesStay ⟨after, r.events⟩ :=
  ⟨frames, [], rfl, nofun⟩

theorem trans (first : r.FramesStay s) (second : s.FramesStay t) : r.FramesStay t := by
  obtain ⟨frames, newer, events, each⟩ := first
  obtain ⟨frames', newest, events', each'⟩ := second
  refine ⟨frames'.trans frames, newest ++ newer, by
    rw [events', events, List.append_assoc], fun event member => ?_⟩
  rcases List.mem_append.mp member with late | early
  · exact (each' event late).trans frames
  · exact each event early

theorem note (event : Event) (now : event.store = r.store) : r.FramesStay (r.note event) :=
  ⟨rfl, [event], rfl, fun _ member => List.mem_singleton.mp member ▸ congrArg Store.frames now⟩

theorem task {task : Task} (inside : (r.beginning task).FramesStay s) (before : Store)
    (outcome : Except Failure Value) : r.FramesStay (s.ending task before outcome) :=
  ((note (.began task r.store) rfl).trans inside).trans
    (note (.ended task before outcome s.store) rfl)

end Recording.FramesStay

namespace Evaluator

variable (evaluator : Evaluator) (limit : Nat) (frame : FrameId) (r : Recording)

theorem on_mark (quotes : evaluator.forms.find? "quote" = some .quote) :
    ∃ s, (evaluator.run (limit + 1) (.evaluate mark frame) : Recorded Value).on r =
      (.ok .unassigned, s) ∧
      s.store = r.store ∧ r.FramesStay s := by
  refine ⟨_, on_form quotes rfl, rfl, Recording.FramesStay.task ?_ r.store _⟩
  exact .of_store rfl

theorem on_procedure (procedures : evaluator.forms.find? "lambda" = some .procedure) {spec : Value}
    {params : List Param} (parsed : parseParams spec = .ok params) (body : List Value) :
    ∃ s, (evaluator.run (limit + 1) (.evaluate (.list (.sym "lambda" :: spec :: body)) frame) :
        Recorded Value).on r =
        (.ok (.procedure r.store.fresh params body frame), s) ∧ s.store = r.store.takeIdentity.2 ∧
          r.FramesStay s := by
  have made : (Form.makeProcedure spec body frame).on r.store =
      (.ok (.procedure r.store.fresh params body frame), r.store.takeIdentity.2) := by
    rw [Form.makeProcedure, parsed]
    rfl
  let begun := r.beginning (.evaluate (.list (.sym "lambda" :: spec :: body)) frame)
  refine ⟨_, on_form (s := ⟨r.store.takeIdentity.2, begun.events⟩) procedures ?_, rfl,
    Recording.FramesStay.task ?_ r.store _⟩
  · have same : begun.store = r.store := rfl
    rw [Form.run, Recorded.on_effect, same, made]
  · exact .of_store rfl

theorem on_marks (quotes : evaluator.forms.find? "quote" = some .quote) (count : Nat) :
    ∃ s, (Inner.evaluateAll (evaluator.run (limit + 1)) frame (List.replicate count mark) :
        Recorded (List Value)).on r =
        (.ok (List.replicate count .unassigned), s) ∧ s.store = r.store ∧ r.FramesStay s := by
  induction count generalizing r with
  | zero => exact ⟨r, rfl, rfl, .of_store rfl⟩
  | succ count ih =>
      obtain ⟨s, ran, store, stays⟩ := on_mark evaluator limit frame r quotes
      obtain ⟨t, ran', store', stays'⟩ := ih s
      refine ⟨t, ?_, store'.trans store, stays.trans stays'⟩
      simp only [List.replicate_succ, Inner.evaluateAll, Inner.evaluate, Recorded.on_bind, ran,
        ran', Recorded.on_pure]

end Evaluator

theorem Derived.expand_scope_of_letrec (entries : List (String × Value)) (forms : List Value) :
    namedLet.expand (.list (entries.map fun entry => entryForm (entry.1, mark)) ::
      (assignments entries ++ forms)) =
      .ok (letrecCall entries forms) :=
  expand_letrecScope entries forms

theorem on_suspendAll_marks (store : Store) (frame : FrameId) (count : Nat) :
    (suspendAll frame (List.replicate count mark)).on store =
      (.ok (store.suspendMarks frame count).1, (store.suspendMarks frame count).2) := by
  induction count generalizing store with
  | zero => rfl
  | succ count ih =>
      simp only [List.replicate_succ, suspendAll, Run.on_bind, on_suspend, ih, Run.on_pure,
        Store.suspendMarks]

namespace Evaluator

variable (strategy : Strategy) (added : AddedActions) (limit : Nat) (frame : FrameId)
  (r : Recording)

theorem on_placeholders (identity : Nat) {params : List Param} (body : List Value) (home : FrameId)
    (strict : ∀ param ∈ params, param.mode = .strict) :
    ∃ s, (strategy.arguments
        (((⟨FormTable.full, strategy, added⟩ : Evaluator).stack (limit + 4)).above 1)
        (.procedure identity params body home) frame (List.replicate params.length mark) :
          Recorded (List Value)).on r =
          (.ok (strategy.placeholders r.store frame params.length).1, s) ∧
        s.store = (strategy.placeholders r.store frame params.length).2 ∧ r.FramesStay s := by
  have evaluated := on_marks ⟨FormTable.full, strategy, added⟩ limit frame r rfl params.length
  have room := evaluateAll_above (m := Recorded) ⟨FormTable.full, strategy, added⟩
    (limit + 4) 1 frame
  rw [show limit + 4 - (1 + 2) = limit + 1 from rfl] at room
  rw [← room] at evaluated
  cases strategy with
  | strict => exact evaluated
  | mixed =>
      have fits : (List.replicate params.length mark).length = params.length :=
        List.length_replicate
      simp only [Strategy.arguments, if_pos fits, argumentsFor_of_strict _ frame strict fits]
      exact evaluated
  | lazy =>
      have made := r.store.suspendMarks_placeholders frame params.length
      refine ⟨⟨(r.store.suspendMarks frame params.length).2, r.events⟩, ?_, rfl,
        .of_store made.undisturbed.frames⟩
      change (effect (suspendAll frame (List.replicate params.length mark)) :
        Recorded (List Value)).on r = _
      rw [Recorded.on_effect, on_suspendAll_marks]
      rfl

theorem on_letrecCall {entries : List (String × Value)} (distinct : (entries.map Prod.fst).Nodup)
    (forms : List Value) :
    let evaluator : Evaluator := ⟨FormTable.full, strategy, added⟩
    ∃ start, start.store = r.store.openScope strategy frame (entries.map Prod.fst) ∧
      (∃ newer, start.events = newer ++ r.events ∧ ∀ event ∈ newer, event.store.frames =
        r.store.frames) ∧
      (evaluator.evaluateCombination (evaluator.stack (limit + 4))
        (.list (.sym "lambda" :: .list (Derived.symbols entries) ::
          (Derived.assignments entries ++ forms)))
        (entries.map fun _ => mark) frame : Recorded Value).on r =
          (Inner.sequence (evaluator.run (limit - 1)) r.store.frames.size
            (Derived.assignments entries ++ forms) :
            Recorded Value).on start := by
  intro evaluator
  let params : List Param := entries.map fun entry => ⟨entry.1, .strict⟩
  let body := Derived.assignments entries ++ forms
  let fn := Value.procedure r.store.fresh params body frame
  have strict : ∀ param ∈ params, param.mode = .strict := by
    intro param member
    obtain ⟨_, _, rfl⟩ := List.mem_map.mp member
    rfl
  have parsed : parseParams (.list (Derived.symbols entries)) = .ok params := by
    rw [parseParams_symbols, if_pos distinct]
  -- the procedure takes an identity from the store before the placeholders are made in it
  obtain ⟨first, ran, store, stays⟩ := on_procedure evaluator (limit + 3) frame r rfl parsed body
  obtain ⟨second, ran', store', stays'⟩ :=
    on_placeholders strategy added limit frame first r.store.fresh body frame strict
  rw [store] at ran' store'
  have count := (strategy.placeholders_placeholders r.store.takeIdentity.2 frame
    params.length).count
  have marks : (entries.map fun _ => mark) = List.replicate params.length mark := by simp [params]
  have names : params.map (fun p => Value.sym p.name) = (entries.map Prod.fst).map Value.sym := by
    simp [params]
  have size : params.length = (entries.map Prod.fst).length := by simp [params]
  obtain ⟨frames, newer, events, each⟩ := stays.trans stays'
  refine ⟨⟨r.store.openScope strategy frame (entries.map Prod.fst), second.events⟩, rfl,
    ⟨newer, events, each⟩, ?_⟩
  have entered : (apply added ((evaluator.stack (limit + 4)).above appliedCalls) fn
      (strategy.placeholders r.store.takeIdentity.2 frame params.length).1 : Recorded Value).on
        second =
        (Inner.sequence (evaluator.run (limit - 1)) r.store.frames.size body : Recorded Value).on
          ⟨r.store.openScope strategy frame (entries.map Prod.fst), second.events⟩ := by
    simp only [apply, fn, Recorded.on_bind, Recorded.on_effect, on_bindParams, count, if_true,
      names, frames]
    rw [store', Store.openScope, size, sequence_above]
    rfl
  rw [combination_application evaluator _ _ _ frame (by simp), evaluate_stack, Recorded.on_bind,
    ran]
  dsimp only
  rw [marks, strategy.calls_of_length List.length_replicate, Recorded.on_bind, ran']
  exact entered

/-- A `letrec` makes its frame, and from then on does what its values and its body do in the frame.
-/
theorem on_letrec {entries : List (String × Value)} (distinct : (entries.map Prod.fst).Nodup)
    (forms : List Value) :
    let evaluator : Evaluator := ⟨FormTable.full, strategy, added⟩
    ∃ start, start.store = r.store.openScope strategy frame (entries.map Prod.fst) ∧
      (∃ newer, start.events = newer ++ r.events ∧ ∀ event ∈ newer, event.store.frames =
        r.store.frames) ∧
      ∀ outcome s, (Inner.sequence (evaluator.run (limit - 1)) r.store.frames.size
          (Derived.assignments entries ++ forms) : Recorded Value).on start = (outcome, s) →
        (evaluator.run (limit + 13) (.evaluate (Derived.letrecForm entries forms) frame) :
          Recorded Value).on r =
          (outcome, ((s.ending (.evaluate (Derived.letrecCall entries forms) frame) r.store
            outcome).ending
            (.evaluate (Derived.letrecScope entries forms) frame) r.store outcome).ending
            (.evaluate (Derived.letrecForm entries forms) frame) r.store outcome) := by
  intro evaluator
  let outer := (r.beginning (.evaluate (Derived.letrecForm entries forms) frame)).beginning
    (.evaluate (Derived.letrecScope entries forms) frame)
  let inside := outer.beginning (.evaluate (Derived.letrecCall entries forms) frame)
  -- the form, its scope and its call have begun before the operator of the call
  obtain ⟨start, store, ⟨newer, events, each⟩, called⟩ :=
    on_letrecCall strategy added limit frame inside distinct forms
  refine ⟨start, store, ⟨newer ++ [.began (.evaluate (Derived.letrecCall entries forms) frame)
    r.store, .began (.evaluate (Derived.letrecScope entries forms) frame) r.store,
    .began (.evaluate (Derived.letrecForm entries forms) frame) r.store], ?_, ?_⟩,
    fun outcome s ran => ?_⟩
  · rw [events, List.append_assoc]
    rfl
  · intro event member
    rcases List.mem_append.mp member with early | began
    · exact each event early
    · simp only [List.mem_cons, List.not_mem_nil, or_false] at began
      rcases began with rfl | rfl | rfl <;> rfl
  · have call : (evaluator.run (limit + 5) (.evaluate (Derived.letrecCall entries forms) frame) :
        Recorded Value).on
        outer = (outcome, s.ending (.evaluate (Derived.letrecCall entries forms) frame) r.store
          outcome) :=
      on_combination (called.trans ran)
    exact on_derived rfl (Derived.expand_letrec entries forms)
      (on_derived rfl (Derived.expand_scope_of_letrec entries forms) call)

end Evaluator

namespace Strategy

variable (strategy : Strategy) (added : AddedActions) (limit : Nat) (frame : FrameId)
  (store : Store)

theorem on_operands_marks (count : Nat) :
    (strategy.operands ((⟨FormTable.full, strategy, added⟩ : Evaluator).run limit) frame
      (List.replicate count mark)).on store =
        (.ok (strategy.placeholders store frame count).1,
          (strategy.placeholders store frame count).2) ∨
    limit = 0 ∧ (strategy.operands ((⟨FormTable.full, strategy, added⟩ : Evaluator).run limit) frame
      (List.replicate count mark)).on store = (.error .recursion, store) := by
  have ran (limit : Nat) : ((⟨FormTable.full, strategy, added⟩ : Evaluator).run (limit + 1)
      (.evaluate mark frame) :
      Run Value).on store = (.ok .unassigned, store) := Evaluator.run_mark rfl limit frame store
  have evaluated (limit : Nat) :
      (Inner.evaluateAll ((⟨FormTable.full, strategy, added⟩ : Evaluator).run (limit + 1))
      frame (List.replicate count mark) : Run (List Value)).on store =
        (.ok (List.replicate count .unassigned), store) := by
    induction count with
    | zero => rfl
    | succ count ih =>
        simp only [List.replicate_succ, Inner.evaluateAll, Inner.evaluate, Run.on_bind, Run.on_pure,
          ran, ih]
  cases strategy with
  | lazy => exact .inl (on_suspendAll_marks store frame count)
  | _ =>
      cases limit with
      | succ limit => exact .inl (evaluated limit)
      | zero =>
          cases count with
          | zero => exact .inl rfl
          | succ count => exact .inr ⟨rfl, rfl⟩

theorem on_enterScope_marks (entries : List (String × Value)) :
    (strategy.enterScope ((⟨FormTable.full, strategy, added⟩ : Evaluator).run limit) frame
        (entries.map fun entry => (entry.1, mark))).on store =
      (.ok store.frames.size, store.openScope strategy frame (entries.map Prod.fst)) ∨
    limit = 0 ∧ (strategy.enterScope ((⟨FormTable.full, strategy, added⟩ : Evaluator).run limit)
        frame
        (entries.map fun entry => (entry.1, mark))).on store =
          (.error .recursion, store.takeIdentity.2) := by
  have marks : Derived.values (entries.map fun entry => (entry.1, mark)) =
      List.replicate entries.length mark := by
    simp [Derived.values, Function.comp_def]
  have names : Derived.symbols (entries.map fun entry => (entry.1, mark)) =
      (entries.map Prod.fst).map .sym := by
    simp [Derived.symbols]
  have same := (strategy.placeholders_placeholders store.takeIdentity.2 frame
    entries.length).undisturbed.frames
  rw [enterScope, Run.on_bind, marks, names]
  change (strategy.operands _ frame _ >>= fun given => _).on store.takeIdentity.2 = _ ∨
    _ ∧ (strategy.operands _ frame _ >>= fun given => _).on store.takeIdentity.2 = _
  rw [Run.on_bind]
  rcases strategy.on_operands_marks added limit frame store.takeIdentity.2 entries.length with
    passed | ⟨none_, failed⟩
  · rw [passed]
    refine .inl ?_
    simp only [Run.on_make, Store.openScope, List.length_map]
    exact congrArg (fun size => (Except.ok size, _)) (congrArg Array.size same)
  · rw [failed]
    exact .inr ⟨none_, rfl⟩

end Strategy

/-! The values. -/

theorem Evaluator.sequence_shallow (evaluator : Evaluator) (frame : FrameId) {codes : List Value}
    (more : codes ≠ []) : (Inner.sequence (evaluator.run 0) frame codes : Run Value) =
      throw .recursion := by
  cases codes with
  | nil => exact absurd rfl more
  | cons code rest => cases rest <;> rfl

/-- Evaluates the values in the frame, from left to right, and binds each to its name there as soon
as it is there. -/
def initialise (inner : Inner Run) (scope : FrameId) : List (String × Value) → Run Unit
  | [] => return ()
  | (name, code) :: rest => do
      let v ← inner.evaluate code scope
      Run.change fun store => store.bind scope (.sym name) v
      initialise inner scope rest

theorem Inner.sequence_cons {m : Type → Type} [Monad m] (inner : Inner m) (frame : FrameId)
    (code : Value) {codes : List Value} (more : codes ≠ []) :
    inner.sequence frame (code :: codes) = (do
      let _ ← inner.evaluate code frame
      inner.sequence frame codes) := by
  cases codes with
  | nil => exact absurd rfl more
  | cons next rest => rfl

theorem Store.find?_of_binds {store : Store} {frame : FrameId} {name : Value}
    (binds : (store.frame frame).bindings.binds name = true) :
      store.find? frame name = some frame := by
  rw [Store.find?, Store.chain, List.find?_cons, binds]

theorem Evaluator.on_assignments {strategy : Strategy} {added : AddedActions}
    (undisturbing : added.Undisturbing) (limit : Nat) {store : Store} {scope : FrameId}
    (present : scope < store.frames.size) {entries : List (String × Value)} {forms : List Value}
    (nonempty : forms ≠ []) (bound : ∀ entry ∈ entries,
    (store.frame scope).bindings.binds (.sym entry.1) = true) :
    let evaluator : Evaluator := ⟨FormTable.full, strategy, added⟩
    (Inner.sequence (evaluator.run (limit + 1)) scope (Derived.assignments entries ++ forms) :
      Run Value).on store =
      (do
        initialise (evaluator.run (limit - 3)) scope entries
        Inner.sequence (evaluator.run (limit + 1)) scope forms : Run Value).on store := by
  intro evaluator
  induction entries generalizing store with
  | nil => rfl
  | cons entry rest ih =>
      obtain ⟨name, code⟩ := entry
      have more : Derived.assignments rest ++ forms ≠ [] := by simp [nonempty]
      have assigning : (evaluator.run (limit + 1)
          (.evaluate (.list [.sym "set!", .sym name, code]) scope) :
          Run Value) = (do
            let v ← evaluator.run (limit - 3) (.evaluate code scope)
            Scope.assign scope (.sym name) v) := by
        rw [run_form evaluator limit scope "set!" .assign [.sym name, code] rfl, Form.run,
          Form.runAssign, evaluate_above]
        rfl
      have develops : store.Develops ((evaluator.run (limit - 3) (.evaluate code scope) :
          Run Value).on store).2 :=
        run_develops undisturbing present (limit - 3) _
      change (Inner.sequence _ scope (.list [.sym "set!", .sym name, code] ::
        (Derived.assignments rest ++ forms)) :
        Run Value).on store = _
      rw [Inner.sequence_cons _ _ _ more]
      simp only [Inner.evaluate, assigning, initialise, Run.on_bind]
      cases ran : (evaluator.run (limit - 3) (.evaluate code scope) : Run Value).on store with
      | mk outcome after =>
          cases outcome with
          | error failure => rfl
          | ok v =>
              rw [ran] at develops
              -- whatever the value has done, the frame still binds all the names
              have still (entry : String × Value) (member : entry ∈ (name, code) :: rest) :
                  (after.frame scope).bindings.binds (.sym entry.1) = true :=
                develops.binds scope present _ (bound entry member)
              have here := Store.find?_of_binds (still (name, code) List.mem_cons_self)
              have stored := Store.Develops.bind after scope (.sym name) v
              have present' := Nat.lt_of_lt_of_le present develops.size
              have behind := ih (Nat.lt_of_lt_of_le present' stored.size) fun entry member =>
                stored.binds scope present' _ (still entry (.tail _ member))
              have assigned := Scope.on_assign scope name v after
              rw [here] at assigned
              simp only [assigned, Run.on_change]
              rw [behind, Run.on_bind]

/-- In the second store the name has the value in the frame, and all else is as it was. -/
structure Store.Stores (store : Store) (scope : FrameId) (name : String) (v : Value)
    (stored : Store) : Prop where
  given : (stored.frame scope).bindings.find? (.sym name) = some v
  others : ∀ other, other ≠ name →
    (stored.frame scope).bindings.find? (.sym other) = (store.frame scope).bindings.find?
      (.sym other)
  elsewhere : ∀ frame, frame ≠ scope → stored.frame frame = store.frame frame
  rest : { stored with frames := store.frames } = store

theorem Store.stores_bind (store : Store) {scope : FrameId} (present : scope < store.frames.size)
    (name : String) (v : Value) : store.Stores scope name v (store.bind scope (.sym name) v) where
  given := by
    rw [store.frame_bind_self scope (.sym name) v present]
    exact Bindings.find?_put_self _ name v
  others other different := store.bound_bind_of_ne v fun same => different same.2
  elsewhere frame different := store.frame_bind_of_ne scope frame (.sym name) v different
  rest := rfl

theorem on_initialise_append (inner : Inner Run) (scope : FrameId)
    (front behind : List (String × Value)) {store between : Store}
    (early : (initialise inner scope front).on store = (.ok (), between)) :
    (initialise inner scope (front ++ behind)).on store =
      (initialise inner scope behind).on between := by
  induction front generalizing store with
  | nil =>
      cases early
      rfl
  | cons entry rest ih =>
      simp only [initialise, Run.on_bind] at early
      simp only [List.cons_append, initialise, Run.on_bind]
      cases ran : (inner.evaluate entry.2 scope).on store with
      | mk outcome next =>
          rw [ran] at early
          cases outcome with
          | error failure => cases early
          | ok v => exact ih early

theorem Evaluator.initialise_present {strategy : Strategy} {added : AddedActions}
    (undisturbing : added.Undisturbing) (limit : Nat) {scope : FrameId}
    (entries : List (String × Value)) {store after : Store} (present : scope < store.frames.size)
    (ran : (initialise ((⟨FormTable.full, strategy, added⟩ : Evaluator).run limit) scope entries).on
    store =
      (.ok (), after)) : scope < after.frames.size := by
  induction entries generalizing store with
  | nil =>
      cases ran
      exact present
  | cons entry rest ih =>
      let evaluator : Evaluator := ⟨FormTable.full, strategy, added⟩
      have develops : store.Develops ((evaluator.run limit (.evaluate entry.2 scope) : Run Value).on
          store).2 :=
        run_develops undisturbing present limit _
      simp only [initialise, Run.on_bind, Inner.evaluate] at ran
      cases evaluated : (evaluator.run limit (.evaluate entry.2 scope) : Run Value).on store with
      | mk outcome next =>
          rw [evaluated] at ran develops
          cases outcome with
          | error failure => cases ran
          | ok v =>
              have stored := Store.Develops.bind next scope (.sym entry.1) v
              exact ih (Nat.lt_of_lt_of_le present (Nat.le_trans develops.size stored.size)) ran

theorem initialise_fails {inner : Inner Run} {scope : FrameId}
    {front behind : List (String × Value)} {name : String} {code : Value} {failure : Failure}
    {store between after : Store} (early : (initialise inner scope front).on store =
    (.ok (), between))
    (failed : (inner.evaluate code scope).on between = (.error failure, after)) :
    (initialise inner scope (front ++ (name, code) :: behind)).on store =
      (.error failure, after) := by
  rw [on_initialise_append inner scope front _ early]
  simp only [initialise, Run.on_bind, failed]

/-! What is evaluated besides. -/

/-- Names that a frame has bound without values, by what has happened since. Each waits for an
assignment or a definition of it to end, and before that every use that resolves to the frame is
refused. -/
structure NamesWait (scope : FrameId) (names : List String) (newer : List Event) (store : Store) :
    Prop where
  unassigned : ∀ name ∈ names, store.Unassigned scope name ∨
    ∃ event ∈ newer, event.Gives FormTable.full scope name
  refused : ∀ name ∈ names, ∀ later inside before outcome after earlier,
    newer = later ++ .ended (.evaluate (.sym name) inside) before outcome after :: earlier →
      before.find? inside (.sym name) = some scope →
        (∀ event ∈ earlier, ¬ event.Gives FormTable.full scope name) →
        outcome = .error (.unassigned (.sym name)) ∨ outcome = .error .recursion

/-- The recording after tasks that are done one after the other, each under a limit of its own. -/
def Evaluator.afterAll (evaluator : Evaluator) (r : Recording) (tasks : List (Nat × Task)) :
    Recording :=
  tasks.foldl (fun r task => ((evaluator.run task.1 task.2 : Recorded Value).on r).2) r

/-- Tasks one after the other keep a lawful watch. -/
theorem Watch.Lawful.afterAll_sound {w : Watch} {evaluator : Evaluator}
    (lawful : w.Lawful evaluator) {r : Recording} (tasks : List (Nat × Task))
    (ready : ∀ task ∈ tasks, (w.coupling evaluator.forms).ready task.2) (sound : w.sound r) :
    w.sound (evaluator.afterAll r tasks) := by
  induction tasks generalizing r with
  | nil => exact sound
  | cons task rest ih =>
      obtain ⟨outcome, after, ran, _, sound', _⟩ :=
        lawful.run_keeps task.1 task.2 (ready task List.mem_cons_self) r sound
      have behind := ih (fun task member => ready task (.tail _ member)) sound'
      rw [Evaluator.afterAll, List.foldl_cons, ran]
      exact behind

structure LetrecRuns (evaluator : Evaluator) (store : Store) (frame : FrameId)
    (entries : List (String × Value)) (forms : List Value) : Prop where
  opens : store.Opens frame (entries.map Prod.fst)
    (store.openScope evaluator.strategy frame (entries.map Prod.fst))
  runs (limit : Nat) : (evaluator.run (limit + 15)
      (.evaluate (Derived.letrecForm entries forms) frame) : Run Value).on
      store = (do
        initialise (evaluator.run (limit - 3)) store.frames.size entries
        Inner.sequence (evaluator.run (limit + 1)) store.frames.size forms : Run Value).on
          (store.openScope evaluator.strategy frame (entries.map Prod.fst))
  /-- as soon as a value is there, its name has it in the frame, and evaluation goes on from that -/
  stores (limit : Nat) (front behind : List (String × Value)) (name : String) (code v : Value)
    (between after : Store) : entries = front ++ (name, code) :: behind →
      (initialise (evaluator.run (limit - 3)) store.frames.size front).on
        (store.openScope evaluator.strategy frame (entries.map Prod.fst)) = (.ok (), between) →
      (evaluator.run (limit - 3) (.evaluate code store.frames.size) : Run Value).on between =
        (.ok v, after) →
        ∃ stored, after.Stores store.frames.size name v stored ∧
          (evaluator.run (limit + 15) (.evaluate (Derived.letrecForm entries forms) frame) :
            Run Value).on store = (do
            initialise (evaluator.run (limit - 3)) store.frames.size behind
            Inner.sequence (evaluator.run (limit + 1)) store.frames.size forms : Run Value).on
              stored
  fails (limit : Nat) (front behind : List (String × Value)) (name : String) (code : Value)
    (failure : Failure) (between after : Store) : entries = front ++ (name, code) :: behind →
      (initialise (evaluator.run (limit - 3)) store.frames.size front).on
        (store.openScope evaluator.strategy frame (entries.map Prod.fst)) = (.ok (), between) →
      (evaluator.run (limit - 3) (.evaluate code store.frames.size) : Run Value).on between =
        (.error failure, after) →
        (evaluator.run (limit + 15) (.evaluate (Derived.letrecForm entries forms) frame) :
          Run Value).on store =
          (.error failure, after)
  /-- there may not be room for what is done in the frame, or for the frame -/
  shallow (limit : Nat) : limit < 15 → ∃ after,
    (evaluator.run limit (.evaluate (Derived.letrecForm entries forms) frame) : Run Value).on
      store =
      (.error .recursion, after) ∧
      (after = store.openScope evaluator.strategy frame (entries.map Prod.fst) ∨
        after.frames = store.frames)
  /-- from the moment on at which the frame is there, and however evaluation goes on after the form
  -/
  waits (limit : Nat) (r : Recording) : r.store = store → ∃ start : Recording,
    start.store = store.openScope evaluator.strategy frame (entries.map Prod.fst) ∧
      (∃ before, start.events = before ++ r.events ∧ ∀ event ∈ before, event.store.frames =
        store.frames) ∧
      ∀ tasks, ∃ newer,
        (evaluator.afterAll r
          ((limit + 13, .evaluate (Derived.letrecForm entries forms) frame) :: tasks)).events =
            newer ++ start.events ∧
        NamesWait store.frames.size (entries.map Prod.fst) newer
          (evaluator.afterAll r ((limit + 13, .evaluate (Derived.letrecForm entries forms) frame) ::
            tasks)).store

section Letrec

variable {strategy : Strategy} {added : AddedActions} (undisturbing : added.Undisturbing)
  {store : Store}
  {frame : FrameId} {entries : List (String × Value)} (distinct : (entries.map Prod.fst).Nodup)
    {forms : List Value}

include undisturbing distinct

theorem letrec_runs (nonempty : forms ≠ []) (limit : Nat) :
    let evaluator : Evaluator := ⟨FormTable.full, strategy, added⟩
    (evaluator.run (limit + 15) (.evaluate (Derived.letrecForm entries forms) frame) : Run Value).on
      store = (do
      initialise (evaluator.run (limit - 3)) store.frames.size entries
      Inner.sequence (evaluator.run (limit + 1)) store.frames.size forms : Run Value).on
        (store.openScope strategy frame (entries.map Prod.fst)) := by
  intro evaluator
  have opens := store.opens_openScope strategy frame (entries.map Prod.fst)
  have entered := (strategy.on_enterScope_marks added (limit + 3) frame store entries).resolve_right
    nofun
  rw [evaluator.run_letrec (limit + 5) frame rfl rfl rfl entries distinct forms, Run.on_bind]
  rw [show evaluator.strategy.enterScope (evaluator.run (limit + 5 - 2)) frame _ =
    strategy.enterScope (evaluator.run (limit + 3)) frame _ from rfl, entered]
  refine Evaluator.on_assignments undisturbing limit ?_ nonempty fun entry member => ?_
  · rw [opens.size]
    exact Nat.lt_succ_self _
  · exact opens.binds entry.1 (List.mem_map_of_mem member)

omit undisturbing in
theorem letrec_shallow (nonempty : forms ≠ []) {limit : Nat} (small : limit < 15) :
    let evaluator : Evaluator := ⟨FormTable.full, strategy, added⟩
    ∃ after, (evaluator.run limit (.evaluate (Derived.letrecForm entries forms) frame) :
      Run Value).on store =
      (.error .recursion, after) ∧
      (after = store.openScope strategy frame (entries.map Prod.fst) ∨
        after.frames = store.frames) := by
  intro evaluator
  by_cases tiny : limit < 10
  · refine ⟨store, ?_, .inr rfl⟩
    cases limit with
    | zero => rfl
    | succ limit =>
        rw [Derived.letrecForm,
          evaluator.run_derived limit frame "letrec" .letrec _ _ rfl
            (Derived.expand_letrec entries forms),
          Derived.letrecScope_eq, evaluator.run_scope_shallow (limit - 3) frame rfl (by omega)]
        rfl
  · obtain ⟨limit, rfl⟩ : ∃ less, limit = less + 10 := ⟨limit - 10, by omega⟩
    have more : Derived.assignments entries ++ forms ≠ [] := by simp [nonempty]
    have none_ : limit - 4 = 0 := by omega
    rw [evaluator.run_letrec limit frame rfl rfl rfl entries distinct forms, Run.on_bind]
    rcases strategy.on_enterScope_marks added (limit - 2) frame store entries with
      entered | ⟨-, failed⟩
    · rw [show evaluator.strategy.enterScope (evaluator.run (limit - 2)) frame _ =
        strategy.enterScope (evaluator.run (limit - 2)) frame _ from rfl, entered, none_]
      exact ⟨_, congrFun (evaluator.sequence_shallow store.frames.size more) _, .inl rfl⟩
    · rw [failed]
      exact ⟨_, rfl, .inr rfl⟩

theorem letrec_waits (checked : (store.frame frame).checked = true) (limit : Nat) (r : Recording)
    (same : r.store = store) :
    let evaluator : Evaluator := ⟨FormTable.full, strategy, added⟩
    ∃ start : Recording, start.store = store.openScope strategy frame (entries.map Prod.fst) ∧
      (∃ before, start.events = before ++ r.events ∧ ∀ event ∈ before, event.store.frames =
        store.frames) ∧
      ∀ tasks, ∃ newer,
        (evaluator.afterAll r
          ((limit + 13, .evaluate (Derived.letrecForm entries forms) frame) :: tasks)).events =
            newer ++ start.events ∧
        NamesWait store.frames.size (entries.map Prod.fst) newer
          (evaluator.afterAll r ((limit + 13, .evaluate (Derived.letrecForm entries forms) frame) ::
            tasks)).store := by
  intro evaluator
  subst same
  have opens := r.store.opens_openScope strategy frame (entries.map Prod.fst)
  obtain ⟨start, opened, before, whole⟩ := Evaluator.on_letrec strategy added limit frame r distinct
    forms
  refine ⟨start, opened, before, fun tasks => ?_⟩
  let watch := namesWatch evaluator start.store r.store.frames.size (entries.map Prod.fst)
    start.events
  have last : start.store.frames.size = r.store.frames.size + 1 := by rw [opened, opens.size]
  have lawful : watch.Lawful evaluator :=
    namesWatch.lawful undisturbing (last ▸ Nat.lt_succ_self r.store.frames.size) start.events
  have begun : watch.sound start := by
    refine ⟨[], rfl, ⟨.refl start.store, fun name member => .inl ?_⟩, fun later => by simp⟩
    rw [opened]
    exact opens.unassigned name member
  obtain ⟨outcome, s, ran, _, sound, _, _⟩ :=
    lawful.coupling.sequence_holds (lawful.run_keeps (limit - 1))
    (Derived.assignments entries ++ forms) (fun _ _ => trivial) start begun
  -- the call and the two forms around it end, and none of them is a use of a variable
  have called := namesWatch.ending sound (.evaluate (Derived.letrecCall entries forms) frame)
    r.store outcome nofun
  have inside := namesWatch.ending called (.evaluate (Derived.letrecScope entries forms) frame)
    r.store outcome nofun
  have ended := namesWatch.ending inside (.evaluate (Derived.letrecForm entries forms) frame)
    r.store outcome nofun
  have after := lawful.afterAll_sound tasks (fun task _ => by cases task.2 <;> trivial) ended
  rw [Evaluator.afterAll, List.foldl_cons, whole outcome s ran]
  obtain ⟨newer, events, since⟩ := after
  refine ⟨newer, events, since.unassigned,
    fun name member later inside before outcome after earlier split found early => ?_⟩
  refine since.refused rfl last ?_ split member found early
  rw [opened, opens.checked]
  exact checked

end Letrec

/-- A `letrec` makes one frame inside the one that it is evaluated in, which binds its names and
nothing else, all without values. It evaluates the values in that frame, from left to right, binds
each to its name as soon as it is there, and then gives what its body gives in the frame; a failure
of a value is its own. From the moment on at which the frame is there, whatever is evaluated inside
the form or later on, a name has no value until an assignment or a definition of it has ended, and
every use of it before that is refused, wherever it is made. -/
theorem letrec_initialises_in_order (strategy : Strategy) (added : AddedActions)
    (undisturbing : added.Undisturbing) (store : Store) (frame : FrameId)
    (checked : (store.frame frame).checked = true) (entries : List (String × Value))
    (distinct : (entries.map Prod.fst).Nodup) (forms : List Value) (nonempty : forms ≠ []) :
    LetrecRuns ⟨FormTable.full, strategy, added⟩ store frame entries forms where
  opens := store.opens_openScope strategy frame (entries.map Prod.fst)
  runs limit := letrec_runs undisturbing distinct nonempty limit
  stores limit front behind name code v between after split early given := by
    let evaluator : Evaluator := ⟨FormTable.full, strategy, added⟩
    have opened : store.frames.size < (store.openScope strategy frame
        (entries.map Prod.fst)).frames.size := by
      rw [(store.opens_openScope strategy frame (entries.map Prod.fst)).size]
      exact Nat.lt_succ_self _
    -- evaluation only adds frames, so the scope is still there when the value is stored
    have present := Evaluator.initialise_present undisturbing (limit - 3) front opened early
    have develops : between.Develops
        ((evaluator.run (limit - 3) (.evaluate code store.frames.size) : Run Value).on between).2 :=
      Evaluator.run_develops undisturbing present (limit - 3) _
    rw [given] at develops
    have present' := Nat.lt_of_lt_of_le present develops.size
    refine ⟨after.bind store.frames.size (.sym name) v, after.stores_bind present' name v, ?_⟩
    have resumed : (initialise (evaluator.run (limit - 3)) store.frames.size
        (front ++ (name, code) :: behind)).on
        (store.openScope strategy frame (entries.map Prod.fst)) =
          (initialise (evaluator.run (limit - 3)) store.frames.size behind).on
            (after.bind store.frames.size (.sym name) v) := by
      rw [on_initialise_append _ _ front _ early]
      simp only [initialise, Run.on_bind, Inner.evaluate, evaluator, given, Run.on_change]
    rw [← split] at resumed
    rw [letrec_runs undisturbing distinct nonempty limit, Run.on_bind, resumed, Run.on_bind]
  fails limit front behind name code failure between after split early failed := by
    have ended : (initialise ((⟨FormTable.full, strategy, added⟩ : Evaluator).run (limit - 3))
        store.frames.size
        (front ++ (name, code) :: behind)).on
          (store.openScope strategy frame (entries.map Prod.fst)) =
          (.error failure, after) := initialise_fails early failed
    rw [← split] at ended
    rw [letrec_runs undisturbing distinct nonempty limit, Run.on_bind, ended]
  shallow limit small := letrec_shallow distinct nonempty small
  waits limit r same := letrec_waits undisturbing distinct checked limit r same

/-- The first value is that of the second name, by way of a parameter. -/
def earlyUse : List (String × Value) :=
  [("a", .list [.list [.sym "lambda", .list [.sym "x"], .sym "x"], .sym "b"]), ("b", .int 2)]

theorem letrec_initialises_in_order_earlyUse :
    let evaluator : Evaluator := ⟨FormTable.full, .lazy, fun _ _ => return .nil⟩
    ((emptyGlobals true).frame 0).checked = true ∧ (earlyUse.map Prod.fst).Nodup ∧
      [Value.sym "a"] ≠ [] ∧
      ((evaluator.run 40 (.evaluate (Derived.letrecForm earlyUse [.sym "a"]) 0) : Run Value).on
        (emptyGlobals true)).1 = .error (.unassigned (.sym "b")) ∧
      LetrecRuns evaluator (emptyGlobals true) 0 earlyUse [.sym "a"] := by
  have undisturbing : AddedActions.Undisturbing fun _ _ => return .nil :=
    fun _ _ _ => ⟨rfl, fun _ _ found => found⟩
  refine ⟨rfl, by decide, by simp, by cbv, ?_⟩
  exact letrec_initialises_in_order .lazy _ undisturbing (emptyGlobals true) 0 rfl earlyUse
    (by decide) _ (by simp)

end ThunkLisp
