import Mathlib.Data.List.Find
import ThunkLisp.Proofs.Growth
import ThunkLisp.Proofs.RecursionLimit
import ThunkLisp.Proofs.RunRules
import ThunkLisp.Proofs.Watches

/-!
Names without values. A frame may bind a name before there is a value for it: to the mark of
unassigned variables, or to a suspension of the mark. However evaluation goes on, the name stays so
until an assignment to it or a definition of it has ended, and every use of the name before that is
refused, whatever frame it is made from.
-/

namespace ThunkLisp

open Machine (effect)

/-! Stores in which evaluation goes on. -/

/-- The second store may come of the first by evaluation. Frames keep what is around them and the
names that they bind, and a new frame checks for unassigned variables like the one around it. -/
structure Store.Develops (store after : Store) : Prop extends store.Evolves after where
  binds : ∀ frame < store.frames.size, ∀ name,
    (store.frame frame).bindings.binds name = true → (after.frame frame).bindings.binds name = true
  inherits : ∀ frame, store.frames.size ≤ frame → ∀ around < frame, (after.frame frame).outer =
    some around →
    (after.frame frame).checked = (after.frame around).checked

namespace Store.Develops

variable {a b c : Store}

theorem absent_outer {store : Store} {frame : FrameId} (absent : store.frames.size ≤ frame) :
    (store.frame frame).outer = none := by
  simp [Store.frame, Array.getD_eq_getD_getElem?, Array.getElem?_eq_none absent]

theorem of_extendsTo (grows : a.ExtendsTo b) : a.Develops b where
  toEvolves := grows.toEvolves
  binds := grows.binds
  inherits frame new around _ outer := by
    by_cases present : frame < b.frames.size
    · obtain ⟨home, _, inside, checked⟩ := grows.opened frame new present
      rw [inside] at outer
      cases outer
      exact checked
    · rw [absent_outer (Nat.not_lt.mp present)] at outer
      cases outer

theorem of_frames (evolves : a.Evolves b) (frames : b.frames = a.frames) : a.Develops b :=
  of_extendsTo (.of_frames evolves frames)

theorem refl (store : Store) : store.Develops store := of_extendsTo (.refl store)

theorem bind (store : Store) (frame : FrameId) (name v : Value) :
    store.Develops (store.bind frame name v) :=
  of_extendsTo (.bind store frame name v)

theorem addThunk (store : Store) (code : Value) (frame : FrameId) (kept : Bool) :
    store.Develops (store.addThunk code frame kept).2 :=
  of_extendsTo (.addThunk store code frame kept)

theorem trans (first : a.Develops b) (second : b.Develops c) : a.Develops c := by
  refine ⟨first.toEvolves.trans second.toEvolves, fun frame present name bound => ?_,
    fun frame new around less outer => ?_⟩
  · exact second.binds frame (Nat.lt_of_lt_of_le present first.size) name
      (first.binds frame present name bound)
  · by_cases between : frame < b.frames.size
    · rw [second.outer frame between] at outer
      rw [second.checked frame between, second.checked around (Nat.lt_trans less between)]
      exact first.inherits frame new around less outer
    · exact second.inherits frame (Nat.not_lt.mp between) around less outer

theorem extend (store : Store) (home : FrameId) (bindings : Bindings) :
    store.Develops (store.extend home bindings).2 := by
  have old (other : FrameId) (present : other < store.frames.size) :
      (store.extend home bindings).2.frame other = store.frame other :=
    store.frame_addFrame_of_lt bindings (some home) none other present
  refine ⟨.addFrame store bindings (some home) none, fun other present name bound => ?_,
    fun other new around less outer => ?_⟩
  · rw [old other present]
    exact bound
  · rcases Nat.lt_or_eq_of_le new with more | rfl
    · rw [Store.extend, store.frame_addFrame_of_gt bindings (some home) none other more] at outer
      cases outer
    · rw [store.frame_extend_self] at outer ⊢
      cases outer
      rw [old home less]

theorem checked_of_mem_chain {scope frame : FrameId} (develops : a.Develops b)
    (last : a.frames.size = scope + 1) (around : scope ∈ b.chain frame) :
    (b.frame frame).checked = (b.frame scope).checked := by
  -- outwards from the frame: what is not yet at `scope` is a new frame, and checks like the one
  -- around it
  induction frame using Nat.strongRecOn with
  | ind frame ih =>
      rw [Store.chain] at around
      rcases List.mem_cons.mp around with rfl | behind
      · rfl
      · split at behind
        · cases behind
        · next home outer =>
            split at behind
            · next less =>
                have inside := Nat.lt_of_le_of_lt (b.le_of_mem_chain home scope behind) less
                rw [develops.inherits frame (last ▸ inside) home less outer]
                exact ih home less behind
            · cases behind

end Store.Develops

structure Store.Undisturbed (store after : Store) : Prop where
  frames : after.frames = store.frames
  thunks : ∀ (id : ThunkId) suspension, store.thunks[id]? = some suspension →
    after.thunks[id]? = some suspension

theorem Store.Undisturbed.addThunk (store : Store) (code : Value) (frame : FrameId) (kept : Bool) :
    store.Undisturbed (store.addThunk code frame kept).2 := by
  refine ⟨rfl, fun id suspension found => ?_⟩
  obtain ⟨less, _⟩ := Array.getElem?_eq_some_iff.mp found
  simp only [Store.addThunk, Array.getElem?_push]
  rw [if_neg (Nat.ne_of_lt less), found]

namespace Store.Undisturbed

variable {store after : Store} (undisturbed : store.Undisturbed after)

include undisturbed

theorem frame (id : FrameId) : after.frame id = store.frame id := by
  simp [Store.frame, undisturbed.frames]

theorem develops : store.Develops after := by
  refine .of_frames ⟨Nat.le_of_eq (by rw [undisturbed.frames]), fun id _ => ?_, fun id _ => ?_, ?_⟩
    undisturbed.frames
  · rw [undisturbed.frame id]
  · rw [undisturbed.frame id]
  · exact fun id suspension found => ⟨suspension, undisturbed.thunks id suspension found, .inl rfl⟩

end Store.Undisturbed

/-- Primitives leave frames and suspensions alone. -/
def AddedActions.Undisturbing (added : AddedActions) : Prop :=
  ∀ (name : String) (given : List Value) (store : Store),
    store.Undisturbed ((added name given).on store).2

theorem Operation.undisturbed {added : AddedActions} (undisturbing : added.Undisturbing)
    (operation : Operation) (given : List Value) (store : Store) :
    store.Undisturbed ((operation.run added given).on store).2 := by
  rcases operation.added_or_apart added given store with ⟨name, rfl⟩ | ⟨frames, thunks⟩
  · exact undisturbing name given store
  · exact ⟨frames, fun id suspension found => by rw [thunks, found]⟩

/-! Names. -/

/-- The name has no value in the frame: it is bound to the mark, or to a suspension that gives the
mark whenever it is forced. -/
def Store.Unassigned (store : Store) (frame : FrameId) (name : String) : Prop :=
  ∃ v, (store.frame frame).bindings.find? (.sym name) = some v ∧
    (v = .unassigned ∨ ∃ id home, v = .thunk id ∧ store.thunk id = .waiting mark home false)

theorem Store.Unassigned.evolve {store after : Store} {frame : FrameId} {name : String}
    (unassigned : store.Unassigned frame name) (evolves : store.Evolves after)
    (same : (after.frame frame).bindings.find? (.sym name) =
      (store.frame frame).bindings.find? (.sym name)) :
    after.Unassigned frame name := by
  obtain ⟨v, bound, placeholder⟩ := unassigned
  refine ⟨v, same.trans bound, ?_⟩
  rcases placeholder with rfl | ⟨id, home, rfl, waiting⟩
  · exact .inl rfl
  · obtain ⟨new, found, becomes⟩ := evolves.thunks id _ (Store.getElem?_of_waiting waiting)
    rcases becomes with rfl | ⟨kept, _⟩
    · exact .inr ⟨id, home, rfl, Store.thunk_of_getElem? found⟩
    · cases kept

namespace Evaluator

variable {evaluator : Evaluator} {store : Store} {scope inside : FrameId} {name : String}

theorem run_mark (quotes : evaluator.forms.find? "quote" = some .quote) (level : Nat)
    (frame : FrameId) (store : Store) :
    (evaluator.run (level + 1) (.evaluate mark frame) : Run Value).on store =
      (.ok .unassigned, store) := by
  rw [mark, run_form evaluator level frame "quote" .quote _ quotes]
  rfl

theorem run_force_mark (quotes : evaluator.forms.find? "quote" = some .quote) {id : ThunkId}
    {home : FrameId} (waiting : store.thunk id = .waiting mark home false) (level : Nat) :
    (evaluator.run (level + 4) (.force id) : Run Value).on store = (.ok .unassigned, store) := by
  have evaluated : (Inner.evaluate ((evaluator.stack (level + 3)).above 0) mark home : Run Value).on
      store =
      (.ok .unassigned, store) := by
    rw [evaluate_above]
    exact run_mark quotes level home store
  change (Inner.force ((evaluator.stack (level + 3)).above 0) id : Run Value).on store = _
  unfold Inner.force
  simp only [Run.on_bind, Machine.effect, Run.on_read, waiting, evaluated]
  rfl

/-- A use of a name without a value, from a frame that checks for it, is refused and does nothing
else. -/
theorem run_unassigned (quotes : evaluator.forms.find? "quote" = some .quote)
    (resolved : store.find? inside (.sym name) = some scope)
    (checked : (store.frame inside).checked = true) (unassigned : store.Unassigned scope name)
    (level : Nat) :
    (evaluator.run (level + 5) (.evaluate (.sym name) inside) : Run Value).on store =
      (.error (.unassigned (.sym name)), store) := by
  obtain ⟨v, found, placeholder⟩ := unassigned
  have bound : store.bound? inside name = some v :=
    (store.bound?_eq_some inside name v).mpr ⟨scope, resolved, found⟩
  have refused : (Scope.checkAssigned inside (.sym name) .unassigned).on store =
      (.error (.unassigned (.sym name)), store) := by
    rw [Scope.on_checkAssigned_unassigned, checked]
    rfl
  have looked := Scope.on_lookup inside name store
  rw [bound] at looked
  change (evaluateVariable (evaluator.run (level + 4)) name inside : Run Value).on store = _
  simp only [evaluateVariable, Run.on_bind, Machine.effect, looked]
  -- the mark is refused as it is looked up, a suspension of it once it has been forced
  rcases placeholder with rfl | ⟨id, home, rfl, waiting⟩
  · simp only [refused]
  · have passed : (Scope.checkAssigned inside (.sym name) (.thunk id)).on store =
        (.ok (.thunk id), store) :=
      Scope.on_checkAssigned inside (.sym name) (.thunk id) store (by simp)
    simp only [passed, Run.on_bind, run_force_mark quotes waiting level, refused]

theorem run_unassigned_within (quotes : evaluator.forms.find? "quote" = some .quote)
    (resolved : store.find? inside (.sym name) = some scope)
    (checked : (store.frame inside).checked = true) (unassigned : store.Unassigned scope name)
    (level : Nat) :
    ((evaluator.run level (.evaluate (.sym name) inside) : Run Value).on store).1 =
      .error (.unassigned (.sym name)) ∨
      ((evaluator.run level (.evaluate (.sym name) inside) : Run Value).on store).1 =
        .error .recursion := by
  by_cases within : ((evaluator.run level (.evaluate (.sym name) inside) : Run Value).on store).1 =
    .error .recursion
  · exact .inr within
  · obtain ⟨same, _⟩ :=
      evaluator.run_continues level (level + 5) (Nat.le_add_right _ _) _ store within
    rw [run_unassigned quotes resolved checked unassigned level] at same
    exact .inl (by rw [← same])

end Evaluator

/-! Events. -/

/-- The event is the end of an assignment or a definition that has given the name a value in the
frame. -/
def Event.Gives (forms : FormTable) (scope : FrameId) (name : String) : Event → Prop
  | .ended task _ (.ok _) after => task.Stores forms after scope name
  | _ => False

theorem Store.lt_size_of_find? {store : Store} {frame owner : FrameId} {name : Value}
    (found : store.find? frame name = some owner) : frame < store.frames.size := by
  by_contra absent
  have nothing : store.frame frame = {} := by
    simp [Store.frame, Array.getD_eq_getD_getElem?, absent]
  rw [Store.find?, Store.chain, nothing] at found
  simp [nothing, Bindings.binds, Bindings.find?] at found

theorem Store.find?_bind {store : Store} {frame owner : FrameId} {name : String}
    (found : store.find? frame (.sym name) = some owner) (v : Value) :
    (store.bind owner (.sym name) v).find? frame (.sym name) = some owner := by
  have near := store.le_of_mem_chain frame owner (store.find?_mem_chain frame owner _ found)
  have present := Nat.lt_of_le_of_lt near (Store.lt_size_of_find? found)
  have chain := (Store.Evolves.bind store owner (.sym name) v).chain frame
    (Store.lt_size_of_find? found)
  rw [Store.find?, chain, ← found, Store.find?]
  refine List.find?_congr fun id _ => ?_
  by_cases here : id = owner
  · subst here
    have owned := store.find?_binds frame id (.sym name) found
    rw [store.frame_bind_self id (.sym name) v present, owned]
    exact Bindings.binds_put_of_binds _ _ _ v owned
  · rw [store.frame_bind_of_ne owner id (.sym name) v here]

theorem Store.bound_bind_of_ne (store : Store) {owner scope : FrameId} {name other : String}
    (v : Value) (different : ¬ (owner = scope ∧ other = name)) :
    ((store.bind owner (.sym name) v).frame scope).bindings.find? (.sym other) =
      (store.frame scope).bindings.find? (.sym other) := by
  by_cases here : scope = owner
  · subst here
    by_cases present : scope < store.frames.size
    · rw [store.frame_bind_self scope (.sym name) v present]
      exact Bindings.find?_put_of_ne _ name other v fun same => different ⟨rfl, same⟩
    · simp [Store.frame, Store.bind, Array.getD_eq_getD_getElem?, present]
  · rw [store.frame_bind_of_ne owner scope (.sym name) v here]

namespace Task.Stores

variable {forms : FormTable} {store : Store} {owner : FrameId} {name : String} {task : Task}

theorem bind (stores : task.Stores forms store owner name) (v : Value) :
    task.Stores forms (store.bind owner (.sym name) v) owner name := by
  rcases stores with ⟨frame, assigns, found⟩ | defines
  · exact .inl ⟨frame, assigns, Store.find?_bind found v⟩
  · exact .inr defines

theorem not_variable (stores : task.Stores forms store owner name) (other : String)
    (inside : FrameId) :
    task ≠ .evaluate (.sym other) inside := by
  rintro rfl
  rcases stores with ⟨_, assigns, _⟩ | defines
  · cases assigns
  · cases defines

end Task.Stores

/-! Names that wait for their values while evaluation goes on. -/

section Waiting

variable (evaluator : Evaluator) (base : Store) (scope : FrameId) (names : List String)

/-- Each of the names has no value in the frame, or one that an event since the first store has
given it. -/
structure Waiting (newer : List Event) (store : Store) : Prop where
  develops : base.Develops store
  unassigned : ∀ name ∈ names, store.Unassigned scope name ∨
    ∃ event ∈ newer, event.Gives evaluator.forms scope name

/-- This has been so at each use of a variable. -/
structure WaitingSince (newer : List Event) (store : Store) : Prop extends
    Waiting evaluator base scope names newer store where
  uses : ∀ later name inside before outcome after earlier,
    newer = later ++ .ended (.evaluate (.sym name) inside) before outcome after :: earlier →
      Waiting evaluator base scope names earlier before ∧
        ∃ level, (evaluator.run level (.evaluate (.sym name) inside) : Run Value).on before =
          (outcome, after)

def namesWatch (past : List Event) : Watch where
  sound r := ∃ newer, r.events = newer ++ past ∧ WaitingSince evaluator base scope names newer
    r.store
  later r s := r.store.Develops s.store ∧ ∃ newer, s.events = newer ++ r.events
  code _ := True
  value _ := True
  fails _ := True

end Waiting

variable {evaluator : Evaluator} {base store after : Store} {scope : FrameId} {names : List String}
  {newer past : List Event} {r : Recording}

theorem Waiting.more (waiting : Waiting evaluator base scope names newer store)
    (newest : List Event) :
    Waiting evaluator base scope names (newest ++ newer) store := by
  refine ⟨waiting.develops, fun name member => ?_⟩
  rcases waiting.unassigned name member with still | ⟨event, among, gives⟩
  · exact .inl still
  · exact .inr ⟨event, List.mem_append_right newest among, gives⟩

theorem Waiting.step (waiting : Waiting evaluator base scope names newer store)
    (develops : store.Develops after) (same : (after.frame scope).bindings =
    (store.frame scope).bindings) :
    Waiting evaluator base scope names newer after := by
  refine ⟨waiting.develops.trans develops, fun name member => ?_⟩
  refine (waiting.unassigned name member).imp_left fun still => ?_
  exact still.evolve develops.toEvolves (by rw [same])

theorem Waiting.bind (waiting : Waiting evaluator base scope names newer store) (owner : FrameId)
    (name : String) (v : Value) {event : Event} (gives : event.Gives evaluator.forms owner name) :
    Waiting evaluator base scope names (event :: newer) (store.bind owner (.sym name) v) := by
  have develops := Store.Develops.bind store owner (.sym name) v
  refine ⟨waiting.develops.trans develops, fun other member => ?_⟩
  -- this name of this frame has its event now, and every other binding is as it was
  by_cases given : owner = scope ∧ other = name
  · obtain ⟨rfl, rfl⟩ := given
    exact .inr ⟨event, List.mem_cons_self, gives⟩
  · rcases waiting.unassigned other member with still | ⟨older, among, gives⟩
    · exact .inl (still.evolve develops.toEvolves (store.bound_bind_of_ne v given))
    · exact .inr ⟨older, .tail _ among, gives⟩

namespace WaitingSince

theorem note (since : WaitingSince evaluator base scope names newer store) (event : Event)
    (use : ∀ name inside before outcome after, event = .ended (.evaluate (.sym name) inside) before
      outcome after →
      Waiting evaluator base scope names newer before ∧
        ∃ level, (evaluator.run level (.evaluate (.sym name) inside) : Run Value).on before =
          (outcome, after)) :
    WaitingSince evaluator base scope names (event :: newer) store := by
  refine ⟨since.toWaiting.more [event], fun later name inside before outcome after earlier split =>
    ?_⟩
  cases later with
  | nil =>
      obtain ⟨rfl, rfl⟩ := List.cons.inj split
      exact use name inside before outcome after rfl
  | cons newest later =>
      exact since.uses later name inside before outcome after earlier (List.cons.inj split).2

theorem refused (since : WaitingSince evaluator base scope names newer store)
    (quotes : evaluator.forms.find? "quote" = some .quote) (last : base.frames.size = scope + 1)
    (checked : (base.frame scope).checked = true) {later earlier : List Event} {name : String}
    {inside : FrameId} {before after : Store} {outcome : Except Failure Value}
    (split : newer = later ++ .ended (.evaluate (.sym name) inside) before outcome after :: earlier)
    (member : name ∈ names) (resolved : before.find? inside (.sym name) = some scope)
    (early : ∀ event ∈ earlier, ¬ event.Gives evaluator.forms scope name) :
    outcome = .error (.unassigned (.sym name)) ∨ outcome = .error .recursion := by
  obtain ⟨waiting, level, ran⟩ := since.uses later name inside before outcome after earlier split
  have unassigned := (waiting.unassigned name member).resolve_right fun ⟨event, among, gives⟩ =>
    early event among gives
  -- the frame of the use is inside `scope`, so it checks for names without values too
  have around := before.find?_mem_chain inside scope (.sym name) resolved
  have check : (before.frame inside).checked = true := by
    rw [waiting.develops.checked_of_mem_chain last around,
      waiting.develops.checked scope (last ▸ Nat.lt_succ_self scope)]
    exact checked
  have refused := Evaluator.run_unassigned_within quotes resolved check unassigned level
  rw [ran] at refused
  exact refused

end WaitingSince

namespace namesWatch

theorem moves (sound : (namesWatch evaluator base scope names past).sound r)
    (develops : r.store.Develops after) (same : (after.frame scope).bindings =
    (r.store.frame scope).bindings) :
    (namesWatch evaluator base scope names past).Moves r after := by
  obtain ⟨newer, events, since⟩ := sound
  refine ⟨⟨newer, events, since.toWaiting.step develops same, since.uses⟩, develops, [], rfl⟩

theorem answers {α : Type} {post : α → Prop} (outcome : Except Failure α) (always : ∀ v, post v) :
    (namesWatch evaluator base scope names past).Answers post outcome := by
  cases outcome with
  | ok v => exact always v
  | error failure => trivial

theorem ended {task : Task} {s : Recording}
    (before : (namesWatch evaluator base scope names past).sound r)
    (later : (namesWatch evaluator base scope names past).later (r.beginning task) s)
    (sound : (namesWatch evaluator base scope names past).sound s) :
    ∃ newer, s.events = newer ++ past ∧ WaitingSince evaluator base scope names newer s.store ∧
      Waiting evaluator base scope names newer r.store := by
  obtain ⟨newer, events, since⟩ := sound
  obtain ⟨older, events', since'⟩ := before
  obtain ⟨_, between, events''⟩ := later
  -- what had happened when the task began is the end of what has happened now
  have split : newer = (between ++ [.began task r.store]) ++ older := by
    have whole : newer ++ past = (between ++ [.began task r.store]) ++ older ++ past := by
      rw [← events, events'']
      simp [Recording.beginning, Recording.note, events']
    exact List.append_cancel_right whole
  exact ⟨newer, events, since, split ▸ since'.toWaiting.more _⟩

theorem lawful (undisturbing : evaluator.added.Undisturbing) (present : scope < base.frames.size)
    (past : List Event) : (namesWatch evaluator base scope names past).Lawful evaluator where
  toCodeLaws := .all _
  refl r := ⟨.refl r.store, [], rfl⟩
  trans r s t first second := by
    obtain ⟨develops, newer, events⟩ := first
    obtain ⟨develops', newest, events'⟩ := second
    exact ⟨develops.trans develops', newest ++ newer, by rw [events', events, List.append_assoc]⟩
  thunk _ := trivial
  bound _ _ _ _ _ _ := trivial
  waiting _ _ _ _ _ _ _ := trivial
  settled _ _ _ _ _ := trivial
  numbers r sound := moves sound (.of_frames (.of_same rfl rfl) rfl) rfl
  suspends r code frame kept sound _ := moves sound (.addThunk r.store code frame kept) rfl
  extends_ r home bindings sound _ := by
    have still : scope < r.store.frames.size := by
      obtain ⟨newer, _, since⟩ := sound
      exact Nat.lt_of_lt_of_le present since.develops.size
    have same := r.store.frame_addFrame_of_lt bindings (some home) none scope still
    exact moves sound (.extend r.store home bindings) (by rw [Store.extend, same])
  settles r s id code frame v waiting later sound _ := by
    obtain ⟨now, found, becomes⟩ := later.1.thunks id _ (Store.getElem?_of_waiting waiting)
    have kept : now.isKept = true := by
      rcases becomes with rfl | ⟨_, w, rfl⟩
      · rfl
      · rfl
    exact moves sound (.of_frames (.settle s.store id v now found kept) rfl) rfl
  performs r p given sound _ _ := by
    have undisturbed := p.operation.undisturbed undisturbing given r.store
    obtain ⟨newer, events, since⟩ := sound
    have noted := since.note (.applied p given r.store) (by rintro _ _ _ _ _ ⟨⟩)
    have same := congrArg Frame.bindings (undisturbed.frame scope)
    refine Watch.keeps_primitive (Prod.eta _).symm ⟨.applied p given r.store :: newer, ?_, ?_,
      noted.uses⟩ ?_
      (answers _ fun _ => trivial)
    · simp [Recording.applying, Recording.note, events]
    · exact noted.toWaiting.step undisturbed.develops same
    · exact ⟨undisturbed.develops, [.applied p given r.store], rfl⟩
  begins r task sound _ := by
    obtain ⟨newer, events, since⟩ := sound
    have noted := since.note (.began task r.store) (by rintro _ _ _ _ _ ⟨⟩)
    refine ⟨⟨.began task r.store :: newer, ?_, noted⟩, .refl r.store, [.began task r.store], rfl⟩
    simp [Recording.beginning, Recording.note, events]
  -- a use of a name is remembered with the store that it began in, and with its run
  ends limit task r s outcome before later sound ran _ := by
    have since := ended before later sound
    obtain ⟨newer, events, kept, waited⟩ := since
    have noted := kept.note (.ended task r.store outcome s.store)
        fun name inside before found after same => by
      cases same
      exact ⟨waited, limit, ran⟩
    refine ⟨⟨.ended task r.store outcome s.store :: newer, ?_, noted⟩, .refl s.store, [_], rfl⟩
    simp [Recording.ending, Recording.note, events]
  stores limit task r s owner name v before later sound ran _ stores := by
    obtain ⟨newer, events, since⟩ := sound
    let event := Event.ended task r.store (.ok (.sym name)) (s.store.bind owner (.sym name) v)
    have gives : event.Gives evaluator.forms owner name := stores.bind v
    have bound := since.toWaiting.bind owner name v gives
    have noted := since.note event fun other inside before found after same =>
      absurd (Event.ended.inj same).1 (stores.not_variable other inside)
    refine ⟨⟨event :: newer, ?_, bound, noted.uses⟩, .bind s.store owner (.sym name) v, [event],
      rfl⟩
    simp [event, Recording.ending, Recording.note, events]

theorem ending (sound : (namesWatch evaluator base scope names past).sound r) (task : Task)
    (before : Store) (outcome : Except Failure Value)
    (other : ∀ name inside, task ≠ .evaluate (.sym name) inside) :
    (namesWatch evaluator base scope names past).sound (r.ending task before outcome) := by
  obtain ⟨newer, events, since⟩ := sound
  have noted := since.note (.ended task before outcome r.store) fun name inside _ _ _ same =>
    absurd (Event.ended.inj same).1 (other name inside)
  exact ⟨_ :: newer, by simp [Recording.ending, Recording.note, events], noted⟩

end namesWatch

theorem Evaluator.run_develops (undisturbing : evaluator.added.Undisturbing)
    (present : scope < store.frames.size) (limit : Nat) (task : Task) :
    store.Develops ((evaluator.run limit task : Run Value).on store).2 := by
  have lawful : (namesWatch evaluator store scope [] []).Lawful evaluator :=
    namesWatch.lawful undisturbing present []
  have ready : ((namesWatch evaluator store scope [] []).coupling evaluator.forms).ready task := by
    cases task <;> trivial
  have sound : (namesWatch evaluator store scope [] []).sound ⟨store, []⟩ :=
    ⟨[], rfl, ⟨.refl store, nofun⟩, fun later => by simp⟩
  obtain ⟨outcome, after, _, ran, _, later, _⟩ :=
    lawful.run_keeps limit task ready ⟨store, []⟩ sound
  rw [ran]
  exact later.1

end ThunkLisp
