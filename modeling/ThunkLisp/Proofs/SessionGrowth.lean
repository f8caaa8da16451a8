import Mathlib
import ThunkLisp.Proofs.Reach
import ThunkLisp.Proofs.SoundRuns

/-!
The store of a session only grows. Whatever a session is asked for, every moment of it has the
frames of the moments before, with the names they had bound; the frames stand inside each other down
to the global frame, and all check for unassigned variables as that one does.
-/

namespace ThunkLisp

open Machine (effect)
open Value (Every)

/-- The stores of a recording, the newest first: the present one, and that of every event. -/
def Recording.moments (r : Recording) : List Store := r.store :: r.events.map Event.store

theorem Recording.Grows.moments {r s : Recording} (grows : r.Grows s) :
    ∃ newer, s.moments = newer ++ r.events.map Event.store ∧
      (∀ store ∈ newer, r.store.ExtendsTo store) ∧
      newer.Pairwise fun later earlier => earlier.ExtendsTo later := by
  obtain ⟨newer, split, around, inside⟩ := grows.events
  refine ⟨s.store :: newer.map Event.store, by simp [Recording.moments, split], ?_, ?_⟩
  · intro store member
    rcases List.mem_cons.mp member with rfl | member
    · exact grows.store
    · obtain ⟨event, among, rfl⟩ := List.mem_map.mp member
      exact (around event among).1
  · apply List.pairwise_cons.mpr
    constructor
    · intro store member
      obtain ⟨event, among, rfl⟩ := List.mem_map.mp member
      exact (around event among).2
    · exact List.pairwise_map.mpr inside

/-- Whatever the frames and suspensions of the store refer to is in the store. -/
def Store.Grounded (store : Store) : Prop := ∀ near, store.Has near →
    ∀ ref ∈ store.refs near, store.Has ref

/-- A program that embeds the evaluator supplies values that refer to no frame and no suspension,
and primitives that are tame. -/
structure Setup.Detached (setup : Setup) : Prop where
  supplies : ∀ name v, (name, .value v) ∈ setup.supplies → ∀ ref ∈ v.refs, ({} : Store).Has ref
  added : ∀ name, Tame (setup.added name)

/-- The recordings of a session: from its start on, texts are evaluated, also code in any frame that
is there and names are bound to values. Code and values from outside may refer to what is there. -/
inductive Setup.Reached (setup : Setup) (session : Session) : Recording → Prop where
  | started {r : Recording} (starts : (Session.start setup : Recorded Session).on {} =
      (.ok session, r)) :
      Reached setup session r
  | text {r : Recording} (reached : Reached setup session r) (limit : Nat) (source : String) :
      Reached setup session ((session.evaluateTextWithin limit source : Recorded Value).on r).2
  | code {r : Recording} (reached : Reached setup session r) (limit : Nat) (code : Value)
      (frame : FrameId)
      (known : ∀ ref ∈ .frame frame :: code.refs, r.store.Has ref) :
      Reached setup session ((session.evaluator.run limit (.evaluate code frame) :
        Recorded Value).on r).2
  | bound {r : Recording} (reached : Reached setup session r) (name v : Value)
      (known : ∀ ref ∈ v.refs, r.store.Has ref) :
      Reached setup session ⟨((session.define name v).on r.store).2, r.events⟩

namespace Realm

def whole (store : Store) : Realm := ⟨store, store.Has, fun _ has => has⟩

variable {store after : Store} {r : Recording}

theorem sound_whole (grounded : store.Grounded) : (whole store).Sound store :=
  (whole store).sound_base grounded

theorem holds_whole_of_has {ref : Ref} (has : after.Has ref) : (whole store).Holds after ref := by
  by_cases old : store.Has ref
  · exact .inl old
  · exact .inr ⟨old, has⟩

theorem grounded_of_sound (sound : (whole store).Sound after) : after.Grounded := by
  intro near has ref member
  have start : ∀ root ∈ [near], (whole store).Holds after root := by
    intro root inside
    obtain rfl := List.mem_singleton.mp inside
    exact holds_whole_of_has has
  exact sound.has_of_holds (holds_of_reachable sound start
    (.next (.root List.mem_cons_self) member))

theorem refs_of_isReadable {leaf : Value} (readable : leaf.isReadable = true) : leaf.refs = [] := by
  cases leaf <;> first | rfl | cases readable

theorem open_ (realm : Realm) : realm.discipline.Open :=
  ⟨fun _ readable => written_of_refs_nil (refs_of_isReadable readable), fun _ _ _ => trivial⟩

/-! Supplies. -/

theorem on_newPrimitive (name action : String) (store : Store) :
    (newPrimitive name action).on store =
      (.ok (.primitive ⟨if name.isEmpty then action else name, .added action, store.fresh⟩),
        { store with fresh := store.fresh + 1 }) := rfl

theorem newPrimitive_keeps (realm : Realm) (name action : String) (sound : realm.Sound r.store)
    (within : realm.within (.action action)) :
    realm.discipline.KeepsEffect (newPrimitive name action) r fun v s =>
      Every (realm.Leaf s.store) v := by
  apply keeps_effect (on_newPrimitive name action r.store) (sound.of_same rfl rfl)
    (.of_frames (.of_same rfl rfl) rfl)
  intro v same
  cases same
  apply (Value.every_of_flat rfl).mpr
  intro ref member
  obtain rfl := List.mem_singleton.mp member
  exact holds_of_within within

theorem suppliedBindings_keeps (realm : Realm) (actions : ∀ name, realm.within (.action name))
    (supplies : List (Value × Supply)) (sound : realm.Sound r.store)
    (values : ∀ name v, (name, .value v) ∈ supplies → realm.Written v) :
    realm.discipline.KeepsEffect (suppliedBindings supplies) r
      fun bindings s => ∀ entry ∈ bindings, Every (realm.Leaf s.store) entry.2 := by
  induction supplies generalizing r with
  | nil => exact Discipline.keeps_pure sound (by simp)
  | cons supply rest ih =>
      rcases supply with ⟨name, value | action⟩
      · have written := values name value List.mem_cons_self
        refine Discipline.KeepsEffect.bind
          (ih sound fun name v member => values name v (.tail _ member))
            fun bindings s sound' _ behind => ?_
        apply Discipline.keeps_pure sound'
        intro entry member
        rcases List.mem_cons.mp member with rfl | member
        · exact ((Value.every_refs_iff realm.within value).mpr written).imp leaf_of_written
        · exact behind entry member
      · have text : realm.discipline.KeepsEffect (Run.text fun store => store.displayed? name) r
            fun _ _ => True :=
          keeps_effect (Run.on_text _ r.store) sound (.refl _) fun _ _ => trivial
        refine Discipline.KeepsEffect.bind text fun found s sound₁ _ _ => ?_
        have making := newPrimitive_keeps realm found action sound₁ (actions action)
        refine Discipline.KeepsEffect.bind making fun primitive t sound₂ _ value => ?_
        refine Discipline.KeepsEffect.bind
          (ih sound₂ fun name v member => values name v (.tail _ member))
            fun bindings u sound₃ later behind => ?_
        apply Discipline.keeps_pure sound₃
        intro entry member
        rcases List.mem_cons.mp member with rfl | member
        · exact value_grow later.store.toEvolves value
        · exact behind entry member

theorem define_keeps (realm : Realm) (frame : FrameId) (name v : Value)
    (sound : realm.Sound r.store) (held : realm.Holds r.store (.frame frame))
    (value : Every (realm.Leaf r.store) v) :
    realm.discipline.KeepsEffect (Scope.define frame name v) r fun w s =>
      Every (realm.Leaf s.store) w := by
  cases symbol : name.isSymbol with
  | true =>
      cases name with
      | sym name => exact bind_keeps sound frame name v held value (Scope.on_define frame name v
          r.store)
      | _ => cases symbol
  | false =>
      have ran : (Scope.define frame name v).on r.store =
          (.error (.malformed (.notASymbol name)), r.store) := by
        simp only [Scope.define, symbol, Bool.false_eq_true, ↓reduceIte, Run.on_throw]
      exact keeps_failure ran sound

theorem defineAll_keeps (realm : Realm) (frame : FrameId) (bindings : Bindings)
    (sound : realm.Sound r.store) (held : realm.Holds r.store (.frame frame))
    (values : ∀ entry ∈ bindings, Every (realm.Leaf r.store) entry.2) :
    realm.discipline.KeepsEffect (Scope.defineAll frame bindings) r fun _ _ => True := by
  induction bindings generalizing r with
  | nil => exact Discipline.keeps_pure sound trivial
  | cons entry rest ih =>
      have defining := define_keeps realm frame entry.1 entry.2 sound held
        (values entry List.mem_cons_self)
      refine Discipline.KeepsEffect.bind defining fun _ s sound' later _ => ?_
      exact ih sound' (held.grow later.store.toEvolves) fun found member =>
        value_grow later.store.toEvolves (values found (.tail _ member))

end Realm

/-! Steps of a session. -/

/-- The store with the global frame alone, before anything is bound there. -/
def emptyGlobals (checked : Bool) : Store := (({} : Store).addFrame [] none (some checked)).2

theorem emptyGlobals_grounded (checked : Bool) : (emptyGlobals checked).Grounded := by
  intro near has ref member
  cases near with
  | frame id =>
      obtain rfl : id = 0 := Nat.lt_one_iff.mp has
      cases member
  | thunk id => exact absurd has (Nat.not_lt_zero id)
  | action name => cases member

theorem emptyGlobals_wellFormed (checked : Bool) : (emptyGlobals checked).WellFormed 0 := by
  have outer : ∀ frame around, ((emptyGlobals checked).frame frame).outer = some around →
      around < frame := by
    intro frame around found
    cases frame with
    | zero => cases found
    | succ frame => simp [emptyGlobals, Store.addFrame, Store.frame,
        Array.getD_eq_getD_getElem?] at found
  constructor
  · exact outer
  · intro frame present
    obtain rfl : frame = 0 := Nat.lt_one_iff.mp present
    rfl

structure Session.Steady (session : Session) (r : Recording) : Prop where
  grounded : r.store.Grounded
  globals : session.globals < r.store.frames.size
  grows : r.moments.Pairwise fun later earlier => earlier.ExtendsTo later
  formed : ∀ store ∈ r.moments, store.WellFormed session.globals

namespace Session.Steady

variable {session : Session} {r s : Recording}

theorem emptyGlobals (evaluator : Evaluator) (checked : Bool) :
    Session.Steady ⟨evaluator, 0⟩ ⟨emptyGlobals checked, []⟩ := by
  constructor
  · exact emptyGlobals_grounded checked
  · exact Nat.zero_lt_one
  · exact List.pairwise_singleton _ _
  · intro store member
    obtain rfl := List.mem_singleton.mp member
    exact emptyGlobals_wellFormed checked

theorem grow (steady : session.Steady r) (grows : r.Grows s) (grounded : s.store.Grounded) :
    session.Steady s := by
  obtain ⟨newer, split, since, inside⟩ := grows.moments
  obtain ⟨past, before⟩ := List.pairwise_cons.mp steady.grows
  have present := steady.formed r.store List.mem_cons_self
  constructor
  · exact grounded
  · exact Nat.lt_of_lt_of_le steady.globals grows.store.size
  · rw [split]
    apply List.pairwise_append.mpr
    -- what is older than the first recording leads to its store, and from there to whatever is
    -- newer
    exact ⟨inside, before, fun late member early member' =>
      (past early member').trans (since late member)⟩
  · intro store member
    rw [split] at member
    rcases List.mem_append.mp member with late | early
    · exact present.extendsTo steady.globals (since store late)
    · exact steady.formed store (.tail _ early)

theorem of_keeps {α : Type} {x : Recorded α} {y : Run α} {post : α → Recording → Prop}
    (steady : session.Steady r) (keeps : (Realm.whole r.store).discipline.Keeps x y r post) :
    session.Steady (x.on r).2 := by
  obtain ⟨outcome, after, ran, _, _, sound, later, _⟩ := keeps
  rw [ran]
  exact steady.grow later (Realm.grounded_of_sound sound)

end Session.Steady

/-! From the start on. -/

def fillGlobals (supplies : List (Value × Supply)) : Run FrameId := do
  let bindings ← suppliedBindings supplies
  Scope.defineAll 0 bindings
  return 0

theorem makeGlobals_on_nothing (supplies : List (Value × Supply)) (checked : Bool) :
    (makeGlobals supplies checked).on {} = (fillGlobals supplies).on (emptyGlobals checked) := rfl

theorem Session.start_eq_ok {setup : Setup} {session : Session} {r : Recording}
    (starts : (Session.start setup : Recorded Session).on {} = (.ok session, r)) :
    ∃ strategy checked globals filled,
      (effect (makeGlobals setup.supplies checked) : Recorded FrameId).on {} =
        (.ok globals, filled) ∧
      session = ⟨Discipline.evaluator setup.added strategy, globals⟩ ∧
      r = ((session.evaluateTextWithin setup.limit setup.prelude : Recorded Value).on
        filled).2 := by
  simp only [Session.start, Recorded.on_bind, Recorded.on_effect, Run.on_ofExcept] at starts
  cases chosen : setup.strategy with
  | error failure => simp [chosen] at starts
  | ok strategy =>
      cases decided : setup.checked with
      | error failure => simp [chosen, decided] at starts
      | ok checked =>
          simp only [chosen, decided] at starts
          cases made : (makeGlobals setup.supplies checked).on {} with
          | mk outcome store =>
              cases outcome with
              | error failure => simp [made] at starts
              | ok globals =>
                  simp only [made] at starts
                  split at starts
                  · next value after ran =>
                      cases starts
                      exact ⟨strategy, checked, globals, ⟨store, []⟩, by
                        rw [Recorded.on_effect, made], rfl, (congrArg Prod.snd ran).symm⟩
                  · cases starts

section Requests

variable {setup : Setup} (detached : setup.Detached) {session : Session} {r : Recording}

include detached

theorem fillGlobals_keeps (checked : Bool) :
    (Realm.whole (emptyGlobals checked)).discipline.KeepsEffect (fillGlobals setup.supplies)
      ⟨emptyGlobals checked, []⟩ fun globals _ => globals = 0 := by
  have sound := Realm.sound_whole (emptyGlobals_grounded checked)
  have supplying := (Realm.whole (emptyGlobals checked)).suppliedBindings_keeps
    (r := ⟨emptyGlobals checked, []⟩) (fun _ => trivial) setup.supplies sound
    fun name v member ref inside => by
      -- what no store has to have is an action
      have has := detached.supplies name v member ref inside
      cases ref with
      | frame id => exact absurd has (Nat.not_lt_zero id)
      | thunk id => exact absurd has (Nat.not_lt_zero id)
      | action name => trivial
  refine Discipline.KeepsEffect.bind supplying fun bindings s sound' later values => ?_
  have globals : (Realm.whole (emptyGlobals checked)).Holds s.store (.frame 0) :=
    .inl (Nat.zero_lt_one)
  refine Discipline.KeepsEffect.bind (Realm.defineAll_keeps _ 0 bindings sound' globals values)
    fun _ t sound'' _ _ => ?_
  exact Discipline.keeps_pure sound'' rfl

theorem Session.Steady.text {strategy : Strategy}
    (same : session.evaluator = Discipline.evaluator setup.added strategy)
    (steady : session.Steady r) (limit : Nat) (source : String) :
    session.Steady ((session.evaluateTextWithin limit source : Recorded Value).on r).2 := by
  obtain ⟨evaluator, globals⟩ := session
  obtain rfl : evaluator = _ := same
  have lawful := (Realm.whole r.store).lawful setup.added strategy fun name _ => detached.added name
  exact steady.of_keeps (Discipline.evaluateText_keeps lawful (Realm.open_ _) limit globals source
    (Realm.sound_whole steady.grounded) (.inl steady.globals))

theorem Session.Steady.started (starts : (Session.start setup : Recorded Session).on {} =
    (.ok session, r)) :
    (∃ strategy, session.evaluator = Discipline.evaluator setup.added strategy) ∧
      session.Steady r := by
  obtain ⟨strategy, checked, globals, filled, made, rfl, rfl⟩ := Session.start_eq_ok starts
  have filling := fillGlobals_keeps detached checked
  have steady := (Session.Steady.emptyGlobals (Discipline.evaluator setup.added strategy)
    checked).of_keeps filling
  obtain ⟨outcome, after, ran, _, _, _, _, answer⟩ := filling
  rw [ran] at steady
  rw [Recorded.on_effect, makeGlobals_on_nothing] at made
  rw [Recorded.on_effect, made] at ran
  cases ran
  obtain rfl : globals = 0 := answer
  exact ⟨⟨strategy, rfl⟩, steady.text detached rfl setup.limit setup.prelude⟩

theorem run_whole_keeps (strategy : Strategy) (limit : Nat) (code : Value) (frame : FrameId)
    (grounded : r.store.Grounded) (known : ∀ ref ∈ .frame frame :: code.refs, r.store.Has ref) :
    (Realm.whole r.store).discipline.Keeps
      ((Discipline.evaluator setup.added strategy).run limit (.evaluate code frame))
      ((Discipline.evaluator setup.added strategy).run limit (.evaluate code frame)) r
      fun v s => (Realm.whole r.store).discipline.value s v := by
  have lawful := (Realm.whole r.store).lawful setup.added strategy fun name _ => detached.added name
  have written : (Realm.whole r.store).Written code := fun ref member => known ref (.tail _ member)
  exact Discipline.run_code_keeps lawful limit code (Realm.sound_whole grounded)
    (.inl (known _ List.mem_cons_self)) ((Realm.code_iff r frame code).mpr written)

theorem steady_of_reached (reached : setup.Reached session r) :
    (∃ strategy, session.evaluator = Discipline.evaluator setup.added strategy) ∧
      session.Steady r := by
  induction reached with
  | started starts => exact Session.Steady.started detached starts
  | text _ limit source ih =>
      obtain ⟨⟨strategy, same⟩, steady⟩ := ih
      exact ⟨⟨strategy, same⟩, steady.text detached same limit source⟩
  | @code r _ limit code frame known ih =>
      obtain ⟨⟨strategy, same⟩, steady⟩ := ih
      have kept := run_whole_keeps detached strategy limit code frame steady.grounded known
      rw [← same] at kept
      exact ⟨⟨strategy, same⟩, steady.of_keeps kept⟩
  | @bound r _ name v known ih =>
      obtain ⟨served, steady⟩ := ih
      have written : Every (Realm.whole r.store).Written v := (Value.every_refs_iff _ v).mpr known
      have value : Every ((Realm.whole r.store).Leaf r.store) v := written.imp Realm.leaf_of_written
      have kept := (Realm.whole r.store).define_keeps session.globals name v
        (Realm.sound_whole steady.grounded) (.inl steady.globals) value
      exact ⟨served, steady.of_keeps kept⟩

end Requests

/-- In a session, whatever it has been asked for, every evaluation of code in a frame, whether it
returns or fails, leaves a store that has grown out of the one before: frames keep what is around
them, their check and their names, and new frames stand inside older ones and check alike. This also
holds from each moment to every later one. So no chain of frames goes on forever, all frames check
as the global one does, names that are bound from a frame stay bound, and a lookup that has once
succeeded never finds its name unbound. -/
theorem store_only_grows (setup : Setup) (detached : setup.Detached) (session : Session)
    (r : Recording) (reached : setup.Reached session r) (limit : Nat) (code : Value)
    (frame : FrameId) (known : ∀ ref ∈ .frame frame :: code.refs, r.store.Has ref) :
    ∃ outcome after,
      (session.evaluator.run limit (.evaluate code frame) : Recorded Value).on r =
        (outcome, after) ∧
      (session.evaluator.run limit (.evaluate code frame) : Run Value).on r.store =
        (outcome, after.store) ∧
      (r.store.ExtendsTo after.store ∧ r.store.NamesLast after.store) ∧
      (after.moments.Pairwise fun later earlier => earlier.ExtendsTo later ∧
        earlier.NamesLast later) ∧
      ∀ store ∈ after.moments, store.WellFormed session.globals ∧
        WellFounded fun around frame => (store.frame frame).outer = some around := by
  obtain ⟨⟨strategy, same⟩, steady⟩ := steady_of_reached detached reached
  have kept := run_whole_keeps detached strategy limit code frame steady.grounded known
  rw [← same] at kept
  have steady' := steady.of_keeps kept
  obtain ⟨outcome, after, ran, plain, _, _, later, _⟩ := kept
  rw [ran] at steady'
  refine ⟨outcome, after, ran, plain, ⟨later.store, later.store.namesLast⟩, ?_, ?_⟩
  · exact steady'.grows.imp fun grows => ⟨grows, grows.namesLast⟩
  · intro store member
    have formed := steady'.formed store member
    exact ⟨formed, formed.wellFounded⟩

theorem Setup.plain_detached (strategy : String) (checked : Bool) :
    (Setup.plain strategy checked).Detached := by
  constructor
  · intro name v member ref inside
    obtain ⟨entry, among, same⟩ := List.mem_map.mp member
    obtain ⟨key, operation, rfl, default_⟩ := Policy.defaultPrimitives_each entry among
    cases same
    cases operation with
    | added action => exact absurd rfl (default_ action)
    | _ => cases inside
  · intro name
    constructor
    · exact fun _ _ => rfl
    · exact fun _ _ => rfl
    · intro p free given store v _ returned
      cases returned
      exact (Value.every_of_flat rfl).mpr (free .nil rfl)

/-- A call of a procedure that sets a variable of its own frame. -/
theorem store_only_grows_counter :
    ∃ session r, (Setup.plain "lazy" true).Detached ∧ (Setup.plain "lazy" true).Reached session r ∧
      (∀ ref ∈ .frame session.globals :: (Value.list [.sym "next"]).refs, r.store.Has ref) ∧
      ∃ outcome after,
        (session.evaluator.run 50 (.evaluate (.list [.sym "next"]) session.globals) :
          Recorded Value).on r =
          (outcome, after) ∧ r.store.NamesLast after.store := by
  have begins : ((Setup.plain "lazy" true).ran? []).isSome = true := by cbv
  obtain ⟨⟨session, opened⟩, ran⟩ := Option.isSome_iff_exists.mp begins
  obtain ⟨started, begun, rfl⟩ := Setup.ran?_eq_some _ [] session opened ran
  obtain ⟨r, reached⟩ : ∃ r, (Setup.plain "lazy" true).Reached session r :=
    ⟨_, (Setup.Reached.started begun).text 100
      "(define next (let ((n 0)) (lambda () (set! n (+ n 1)) n)))"⟩
  have detached := Setup.plain_detached "lazy" true
  have steady := (steady_of_reached detached reached).2
  have known : ∀ ref ∈ .frame session.globals :: (Value.list [.sym "next"]).refs,
      r.store.Has ref := by
    intro ref member
    obtain rfl := List.mem_singleton.mp member
    exact steady.globals
  obtain ⟨outcome, after, ran, _, ⟨_, lasts⟩, _⟩ :=
    store_only_grows _ detached session r reached 50 (.list [.sym "next"]) session.globals known
  exact ⟨session, r, detached, reached, known, outcome, after, ran, lasts⟩

end ThunkLisp
