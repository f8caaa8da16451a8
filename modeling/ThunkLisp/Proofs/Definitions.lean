import ThunkLisp.Proofs.WaitingNames

/-!
Definitions. A frame that is there binds one more name only when a definition of that name is done
in the frame itself. Calls bind names in new frames, and assignments find their name bound.
-/

namespace ThunkLisp

/-- The event is the end of a definition that has bound the name in the frame. -/
def Event.Defines (forms : FormTable) (frame : FrameId) (name : String) : Event → Prop
  | .ended task _ (.ok _) _ => task.Defines forms frame name
  | _ => False

section Watching

variable (forms : FormTable) (base : Store) (frame : FrameId) (name : String)

def DefinedSince (newer : List Event) (store : Store) : Prop :=
  (store.frame frame).bindings.binds (.sym name) = true →
    (base.frame frame).bindings.binds (.sym name) = true ∨
      ∃ event ∈ newer, event.Defines forms frame name

def definitionWatch (past : List Event) : Watch where
  sound r := frame < r.store.frames.size ∧
    ∃ newer, r.events = newer ++ past ∧ DefinedSince forms base frame name newer r.store
  later r s := r.store.Evolves s.store
  code _ := True
  value _ := True
  fails _ := True

end Watching

variable {forms : FormTable} {base store after : Store} {frame : FrameId} {name : String}
  {past : List Event}
  {r : Recording}

theorem DefinedSince.more {newer : List Event}
    (since : DefinedSince forms base frame name newer store) (newest : List Event) :
    DefinedSince forms base frame name (newest ++ newer) store := fun bound =>
  (since bound).imp_right fun ⟨event, among, defines⟩ =>
    ⟨event, List.mem_append_right newest among, defines⟩

namespace definitionWatch

theorem present (sound : (definitionWatch forms base frame name past).sound r)
    (evolves : r.store.Evolves after) :
    frame < after.frames.size := Nat.lt_of_lt_of_le sound.1 evolves.size

theorem moves (sound : (definitionWatch forms base frame name past).sound r)
    (evolves : r.store.Evolves after) (same : (after.frame frame).bindings =
    (r.store.frame frame).bindings) :
    (definitionWatch forms base frame name past).Moves r after := by
  have still := present sound evolves
  obtain ⟨_, newer, events, since⟩ := sound
  exact ⟨⟨still, newer, events, fun bound => since (same ▸ bound)⟩, evolves⟩

theorem note (sound : (definitionWatch forms base frame name past).sound r) (event : Event)
    (evolves : r.store.Evolves after)
    (binds : (after.frame frame).bindings.binds (.sym name) = true →
      (r.store.frame frame).bindings.binds (.sym name) = true ∨ event.Defines forms frame name) :
    (definitionWatch forms base frame name past).sound ⟨after, event :: r.events⟩ := by
  have still := present sound evolves
  obtain ⟨_, newer, events, since⟩ := sound
  refine ⟨still, event :: newer, by simp [events], fun bound => ?_⟩
  rcases binds bound with old | defines
  · exact since.more [event] old
  · exact .inr ⟨event, List.mem_cons_self, defines⟩

theorem answers {α : Type} {post : α → Prop} (outcome : Except Failure α) (always : ∀ v, post v) :
    (definitionWatch forms base frame name past).Answers post outcome := by
  cases outcome with
  | ok v => exact always v
  | error failure => trivial

theorem lawful {evaluator : Evaluator} (undisturbing : evaluator.added.Undisturbing)
    (past : List Event) :
    (definitionWatch evaluator.forms base frame name past).Lawful evaluator where
  toCodeLaws := .all _
  refl r := .refl r.store
  trans _ _ _ first second := first.trans second
  thunk _ := trivial
  bound _ _ _ _ _ _ := trivial
  waiting _ _ _ _ _ _ _ := trivial
  settled _ _ _ _ _ := trivial
  numbers r sound := moves sound (.of_same rfl rfl) rfl
  suspends r code frame kept sound _ := moves sound (.addThunk r.store code frame kept) rfl
  extends_ r home bindings sound _ := by
    have same := r.store.frame_addFrame_of_lt bindings (some home) none frame sound.1
    exact moves sound (.addFrame r.store bindings (some home) none) (by rw [Store.extend, same])
  settles r s id code frame v waiting later sound _ := by
    obtain ⟨now, found, becomes⟩ := later.thunks id _ (Store.getElem?_of_waiting waiting)
    have kept : now.isKept = true := by
      rcases becomes with rfl | ⟨_, w, rfl⟩
      · rfl
      · rfl
    exact moves sound (.settle s.store id v now found kept) rfl
  performs r p given sound _ _ := by
    have undisturbed := p.operation.undisturbed undisturbing given r.store
    have evolves := undisturbed.develops.toEvolves
    refine Watch.keeps_primitive (Prod.eta _).symm
      (note sound (.applied p given r.store) evolves fun bound => ?_)
      evolves (answers _ fun _ => trivial)
    exact .inl (undisturbed.frame frame ▸ bound)
  begins r task sound _ := ⟨note sound (.began task r.store) (.refl r.store) .inl, .refl r.store⟩
  ends limit task r s outcome _ _ sound _ _ :=
    ⟨note sound (.ended task r.store outcome s.store) (.refl s.store) .inl, .refl s.store⟩
  stores limit task r s owner given v before later sound ran _ stores := by
    have evolves := Store.Evolves.bind s.store owner (.sym given) v
    refine ⟨note sound (.ended task r.store (.ok (.sym given)) _) evolves fun binds => ?_, evolves⟩
    by_cases here : owner = frame ∧ name = given
    · obtain ⟨rfl, rfl⟩ := here
      -- the owner of an assigned name has bound it before
      rcases stores with ⟨inside, _, found⟩ | defines
      · exact .inl (s.store.find?_binds inside owner (.sym name) found)
      · exact .inr defines
    · have same := s.store.bound_bind_of_ne v here
      rw [Bindings.binds] at binds ⊢
      exact .inl (same ▸ binds)

end definitionWatch

/-- If a frame binds a name after a task and did not before, a definition of the name has been done
in it. -/
theorem Evaluator.run_binds_defined {evaluator : Evaluator}
    (undisturbing : evaluator.added.Undisturbing) (limit : Nat) (task : Task) (r : Recording)
    (present : frame < r.store.frames.size)
    (unbound : (r.store.frame frame).bindings.binds (.sym name) = false) :
    ∃ outcome after newer, (evaluator.run limit task : Recorded Value).on r = (outcome, after) ∧
      after.events = newer ++ r.events ∧
        ((after.store.frame frame).bindings.binds (.sym name) = true →
          ∃ event ∈ newer, event.Defines evaluator.forms frame name) := by
  let watch := definitionWatch evaluator.forms r.store frame name r.events
  have lawful : watch.Lawful evaluator := definitionWatch.lawful undisturbing r.events
  have ready : (watch.coupling evaluator.forms).ready task := by cases task <;> trivial
  have sound : watch.sound r := ⟨present, [], rfl, fun bound => .inl bound⟩
  obtain ⟨outcome, after, ran, _, ⟨_, newer, events, since⟩, _⟩ :=
    lawful.run_keeps limit task ready r sound
  refine ⟨outcome, after, newer, ran, events, fun bound => (since bound).resolve_left ?_⟩
  rw [unbound]
  nofun

end ThunkLisp
