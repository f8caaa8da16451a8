import ThunkLisp.Proofs.RealmRuns

/-!
Evaluation touches what it can reach. The realm of what can be reached from a frame and from the
code that is evaluated in it is sound, so evaluation stays inside and leaves everything else as it
was.
-/

namespace ThunkLisp

open Value (Every)

def outcomeRefs : Except Failure Value → List Ref
  | .ok v => v.refs
  | .error _ => []

namespace Realm

def ofReachable (store : Store) (roots : List Ref)
    (closed : ∀ ref, store.Reachable roots ref → store.Has ref) :
    Realm :=
  ⟨store, store.Reachable roots, closed⟩

variable {realm : Realm}

theorem holds_of_reachable {store : Store} (sound : realm.Sound store) {roots : List Ref}
    (start : ∀ ref ∈ roots, realm.Holds store ref) {ref : Ref}
    (reachable : store.Reachable roots ref) :
    realm.Holds store ref := by
  -- the realm is closed under the references of its frames and suspensions
  apply reachable.least start
  intro near held ref member
  cases near with
  | frame id =>
      have inside := sound.frame id held
      rcases List.mem_append.mp member with outer | bound
      · obtain ⟨around, found, rfl⟩ : ∃ around, (store.frame id).outer = some around ∧
            Ref.frame around = ref := by
          simpa using outer
        exact inside.1 around found
      · obtain ⟨entry, among, member⟩ := List.mem_flatMap.mp bound
        exact holds_of_value (inside.2 entry among) ref member
  | thunk id =>
      have inside := sound.thunk id held
      simp only [Store.refs] at member
      cases suspension : store.thunk id with
      | waiting code frame kept =>
          rw [suspension] at inside member
          rcases List.mem_cons.mp member with rfl | embedded
          · exact inside.1
          · exact holds_of_within (inside.2 ref embedded)
      | settled v =>
          rw [suspension] at inside member
          exact holds_of_value inside ref member
  | action name => cases member

/-- A run of code of the realm, in one of its frames, ends in a store that is sound for the realm,
and its outcome refers to the realm only. -/
theorem run_stays (realm : Realm) (added : AddedActions) (strategy : Strategy)
    (tame : ∀ name, realm.within (.action name) → Tame (added name)) (limit : Nat) (code : Value)
    (frame : FrameId) (store : Store) (sound : realm.Sound store)
    (held : realm.Holds store (.frame frame)) (written : realm.Written code) :
    ∃ outcome after, ((⟨FormTable.full, strategy, added⟩ : Evaluator).run limit
        (.evaluate code frame) :
        Run Value).on store = (outcome, after) ∧
      realm.Sound after ∧ store.ExtendsTo after ∧ ∀ ref ∈ outcomeRefs outcome,
        realm.Holds after ref := by
  have kept := Discipline.run_code_keeps (r := ⟨store, []⟩)
    (lawful realm added strategy tame) limit code sound held
    ((code_iff _ frame code).mpr written)
  obtain ⟨outcome, after, _, ran, _, sound', later, answer⟩ := kept
  refine ⟨outcome, after.store, ran, sound', later.store, ?_⟩
  cases outcome with
  | ok v => exact holds_of_value answer
  | error failure => exact fun _ member => nomatch member

end Realm

/-- Under every strategy, whether evaluation returns or fails: a frame or a suspension that could
not be reached from the frame of the evaluation or from what is embedded in the code is as it was,
and what can be reached afterwards from that frame or from the result could be reached before or has
been created. -/
theorem evaluation_stays_within_reach (added : AddedActions) (strategy : Strategy) (limit : Nat)
    (store : Store) (frame : FrameId) (code : Value)
    (closed : ∀ ref, store.Reachable (.frame frame :: code.refs) ref → store.Has ref)
    (default_ : ∀ name, ¬ store.Reachable (.frame frame :: code.refs) (.action name)) :
    ∃ outcome after, ((⟨FormTable.full, strategy, added⟩ : Evaluator).run limit
        (.evaluate code frame) :
        Run Value).on store = (outcome, after) ∧
      (∀ id < store.frames.size, ¬ store.Reachable (.frame frame :: code.refs) (.frame id) →
        after.frame id = store.frame id) ∧
      (∀ id < store.thunks.size, ¬ store.Reachable (.frame frame :: code.refs) (.thunk id) →
        after.thunk id = store.thunk id) ∧
      ∀ ref, after.Reachable (.frame frame :: outcomeRefs outcome) ref →
        store.Reachable (.frame frame :: code.refs) ref ∨ store.Creates after ref := by
  -- references do not leave the realm of what can be reached
  have sound := (Realm.ofReachable store _ closed).sound_base fun _ near _ member =>
    near.next member
  have root : ∀ ref ∈ .frame frame :: code.refs, store.Reachable (.frame frame :: code.refs) ref :=
    fun _ member => .root member
  obtain ⟨outcome, after, ran, sound', grows, results⟩ :=
    Realm.run_stays (.ofReachable store _ closed) added strategy
      (fun name near => absurd near (default_ name))
      limit code frame store sound (.inl (root _ List.mem_cons_self)) fun ref member =>
        root ref (.tail _ member)
  refine ⟨outcome, after, ran, sound'.frame_outside, sound'.thunk_outside, ?_⟩
  intro ref reachable
  apply Realm.holds_of_reachable sound' _ reachable
  intro root_ member
  rcases List.mem_cons.mp member with rfl | result
  · exact .inl (root _ List.mem_cons_self)
  · exact results root_ result

/-- Two counters made by one procedure. The first one can be reached from the outermost frame, by
the procedure that sets it, and the second one can not. -/
def twoCounters : Store :=
  { frames := #[
      ⟨[(.sym "reset", .procedure 1 [] [.list [.sym "set!", .sym "n", .int 0]] 1)], none, true⟩,
      ⟨[(.sym "n", .int 5)], some 0, true⟩,
      ⟨[(.sym "n", .int 7)], some 0, true⟩] }

theorem reachable_twoCounters {ref : Ref} (reachable : twoCounters.Reachable [.frame 0] ref) :
    ref = .frame 0 ∨ ref = .frame 1 := by
  apply reachable.least
  · intro root member
    exact .inl (List.mem_singleton.mp member)
  · rintro near (rfl | rfl) ref member
    · exact .inr (List.mem_singleton.mp member)
    · exact .inl (List.mem_singleton.mp member)

/-- Resetting the first counter leaves the second one alone. -/
theorem evaluation_stays_within_reach_counters :
    (∀ ref, twoCounters.Reachable (.frame 0 :: (Value.list [.sym "reset"]).refs) ref →
      twoCounters.Has ref) ∧
      (∀ name, ¬ twoCounters.Reachable (.frame 0 :: (Value.list [.sym "reset"]).refs)
        (.action name)) ∧
      ((((⟨FormTable.full, .strict, fun _ _ => return .nil⟩ : Evaluator).run 5
        (.evaluate (.list [.sym "reset"]) 0) : Run Value).on twoCounters).2.frame 2).bindings =
          [(.sym "n", .int 7)] := by
  have closed : ∀ ref, twoCounters.Reachable (.frame 0 :: (Value.list [.sym "reset"]).refs) ref →
      twoCounters.Has ref := by
    intro ref reachable
    rcases reachable_twoCounters reachable with rfl | rfl
    · exact (by decide : 0 < 3)
    · exact (by decide : 1 < 3)
  have default_ : ∀ name, ¬ twoCounters.Reachable (.frame 0 :: (Value.list [.sym "reset"]).refs)
      (.action name) := by
    intro name reachable
    rcases reachable_twoCounters reachable with same | same <;> cases same
  obtain ⟨outcome, after, ran, frames, _, _⟩ :=
    evaluation_stays_within_reach (fun _ _ => return .nil) .strict 5
    twoCounters 0 (.list [.sym "reset"]) closed default_
  have apart : ¬ twoCounters.Reachable (.frame 0 :: (Value.list [.sym "reset"]).refs)
      (.frame 2) := by
    intro reachable
    rcases reachable_twoCounters reachable with same | same <;> cases same
  refine ⟨closed, default_, ?_⟩
  rw [ran, frames 2 (by decide) apart]
  rfl

end ThunkLisp
