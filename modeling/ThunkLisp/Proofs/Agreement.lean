import Mathlib
import ThunkLisp.Proofs.Agreement.Demand
import ThunkLisp.Session

/-!
The strategies agree on code without effects. If a strict run returns a value, runs under every
strategy return it as well, with a limit that is large enough.
-/

namespace ThunkLisp

open Machine (effect)
open Value (Every)

/-! Values of one outline. -/

namespace Value

/-- Leaves whose identity does not depend on a run. -/
def IsAnonymous : Value → Prop
  | .procedure .. | .nan _ => False
  | _ => True

/-- Besides the identities of NaN, which only the run that computes them gives, the values differ at
most in the identities and frames of their procedures. -/
def Resembles (v w : Value) : Prop := v.outline (fun _ => 0) = w.outline fun _ => 0

theorem outline_of_anonymous {v : Value} (rename : FrameId → FrameId)
    (every : Every IsAnonymous v) :
    v.outline rename = v := by
  induction every with
  | leaf v flat anonymous =>
      cases v with
      | procedure identity params body frame => cases anonymous
      | nan identity => cases anonymous
      | list items => cases flat
      | _ => rfl
  | list items _ ih =>
      rw [outline_list, List.map_congr_left ih, List.map_id']

theorem eq_of_outline_eq {v w : Value} (rename : FrameId → FrameId) (every : Every IsAnonymous w)
    (same : v.outline rename = w) : v = w := by
  induction v using tree_induction generalizing w with
  | leaf v flat =>
      subst same
      cases v with
      | procedure identity params body frame => cases (every_of_flat rfl).mp every
      | nan identity => cases (every_of_flat rfl).mp every
      | list items => cases flat
      | _ => rfl
  | list items ih =>
      subst same
      rw [outline_list] at every ⊢
      have each := (every_list _).mp every
      have unchanged : ∀ v ∈ items, v.outline rename = v := fun v member =>
        (ih v member (each _ (List.mem_map_of_mem member)) rfl).symm
      rw [List.map_congr_left unchanged, List.map_id']

theorem Resembles.eq {v w : Value} (resembles : v.Resembles w) (every : Every IsAnonymous w) :
    v = w :=
  eq_of_outline_eq (fun _ => 0) every (resembles.trans (outline_of_anonymous _ every))

end Value

/-! New sessions. -/

def quietBindings : Bindings :=
  (defaultOperations.filter fun entry => entry.2 ≠ .display).map fun entry =>
    (.sym entry.1, defaultPrimitive entry.1 entry.2)

/-- A session with the default primitives but `display`, and without a prelude. -/
def quietSetup (strategy : Strategy) (checked : Bool) (added : AddedActions) : Setup :=
  { Setup.plain strategy.text checked with
    supplies := quietBindings.map fun entry => (entry.1, .value entry.2)
    added := added }

def evaluateNewly {m : Type → Type} [Monad m] [Machine m] (strategy : Strategy) (checked : Bool)
    (added : AddedActions) (limit : Nat) (code : Value) : m Value := do
  let session ← Session.start (quietSetup strategy checked added)
  session.evaluateWithin limit code

def quietStore (checked : Bool) : Store :=
  { frames := #[{ bindings := quietBindings, checked := checked }] }

theorem on_makeGlobals (checked : Bool) :
    (makeGlobals (quietBindings.map fun entry => (entry.1, .value entry.2)) checked).on {} =
      (.ok 0, quietStore checked) := by
  cbv

theorem parseStrategy_text (strategy : Strategy) : Settings.parseStrategy strategy.text =
    .ok strategy := by
  cases strategy <;> cbv

theorem readAll_empty : readAll "" = .ok [] := by
  cbv

theorem on_evaluateNewly (refuses : Primitive → List Value → Bool) (strategy : Strategy)
    (checked : Bool) (added : AddedActions) (limit : Nat) (code : Value) :
    (evaluateNewly strategy checked added limit code : Guarded refuses Value).on {} =
      ((Discipline.evaluator added strategy).run limit (.evaluate code 0) :
        Guarded refuses Value).on
        (quietStore checked) := by
  simp only [evaluateNewly, Session.start, quietSetup, Setup.plain, Setup.strategy, Setup.checked,
    parseStrategy_text, Session.evaluateTextWithin, readAll_empty, Guarded.on_bind,
      Guarded.on_effect,
    Run.on_ofExcept, on_makeGlobals, Session.evaluateForms, Guarded.on_pure]
  rfl

theorem on_evaluateNewly_plain (strategy : Strategy) (checked : Bool) (added : AddedActions)
    (limit : Nat) (code : Value) :
    (evaluateNewly strategy checked added limit code : Run Value).on {} =
      (evaluateNewly strategy checked added limit code : Guarded refusesNothing Value).on {} := rfl

theorem quietBindings_plain (entry : Value × Value) (member : entry ∈ quietBindings) :
    ∃ p : Primitive, entry.2 = .primitive p ∧ p.operation.isPlain = true := by
  obtain ⟨found, inside, rfl⟩ := List.mem_map.mp member
  refine ⟨_, rfl, ?_⟩
  have each : ∀ entry ∈ defaultOperations.filter fun entry => entry.2 ≠ .display,
      entry.2.isPlain = true := by decide
  exact each found inside

theorem plain_quietStore (checked : Bool) : (quietStore checked).Plain := by
  intro frame entry member
  have inside : entry ∈ quietBindings := by
    cases frame with
    | zero => exact member
    | succ frame => cases member
  obtain ⟨p, same, plain⟩ := quietBindings_plain entry inside
  rw [same]
  exact (Value.every_of_flat rfl).mpr plain

theorem quietStore_matches {frames : Store} (checked : Bool)
    (grows : (quietStore checked).Grows frames) :
    Matching.Holds ⟨id, fun _ => .nil, fun _ => 0⟩ frames (quietStore checked) := by
  refine ⟨fun number present => ?_, fun id suspension found => ?_⟩
  · obtain rfl : number = 0 := Nat.lt_one_iff.mp present
    have here := grows.2 0 Nat.one_pos
    change Matching.Frames _ _ 0 _ (frames.frame 0)
    rw [here]
    refine ⟨List.forall₂_same.mpr fun entry member => ⟨rfl, .inl ?_⟩, .none⟩
    obtain ⟨p, same, _⟩ := quietBindings_plain entry member
    rw [same]
    exact ⟨(Value.every_of_flat rfl).mpr trivial, rfl⟩
  · simp [quietStore] at found

/-! Agreement. -/

theorem guarded_agree (refuses : Primitive → List Value → Bool)
    (weaker : ∀ p given, refuses p given = true → refusesCompounds p given = true)
    (added : AddedActions) (checked : Bool) (code v : Value) (effectless : Effectless code)
    (limit : Nat) (after : Store) (returns :
    (evaluateNewly .strict checked added limit code : Guarded refusesCompounds Value).on {} =
      (.ok v, after)) (strategy : Strategy) :
    ∃ enough w final, w.Resembles v ∧ ∀ more ≥ enough,
      (evaluateNewly strategy checked added more code : Guarded refuses Value).on {} =
        (.ok w, final) := by
  rw [on_evaluateNewly] at returns
  obtain ⟨grows, _, _, denotes⟩ := strict_run_yields added limit (quietStore checked) 0 code
    (plain_quietStore checked) Nat.one_pos effectless v after returns
  have means : Means after after.frames.size 0 code v :=
    denotes after _ (.refl after) (Nat.le_refl _)
  have holds := quietStore_matches checked grows
  obtain ⟨enough, w, final, m, ran, _, _, stands⟩ := Matching.means_reached weaker
    (Discipline.evaluator added strategy) rfl after.frames.size 0 code v means 0 _ _ 0 holds
      Nat.one_pos rfl
  refine ⟨enough, w, final, ?_, fun more above => ?_⟩
  · have same := congrArg (Value.outline fun _ => 0) stands.2
    rwa [Value.outline_outline, Value.outline_outline] at same
  · rw [on_evaluateNewly]
    exact ran more above

/-- If strict evaluation returns a value, where comparisons of lists, procedures and primitives
count as failures, then evaluation under every strategy returns one that resembles it, whether or
not they count. -/
theorem strategies_agree (added : AddedActions) (checked : Bool) (code v : Value)
    (effectless : Effectless code) (limit : Nat) (after : Store)
    (returns : (evaluateNewly .strict checked added limit code : Guarded refusesCompounds Value).on
    {} =
      (.ok v, after)) (strategy : Strategy) :
    (∃ enough w final, (∀ more ≥ enough,
      (evaluateNewly strategy checked added more code : Run Value).on {} = (.ok w, final)) ∧
        w.Resembles v ∧ (Every Value.IsAnonymous v → w = v)) ∧
    ∃ enough w final, (∀ more ≥ enough,
      (evaluateNewly strategy checked added more code : Guarded refusesCompounds Value).on {} =
        (.ok w, final)) ∧
        w.Resembles v ∧ (Every Value.IsAnonymous v → w = v) := by
  constructor
  · obtain ⟨enough, w, final, resembles, ran⟩ :=
      guarded_agree refusesNothing (by simp [refusesNothing])
      added checked code v effectless limit after returns strategy
    refine ⟨enough, w, final, fun more above => ?_, resembles, resembles.eq⟩
    rw [on_evaluateNewly_plain]
    exact ran more above
  · obtain ⟨enough, w, final, resembles, ran⟩ :=
      guarded_agree refusesCompounds (fun _ _ refused => refused)
      added checked code v effectless limit after returns strategy
    exact ⟨enough, w, final, ran, resembles, resembles.eq⟩

def doubled : Value :=
  .list [.list [.sym "lambda", .list [.list [.sym "x", .sym "lazy-memo"]],
    .list [.sym "+", .sym "x", .sym "x"]], .list [.sym "*", .int 2, .int 3]]

theorem effectless_doubled : Effectless doubled := by
  have leaf (v : Value) (flat : v.isList = false) (readable : v.isReadable = true) : Effectless v :=
    .constant v flat readable
  have sum : Effectless (.list [.sym "+", .sym "x", .sym "x"]) := by
    refine .application _ _ (fun name same => ?_) (leaf _ rfl rfl) fun code member => ?_
    · cases same
      rfl
    · simp only [List.mem_cons, List.not_mem_nil, or_false, or_self] at member
      subst member
      exact leaf _ rfl rfl
  have product : Effectless (.list [.sym "*", .int 2, .int 3]) := by
    refine .application _ _ (fun name same => ?_) (leaf _ rfl rfl) fun code member => ?_
    · cases same
      rfl
    · simp only [List.mem_cons, List.not_mem_nil, or_false] at member
      rcases member with rfl | rfl <;> exact leaf _ rfl rfl
  refine .application _ _ (by simp) (.procedure _ _ fun code member => ?_) fun code member => ?_
  · obtain rfl := List.mem_singleton.mp member
    exact sum
  · obtain rfl := List.mem_singleton.mp member
    exact product

theorem strategies_agree_doubled :
    ((evaluateNewly .strict true (fun _ _ => pure .nil) 20 doubled :
      Guarded refusesCompounds Value).on {}).1 =
      .ok (.int 12) ∧
    ∃ enough final, ∀ more ≥ enough,
      (evaluateNewly .mixed true (fun _ _ => pure .nil) more doubled : Run Value).on {} =
        (.ok (.int 12), final) := by
  have returns : ((evaluateNewly .strict true (fun _ _ => pure .nil) 20 doubled :
      Guarded refusesCompounds Value).on {}).1 = .ok (.int 12) := by
    cbv
  obtain ⟨enough, w, final, ran, _, equal⟩ :=
    (strategies_agree (fun _ _ => pure .nil) true doubled (.int 12)
    effectless_doubled 20 _ (Prod.ext returns rfl) .mixed).1
  obtain rfl := equal ((Value.every_of_flat rfl).mpr trivial)
  exact ⟨returns, enough, final, ran⟩

end ThunkLisp
