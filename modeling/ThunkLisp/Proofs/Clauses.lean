import ThunkLisp.Proofs.RecursionLimit
import ThunkLisp.Proofs.RunRules

/-!
`cond`. Its expansion folds the clauses from the right into conditionals inside each other. A run of
the form goes through them from the left: it takes the first clause whose predicate is true and
looks at none behind it.
-/

namespace ThunkLisp

open Machine (effect)

section Walk

variable {m : Type → Type} [Monad m] [Machine m]

/-- Goes through clauses in order and does the actions of the first one whose predicate is true, or
of one that starts with `else`. False if there is none. -/
def Inner.takeClause (inner : Inner m) (frame : FrameId) : List Value → m Value
  | .list (test :: actions) :: rest =>
      if Derived.isElse test then inner.sequence frame actions
      else do
        let decided ← inner.concrete (← inner.evaluate test frame)
        if decided.isTrue then inner.sequence frame actions else inner.takeClause frame rest
  | _ => return .bool false

end Walk

namespace Evaluator

/-- Actions, by the room that is left for them. A single one takes that of its clause; none and
several are a form of their own around them. -/
def act (evaluator : Evaluator) (frame : FrameId) : Nat → List Value → Run Value
  | limit, [action] => evaluator.run limit (.evaluate action frame)
  | 0, _ => throw .recursion
  | limit + 1, actions => Inner.sequence ((evaluator.stack limit : Stack Run).above 2) frame actions

/-- Goes through clauses by the room that is left, each clause behind four calls more than the one
before it. -/
def walk (evaluator : Evaluator) (frame : FrameId) : Nat → List Value → Run Value
  | limit, .list (test :: actions) :: rest =>
      if Derived.isElse test then evaluator.act frame limit actions
      else match limit with
        | 0 => throw .recursion
        | limit + 1 => do
            let v ← evaluator.run (limit - 3) (.evaluate test frame)
            let decided ← Inner.concrete ((evaluator.stack limit : Stack Run).above 1) v
            if decided.isTrue then evaluator.act frame (limit - 3) actions
            else evaluator.walk frame (limit - 3) rest
  | 0, _ => throw .recursion
  | _ + 1, _ => return .bool false

section Outcomes

variable (evaluator : Evaluator) (frame : FrameId)

theorem walk_of_else {test : Value} (last : Derived.isElse test = true) (limit : Nat)
    (actions rest : List Value) :
    evaluator.walk frame limit (.list (test :: actions) :: rest) =
      evaluator.act frame limit actions := by
  unfold walk
  rw [if_pos last]

theorem walk_zero {test : Value} (ordinary : ¬ Derived.isElse test = true)
    (actions rest : List Value) :
    evaluator.walk frame 0 (.list (test :: actions) :: rest) = throw .recursion := by
  unfold walk
  rw [if_neg ordinary]

theorem walk_succ {test : Value} (ordinary : ¬ Derived.isElse test = true) (limit : Nat)
    (actions rest : List Value) :
    evaluator.walk frame (limit + 1) (.list (test :: actions) :: rest) = (do
      let v ← evaluator.run (limit - 3) (.evaluate test frame)
      let decided ← Inner.concrete ((evaluator.stack limit : Stack Run).above 1) v
      if decided.isTrue then evaluator.act frame (limit - 3) actions
      else evaluator.walk frame (limit - 3) rest) := by
  rw [walk, if_neg ordinary]

theorem run_body (sequences : evaluator.forms.find? "begin" = some .sequence) (limit : Nat)
    (actions : List Value) :
    evaluator.run limit (.evaluate (Derived.body actions) frame) =
      evaluator.act frame limit actions := by
  match actions, limit with
  | [], 0 | [], _ + 1 | [_], _ | _ :: _ :: _, 0 => rfl
  | first :: second :: rest, limit + 1 =>
      exact evaluator.run_form limit frame "begin" .sequence (first :: second :: rest) sequences

/-- The conditionals that clauses expand into are gone through as the clauses are. -/
theorem run_condTree (sequences : evaluator.forms.find? "begin" = some .sequence)
    (conditionals : evaluator.forms.find? "if" = some .conditional) (limit : Nat)
    (clauses : List Value) :
    evaluator.run limit (.evaluate (Derived.condTree clauses) frame) =
      evaluator.walk frame limit clauses := by
  fun_induction Derived.condTree clauses generalizing limit with
  | case1 test actions rest last =>
      rw [run_body evaluator frame sequences, walk_of_else evaluator frame last]
  | case2 test actions rest ordinary ih =>
      cases limit with
      | zero => exact (evaluator.walk_zero frame ordinary actions rest).symm
      | succ limit =>
          rw [run_conditional evaluator limit frame _ _ _ conditionals, ih,
            run_body evaluator frame sequences, evaluator.walk_succ frame ordinary]
  | case3 clauses unlike =>
      unfold walk
      split
      · next test actions rest => exact (unlike test actions rest rfl).elim
      · rfl
      · rfl

/-! Walks under limits that are not passed. -/

theorem act_continues {limit deeper : Nat} (le : limit ≤ deeper) (actions : List Value) :
    (evaluator.act frame limit actions).ContinuedBy (fun _ => True)
      (Inner.sequence (evaluator.run deeper) frame actions) := by
  match actions, limit with
  | [action], limit => exact evaluator.run_continues limit deeper le _
  | [], 0 | _ :: _ :: _, 0 => exact fun _ within => absurd rfl within
  | [], limit + 1 => exact .refl _ fun _ => trivial
  | first :: second :: rest, limit + 1 =>
      exact (deepening_lawful evaluator).sequence_holds (evaluator.above_deepens (by omega) 2)
        (first :: second :: rest) fun _ _ => trivial

theorem act_continued {limit deeper : Nat} (enough : limit + 5 ≤ deeper) (actions : List Value) :
    (Inner.sequence (evaluator.run limit) frame actions : Run Value).ContinuedBy (fun _ => True)
      (evaluator.act frame deeper actions) := by
  obtain ⟨rest, rfl⟩ : ∃ rest, deeper = rest + 1 := ⟨deeper - 1, by omega⟩
  match actions with
  | [action] => exact evaluator.run_continues limit _ (by omega) _
  | [] => exact .refl _ fun _ => trivial
  | first :: second :: behind =>
      exact (deepening_lawful evaluator).sequence_holds (evaluator.deepens_above (by omega))
        (first :: second :: behind) fun _ _ => trivial

theorem test_continues {inner inner' : Inner Run} (related : deepening.InnerHolds inner inner')
    (test : Value) {branch branch' : Value → Run Value}
    (branches : ∀ decided, (branch decided).ContinuedBy (fun _ => True) (branch' decided)) :
    (do
      let v ← inner.evaluate test frame
      let decided ← inner.concrete v
      branch decided : Run Value).ContinuedBy (fun _ => True) (do
        let v ← inner'.evaluate test frame
        let decided ← inner'.concrete v
        branch' decided) := by
  refine .bind (related (.evaluate test frame) trivial) fun v _ => ?_
  exact .bind (concrete_continues related v) fun decided _ => branches decided

theorem walk_continues {limit deeper : Nat} (le : limit ≤ deeper) (clauses : List Value) :
    (evaluator.walk frame limit clauses).ContinuedBy (fun _ => True)
      (Inner.takeClause (evaluator.run deeper) frame clauses) := by
  fun_induction Inner.takeClause (evaluator.run deeper : Inner Run) frame clauses generalizing
    limit with
  | case1 test actions rest last =>
      rw [evaluator.walk_of_else frame last]
      exact evaluator.act_continues frame le actions
  | case2 test actions rest ordinary ih =>
      cases limit with
      | zero =>
          rw [evaluator.walk_zero frame ordinary]
          exact fun _ within => absurd rfl within
      | succ limit =>
          rw [evaluator.walk_succ frame ordinary, ← evaluator.evaluate_above limit 1]
          refine test_continues frame (evaluator.above_deepens (by omega) 1) test fun decided => ?_
          split
          · exact evaluator.act_continues frame (by omega) actions
          · exact ih (by omega)
  | case3 clauses unlike =>
      unfold walk
      split
      · next test actions rest => exact (unlike test actions rest rfl).elim
      · exact fun _ within => absurd rfl within
      · exact .refl _ fun _ => trivial

theorem walk_continued {limit deeper : Nat} (clauses : List Value)
    (enough : limit + 4 * clauses.length + 5 ≤ deeper) :
    (Inner.takeClause (evaluator.run limit) frame clauses : Run Value).ContinuedBy (fun _ => True)
      (evaluator.walk frame deeper clauses) := by
  obtain ⟨deep, rfl⟩ : ∃ deep, deeper = deep + 1 := ⟨deeper - 1, by omega⟩
  fun_induction Inner.takeClause (evaluator.run limit : Inner Run) frame clauses generalizing
    deep with
  | case1 test actions rest last =>
      rw [evaluator.walk_of_else frame last]
      exact evaluator.act_continued frame (by omega) actions
  | case2 test actions rest ordinary ih =>
      simp only [List.length_cons] at enough
      obtain ⟨less, rfl⟩ : ∃ less, deep = less + 4 := ⟨deep - 4, by omega⟩
      rw [evaluator.walk_succ frame ordinary, ← evaluator.evaluate_above (less + 4) 1]
      refine test_continues frame (evaluator.deepens_above (by omega)) test fun decided => ?_
      split
      · exact evaluator.act_continued frame (by omega) actions
      · exact ih less (by omega)
  | case3 clauses unlike =>
      unfold walk
      split
      · next _ test actions rest => exact (unlike test actions rest rfl).elim
      · contradiction
      · exact .refl _ fun _ => trivial

end Outcomes

end Evaluator

/-! What a run of the form evaluates. -/

/-- Where an expression stands among clauses: the number of its clause, and its own number in that
clause. The predicate of a clause has the number zero and its actions have those behind. -/
abbrev ClausePlace := Nat × Nat

def ClausePlace.Before (here there : ClausePlace) : Prop :=
  here.1 < there.1 ∨ here.1 = there.1 ∧ here.2 < there.2

def partAt? (clauses : List Value) (place : ClausePlace) : Option Value :=
  match clauses[place.1]? with
  | some (.list items) => items[place.2]?
  | _ => none

/-- Code that is the form itself or has been made of it, and is none of its predicates and actions.
-/
inductive ClauseCode (clauses : List Value) : Value → Prop where
  | form : ClauseCode clauses (.list (.sym "cond" :: clauses))
  | conditional (test : Value) (actions rest : List Value)
      (behind : .list (test :: actions) :: rest <:+ clauses) :
      ClauseCode clauses (.list [.sym "if", test, Derived.body actions, Derived.condTree rest])
  | body (test : Value) (actions : List Value) (clause : .list (test :: actions) ∈ clauses)
      (several : actions.length ≠ 1) : ClauseCode clauses (Derived.body actions)
  | untaken : ClauseCode clauses (.bool false)

/-- From the first recording on, up to the second, a run of the form has evaluated the predicates
and actions at these places, in this order, each in the frame of the form. Besides, suspensions have
been forced and code that is the form's own has begun and ended. -/
inductive Visits (evaluator : Evaluator) (frame : FrameId) (clauses : List Value) (r : Recording) :
    List ClausePlace → Recording → Prop where
  | start : Visits evaluator frame clauses r [] r
  | part {places : List ClausePlace} {s : Recording} (limit : Nat) (place : ClausePlace)
      (code : Value)
      (before : Visits evaluator frame clauses r places s)
        (found : partAt? clauses place = some code) :
      Visits evaluator frame clauses r (places ++ [place])
        ((evaluator.run limit (.evaluate code frame) : Recorded Value).on s).2
  | force {places : List ClausePlace} {s : Recording} (limit : Nat) (id : ThunkId)
      (before : Visits evaluator frame clauses r places s) :
      Visits evaluator frame clauses r places
        ((evaluator.run limit (.force id) : Recorded Value).on s).2
  | began {places : List ClausePlace} {s : Recording} (code : Value) (own : ClauseCode clauses code)
      (before : Visits evaluator frame clauses r places s) :
      Visits evaluator frame clauses r places (s.beginning (.evaluate code frame))
  | ended {places : List ClausePlace} {s : Recording} (code : Value) (own : ClauseCode clauses code)
      (first : Store)
      (outcome : Except Failure Value) (before : Visits evaluator frame clauses r places s) :
      Visits evaluator frame clauses r places (s.ending (.evaluate code frame) first outcome)

theorem Visits.trans {evaluator : Evaluator} {frame : FrameId} {clauses : List Value}
    {r s t : Recording} {places others : List ClausePlace}
    (first : Visits evaluator frame clauses r places s)
    (second : Visits evaluator frame clauses s others t) :
    Visits evaluator frame clauses r (places ++ others) t := by
  induction second with
  | start => rwa [List.append_nil]
  | part limit place code _ found ih =>
      rw [← List.append_assoc]; exact .part limit place code ih found
  | force limit id _ ih => exact .force limit id ih
  | began code own _ ih => exact .began code own ih
  | ended code own first outcome _ ih => exact .ended code own first outcome ih

/-- Wherever the computation starts it evaluates parts in a region only, each at most once and one
after the other. -/
def Evaluator.KeepsTo {α : Type} (evaluator : Evaluator) (frame : FrameId) (clauses : List Value)
    (region : ClausePlace → Prop) (computation : Recorded α) : Prop :=
  ∀ r, ∃ places : List ClausePlace,
    places.Pairwise ClausePlace.Before ∧ (∀ place ∈ places, region place) ∧
    Visits evaluator frame clauses r places (computation.on r).2

section Regions

variable {α β : Type} {evaluator : Evaluator} {frame : FrameId} {clauses : List Value}
  {region : ClausePlace → Prop}

namespace Evaluator.KeepsTo

theorem pure (v : α) : evaluator.KeepsTo frame clauses region (Pure.pure v : Recorded α) :=
  fun _ => ⟨[], .nil, nofun, .start⟩

theorem bind (early late : ClausePlace → Prop) {first : Recorded α} {next : α → Recorded β}
    (keeps : evaluator.KeepsTo frame clauses early first)
    (behind : ∀ v, evaluator.KeepsTo frame clauses late (next v))
    (ordered : ∀ here there, early here → late there → here.Before there)
    (within : ∀ place, early place ∨ late place → region place) :
    evaluator.KeepsTo frame clauses region (first >>= next) := by
  intro r
  obtain ⟨places, sorted, inside, visits⟩ := keeps r
  rw [Recorded.on_bind]
  cases ran : first.on r with
  | mk outcome s =>
      rw [ran] at visits
      cases outcome with
      | error failure =>
          exact ⟨places, sorted, fun place member => within place (.inl (inside place member)),
            visits⟩
      | ok v =>
          obtain ⟨others, sorted', inside', visits'⟩ := behind v s
          refine ⟨places ++ others, ?_, fun place member => ?_, visits.trans visits'⟩
          · exact List.pairwise_append.mpr ⟨sorted, sorted', fun here member there member' =>
              ordered here there (inside here member) (inside' there member')⟩
          · exact within place ((List.mem_append.mp member).imp (inside place) (inside' place))

theorem mono {smaller : ClausePlace → Prop} {computation : Recorded α}
    (keeps : evaluator.KeepsTo frame clauses smaller computation)
    (within : ∀ place, smaller place → region place) :
    evaluator.KeepsTo frame clauses region computation := by
  intro r
  obtain ⟨places, sorted, inside, visits⟩ := keeps r
  exact ⟨places, sorted, fun place member => within place (inside place member), visits⟩

theorem passed (task : Task) : evaluator.KeepsTo frame clauses region (evaluator.run 0 task) :=
  fun _ => ⟨[], .nil, nofun, .start⟩

theorem part (limit : Nat) (place : ClausePlace) {code : Value}
    (found : partAt? clauses place = some code) (within : region place) :
    evaluator.KeepsTo frame clauses region (evaluator.run limit (.evaluate code frame)) := by
  intro r
  refine ⟨[place], List.pairwise_singleton _ _, fun other member => ?_,
    .part limit place code .start found⟩
  exact List.mem_singleton.mp member ▸ within

theorem concrete (limit calls : Nat) (v : Value) :
    evaluator.KeepsTo frame clauses region
      (Inner.concrete ((evaluator.stack limit).above calls) v) := by
  cases v with
  | thunk id =>
      change evaluator.KeepsTo frame clauses region
        ((evaluator.stack limit).above calls (.force id))
      rw [above_stack]
      exact fun r => ⟨[], .nil, nofun, .force _ id .start⟩
  | _ => exact .pure _

theorem form {word : String} {form : Form} {operands : List Value}
    (own : ClauseCode clauses (.list (.sym word :: operands)))
    (found : evaluator.forms.find? word = some form)
    (keeps : ∀ limit, evaluator.KeepsTo frame clauses region
      (form.run ((evaluator.stack limit).above form.calls) frame operands))
    (limit : Nat) : evaluator.KeepsTo frame clauses region
      (evaluator.run limit (.evaluate (.list (.sym word :: operands)) frame)) := by
  cases limit with
  | zero => exact .passed _
  | succ limit =>
      intro r
      obtain ⟨places, sorted, inside, visits⟩ :=
        keeps limit (r.beginning (.evaluate (.list (.sym word :: operands)) frame))
      refine ⟨places, sorted, inside, ?_⟩
      rw [on_form found rfl]
      exact .ended _ own _ _ ((Visits.began _ own .start).trans visits)

theorem itself {code : Value} (own : ClauseCode clauses code) (fixed : code.isSelfEvaluating = true)
    (limit : Nat) :
    evaluator.KeepsTo frame clauses region (evaluator.run limit (.evaluate code frame)) := by
  cases limit with
  | zero => exact .passed _
  | succ limit =>
      intro r
      have ran : (evaluator.run (limit + 1) (.evaluate code frame) : Recorded Value).on r =
          (.ok code, (r.beginning (.evaluate code frame)).ending (.evaluate code frame) r.store
            (.ok code)) := by
        cases code with
        | list items => cases items with
          | nil => rfl
          | cons _ _ => cases fixed
        | _ => first | rfl | cases fixed
      refine ⟨[], .nil, nofun, ?_⟩
      rw [ran]
      exact .ended code own _ _ (.began code own .start)

theorem sequence (limit calls clause : Nat) (actions : List Value) (first : Nat)
    (stand : ∀ k code, actions[k]? = some code → partAt? clauses (clause, first + k) = some code) :
    evaluator.KeepsTo frame clauses (fun place => place.1 = clause ∧ first ≤ place.2)
      (Inner.sequence ((evaluator.stack limit).above calls) frame actions) := by
  have evaluates (k : Nat) (code : Value) (found : partAt? clauses (clause, k) = some code)
      (region : ClausePlace → Prop) (within : region (clause, k)) :
      evaluator.KeepsTo frame clauses region
        (Inner.evaluate ((evaluator.stack limit).above calls) code frame) := by
    rw [evaluate_above]
    exact .part _ _ found within
  induction actions generalizing first with
  | nil => exact .pure _
  | cons action rest ih =>
      have here : partAt? clauses (clause, first) = some action := stand 0 action rfl
      cases rest with
      | nil => exact evaluates first action here _ ⟨rfl, le_rfl⟩
      | cons next behind =>
          have later := ih (first + 1) fun k code at_ => by
            rw [Nat.add_right_comm]
            exact stand (k + 1) code at_
          refine .bind (· = (clause, first)) _ (evaluates first action here _ rfl)
            (fun _ => later) ?_ ?_
          · rintro _ there rfl ⟨same, behind⟩
            exact .inr ⟨same.symm, behind⟩
          · rintro place (rfl | ⟨same, behind⟩)
            · exact ⟨rfl, le_rfl⟩
            · exact ⟨same, by omega⟩

theorem body (sequences : evaluator.forms.find? "begin" = some .sequence) (limit clause : Nat)
    (test : Value) (actions : List Value)
    (at_ : clauses[clause]? = some (.list (test :: actions))) :
    evaluator.KeepsTo frame clauses (fun place => place.1 = clause ∧ 1 ≤ place.2)
      (evaluator.run limit (.evaluate (Derived.body actions) frame)) := by
  have own (several : actions.length ≠ 1) : ClauseCode clauses (Derived.body actions) :=
    .body test actions (List.mem_of_getElem? at_) several
  have stand (k : Nat) (code : Value) (found : actions[k]? = some code) :
      partAt? clauses (clause, 1 + k) = some code := by
    simpa [partAt?, at_, Nat.add_comm 1 k] using found
  match actions with
  | [] => exact .itself (own (by simp)) rfl limit
  | [action] => exact .part limit (clause, 1) (stand 0 action rfl) ⟨rfl, le_rfl⟩
  | first :: second :: rest =>
      exact .form (own (by simp)) sequences (fun limit => .sequence limit 2 clause _ 1 stand) limit

theorem condTree (sequences : evaluator.forms.find? "begin" = some .sequence)
    (conditionals : evaluator.forms.find? "if" = some .conditional) (limit : Nat)
    (behind : List Value) (clause : Nat) (rest : clauses.drop clause = behind) :
    evaluator.KeepsTo frame clauses (fun place => clause ≤ place.1)
      (evaluator.run limit (.evaluate (Derived.condTree behind) frame)) := by
  have starts {first : Value} {others : List Value} {clause : Nat}
      (rest : clauses.drop clause = first :: others) :
      clauses[clause]? = some first := by
    rw [← Nat.add_zero clause, ← List.getElem?_drop, rest]
    rfl
  -- on the clauses that are left, of which the first stands at `clause`
  fun_induction Derived.condTree behind generalizing limit clause with
  | case1 test actions behind last =>
      exact (body sequences limit clause test actions (starts rest)).mono fun place inside =>
        Nat.le_of_eq inside.1.symm
  | case2 test actions behind ordinary ih =>
      have at_ := starts rest
      have own : ClauseCode clauses (.list [.sym "if", test, Derived.body actions,
          Derived.condTree behind]) :=
        .conditional test actions behind (rest ▸ List.drop_suffix clause clauses)
      have tested : partAt? clauses (clause, 0) = some test := by simp [partAt?, at_]
      refine .form own conditionals (fun limit => ?_) limit
      have later : clauses.drop (clause + 1) = behind := by rw [← List.drop_drop, rest]; rfl
      simp only [Form.run, Form.runConditional, evaluate_above]
      refine .bind (· = (clause, 0)) (ClausePlace.Before (clause, 0)) (.part _ _ tested rfl)
        (fun v => ?_) (fun here there same before => same ▸ before) fun place => ?_
      · refine .bind (fun _ => False) _ (.concrete limit _ v) (fun decided => ?_)
          (fun _ _ none => none.elim) fun _ => (·.resolve_left id)
        split
        · exact (body sequences _ clause test actions at_).mono fun place inside =>
            .inr ⟨inside.1.symm, inside.2⟩
        · exact (ih _ (clause + 1) later).mono fun place inside => .inl inside
      · rintro (rfl | before | ⟨same, _⟩)
        · exact le_rfl
        · exact Nat.le_of_lt before
        · exact Nat.le_of_eq same
  | case3 clauses unlike => exact .itself .untaken rfl limit

end Evaluator.KeepsTo

end Regions

/-! The whole form. -/

def condForm (clauses : List Value) : Value := .list (.sym "cond" :: clauses)

theorem ClausesShape.passes {clauses : List Value} (shape : ClausesShape clauses)
    (all : List Value) :
    Derived.checkClauses all clauses = .ok () := by
  induction shape with
  | none => rfl
  | last test actions => simp [Derived.checkClauses]
  | next test actions rest ordinary _ ih =>
      have usual : Derived.isElse test = false := by
        rw [← Bool.not_eq_true, isElse_eq_true]
        exact ordinary
      simpa [Derived.checkClauses, usual] using ih

theorem Derived.expand_cond {clauses : List Value} (shape : ClausesShape clauses) :
    cond.expand clauses = .ok (condTree clauses) := by
  simp [expand, expandCond, shape.passes, bind, Except.bind, pure, Except.pure]

structure CondWalks (evaluator : Evaluator) (frame : FrameId) (clauses : List Value) : Prop where
  /-- the first clause that is true is taken, under limits that are not passed -/
  takes (limit : Nat) : (evaluator.run limit (.evaluate (condForm clauses) frame) :
    Run Value).ContinuedBy
    (fun _ => True) (Inner.takeClause (evaluator.run limit) frame clauses)
  taken (limit : Nat) : (Inner.takeClause (evaluator.run limit) frame clauses :
    Run Value).ContinuedBy (fun _ => True)
    (evaluator.run (limit + 4 * clauses.length + 9) (.evaluate (condForm clauses) frame))
  /-- and under every limit, by the room that each clause is left -/
  walks (limit : Nat) : (evaluator.run (limit + 1) (.evaluate (condForm clauses) frame) :
    Run Value) =
    evaluator.walk frame (limit - 3) clauses
  /-- no predicate and no action is evaluated twice, and none before one that stands in front of it
  -/
  once (limit : Nat) (r : Recording) : ∃ places : List ClausePlace,
    places.Pairwise ClausePlace.Before ∧
    Visits evaluator frame clauses r places
      ((evaluator.run limit (.evaluate (condForm clauses) frame) : Recorded Value).on r).2

/-- `cond` goes through its clauses from the left and takes the first whose predicate is true. -/
theorem cond_takes_first_true (strategy : Strategy) (added : AddedActions) (frame : FrameId)
    (clauses : List Value) (shape : ClausesShape clauses) :
    CondWalks ⟨FormTable.full, strategy, added⟩ frame clauses := by
  let evaluator : Evaluator := ⟨FormTable.full, strategy, added⟩
  have expanded := Derived.expand_cond shape
  have walks (limit : Nat) : (evaluator.run (limit + 1) (.evaluate (condForm clauses) frame) :
      Run Value) =
      evaluator.walk frame (limit - 3) clauses := by
    rw [condForm, evaluator.run_derived limit frame "cond" .cond _ _ rfl expanded,
      evaluator.run_condTree frame rfl rfl]
  refine ⟨fun limit => ?_, fun limit => ?_, walks, fun limit r => ?_⟩
  · cases limit with
    | zero => exact fun _ within => absurd rfl within
    | succ limit => exact walks limit ▸ evaluator.walk_continues frame (by omega) clauses
  · rw [walks]
    exact evaluator.walk_continued frame clauses (by omega)
  · have keeps : evaluator.KeepsTo frame clauses (fun _ => True)
        (evaluator.run limit (.evaluate (condForm clauses) frame)) := by
      have found : evaluator.forms.find? "cond" = some (.derived .cond) := rfl
      refine .form .form found (fun limit => ?_) limit
      simp only [Form.run, expanded]
      change evaluator.KeepsTo frame clauses _
        (Inner.evaluate ((evaluator.stack limit).above 1) _ frame)
      rw [evaluator.evaluate_above]
      exact (Evaluator.KeepsTo.condTree rfl rfl _ clauses 0 rfl).mono fun _ _ => trivial
    obtain ⟨places, sorted, _, visits⟩ := keeps r
    exact ⟨places, sorted, visits⟩

def definingClauses : List Value :=
  [.list [.list [.sym "begin", .list [.sym "define", .sym "n", .int 1], .bool false], .int 5],
    .list [.sym "n"], .list [.sym "else", .int 7]]

theorem cond_takes_first_true_defining :
    let evaluator : Evaluator := ⟨FormTable.full, .lazy, fun _ _ => return .nil⟩
    ClausesShape definingClauses ∧ CondWalks evaluator 0 definingClauses ∧
      ((evaluator.run 31 (.evaluate (condForm definingClauses) 0) : Run Value).on
        { frames := #[{}] }).1 =
        .ok .nil := by
  intro evaluator
  have shape : ClausesShape definingClauses := .next _ _ _ (by simp)
    (.next _ _ _ (by simp) (.last _ _))
  have walks := cond_takes_first_true .lazy (fun _ _ => return .nil) 0 definingClauses shape
  refine ⟨shape, walks, ?_⟩
  have walked : ((evaluator.walk 0 27 definingClauses : Run Value).on { frames := #[{}] }).1 =
    .ok .nil := by cbv
  rw [walks.walks 30]
  exact walked

end ThunkLisp
