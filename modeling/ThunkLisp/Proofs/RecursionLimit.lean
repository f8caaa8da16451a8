import Mathlib
import ThunkLisp.Proofs.Couplings

/-!
The limit on nesting. It can only turn an answer into the failure of passing it: nothing catches
that failure and nothing looks at the limit, so what ends otherwise under a limit ends alike under
every greater one. The same holds of reading, where the limit is on forms inside each other.
-/

namespace ThunkLisp

open Machine (effect)

namespace Run

variable {α β : Type}

/-- Wherever the first computation does not pass its limit, the second does the same, and the result
meets the condition. -/
def ContinuedBy (post : α → Prop) (x y : Run α) : Prop :=
  ∀ store, (x.on store).1 ≠ .error .recursion → y.on store = x.on store ∧
    ∀ v, (x.on store).1 = .ok v → post v

theorem ContinuedBy.refl {post : α → Prop} (x : Run α) (always : ∀ v, post v) :
    x.ContinuedBy post x :=
  fun _ _ => ⟨rfl, fun v _ => always v⟩

/-- The failure of passing the limit ends a computation, so it has not come up on the way to another
end. -/
theorem ContinuedBy.bind {between : α → Prop} {post : β → Prop} {x y : Run α}
    {next following : α → Run β} (first : x.ContinuedBy between y)
    (behind : ∀ v, between v → (next v).ContinuedBy post (following v)) :
    (x >>= next).ContinuedBy post (y >>= following) := by
  intro store within
  rw [on_bind] at within
  rw [on_bind, on_bind]
  cases ran : x.on store with
  | mk outcome after =>
      simp only [ran] at within
      -- had the first part passed the limit, the whole would have
      have kept : (x.on store).1 ≠ .error .recursion := by
        rw [ran]
        rintro rfl
        exact within rfl
      obtain ⟨same, answer⟩ := first store kept
      rw [same, ran]
      cases outcome with
      | error failure => exact ⟨rfl, nofun⟩
      | ok v => exact behind v (answer v (by rw [ran])) after within

end Run

/-- Runs under a limit beside runs under a greater one. Any code and any values may come up. -/
def deepening : Coupling Run Run where
  holds post x y := x.ContinuedBy post y
  does _ x y := x.ContinuedBy (fun _ => True) y
  code _ := True
  value _ := True
  fails _ := True

theorem concrete_continues {inner inner' : Inner Run} (related : deepening.InnerHolds inner inner')
    (v : Value) : (inner.concrete v).ContinuedBy (fun _ => True) (inner'.concrete v) := by
  cases v with
  | thunk id => exact related (.force id) trivial
  | _ => exact .refl _ fun _ => trivial

theorem deepening_lawful (evaluator : Evaluator) : deepening.Lawful evaluator where
  toCodeLaws := .all _
  gives holds := fun _ _ => ⟨rfl, fun _ same => Except.ok.inj same ▸ holds⟩
  chains := .bind
  finishes := id
  chainsEnd := .bind
  effectGives holds := fun _ _ => ⟨rfl, fun _ same => Except.ok.inj same ▸ holds⟩
  effectChains := .bind
  refuses _ := fun _ _ => ⟨rfl, nofun⟩
  lookup _ _ := .refl _ fun _ => trivial
  check _ _ _ _ := .refl _ fun _ => trivial
  assign _ _ _ _ _ _ := .refl _ fun _ => trivial
  define _ _ _ _ _ _ := .refl _ fun _ => trivial
  identity := .refl _ fun _ => trivial
  suspend _ _ _ _ := .refl _ fun _ => trivial
  enter _ _ _ _ := .refl _ fun _ => trivial
  perform _ _ _ _ := .refl _ fun _ => trivial
  force inner inner' id related := by
    refine .bind (.refl _ fun _ => trivial) fun suspension (_ : True) => ?_
    split
    · exact .refl _ fun _ => trivial
    · next code home kept =>
        refine .bind (related (.evaluate code home) trivial) fun v _ => ?_
        refine .bind (concrete_continues related v) fun w _ => ?_
        split
        · exact .refl _ fun _ => trivial
        · exact .refl _ fun _ => trivial

namespace Evaluator

theorem run_continues (evaluator : Evaluator) (limit limit' : Nat) (le : limit ≤ limit')
    (task : Task) :
    (evaluator.run limit task : Run Value).ContinuedBy (fun _ => True)
    (evaluator.run limit' task) := by
  induction limit using Nat.strongRecOn generalizing limit' task with
  | ind limit ih =>
      cases limit with
      | zero => exact fun _ within => absurd rfl within
      | succ limit =>
          -- after any calls the greater limit leaves at least as much room for the tasks inside
          obtain ⟨less, rfl⟩ : ∃ less, limit' = less + 1 := ⟨limit' - 1, by omega⟩
          have inside : deepening.StackHolds (evaluator.stack limit) (evaluator.stack less) := by
            intro calls task _
            rw [stack_eq_run, stack_eq_run]
            exact ih (limit - calls) (by omega) (less - calls) (by omega) task
          have ready : deepening.ready task := by cases task <;> trivial
          exact (deepening_lawful evaluator).step_does inside task ready

section Deeper

variable (evaluator : Evaluator) {limit limit' : Nat} (le : limit ≤ limit')

include le

theorem deepens : deepening.InnerHolds (evaluator.run limit) (evaluator.run limit') :=
  fun task _ => evaluator.run_continues limit limit' le task

theorem above_deepens (calls : Nat) :
    deepening.InnerHolds ((evaluator.stack limit).above calls) (evaluator.run limit') := by
  intro task _
  rw [above_stack]
  exact evaluator.run_continues _ limit' (by omega) task

end Deeper

theorem deepens_above (evaluator : Evaluator) {limit limit' calls : Nat}
    (enough : limit + calls + 2 ≤ limit') :
    deepening.InnerHolds (evaluator.run limit) ((evaluator.stack limit').above calls) := by
  intro task _
  have few : task.calls ≤ 2 := by cases task <;> simp [Task.calls]
  rw [above_stack]
  exact evaluator.run_continues limit _ (by omega) task

end Evaluator

/-! Reading. -/

namespace Reader

theorem take_of_le {limit limit' : Nat} (le : limit ≤ limit') (levels : List Level) (token : Token)
    (within : take limit levels token ≠ .error .recursion) :
      take limit' levels token = take limit levels token := by
  unfold take at within ⊢
  split
  · rfl
  · by_cases inside : levels.length < limit
    · rw [if_pos inside, if_pos (Nat.lt_of_lt_of_le inside le)]
    · simp [inside] at within

theorem readForm_of_le {limit limit' : Nat} (le : limit ≤ limit') (levels : List Level)
    (tokens : List Token) (within : ∀ rest, readForm limit levels tokens ≠
    .failed .recursion rest) :
    readForm limit' levels tokens = readForm limit levels tokens := by
  induction tokens generalizing levels with
  | nil => rfl
  | cons token rest ih =>
      simp only [readForm] at within ⊢
      have taken : take limit levels token ≠ .error .recursion := by
        intro deep
        exact within rest (by rw [deep])
      rw [take_of_le le levels token taken]
      cases next : take limit levels token with
      | error failure => rfl
      | ok progress =>
          simp only [next] at within ⊢
          cases progress with
          | complete form => rfl
          | within inner => exact ih inner within

theorem readForms_of_le {limit limit' : Nat} (le : limit ≤ limit') (done : List Value)
    (levels : List Level) (tokens : List Token)
    (within : ∀ rest, readForms limit done levels tokens ≠ .failed .recursion rest) :
    readForms limit' done levels tokens = readForms limit done levels tokens := by
  induction tokens generalizing done levels with
  | nil => rfl
  | cons token rest ih =>
      simp only [readForms] at within ⊢
      have taken : take limit levels token ≠ .error .recursion := by
        intro deep
        exact within rest (by rw [deep])
      rw [take_of_le le levels token taken]
      cases next : take limit levels token with
      | error failure => rfl
      | ok progress =>
          simp only [next] at within ⊢
          cases progress with
          | complete form => exact ih (form :: done) [] within
          | within inner => exact ih done inner within

end Reader

namespace TokenStream

theorem parseForm_of_le {limit limit' : Nat} (le : limit ≤ limit') (stream : TokenStream)
    (within : (stream.parseForm limit).1 ≠ .error .recursion) :
      stream.parseForm limit' = stream.parseForm limit := by
  unfold parseForm at within ⊢
  rw [Reader.readForm_of_le le]
  intro rest failed
  exact within (by rw [failed])

theorem parseAll_of_le {limit limit' : Nat} (le : limit ≤ limit') (stream : TokenStream)
    (within : (stream.parseAll limit).1 ≠ .error .recursion) :
      stream.parseAll limit' = stream.parseAll limit := by
  unfold parseAll at within ⊢
  rw [Reader.readForms_of_le le]
  intro rest failed
  exact within (by rw [failed])

end TokenStream

/-- Under a greater limit whatever does not pass the lesser one ends with the same value or failure
in the same store, with the same printed; and a stream or text is read to the same forms and the
same rest. -/
theorem greater_limit_agrees (limit limit' : Nat) (le : limit ≤ limit') :
    (∀ (evaluator : Evaluator) (task : Task) (store : Store),
      ((evaluator.run limit task : Run Value).on store).1 ≠ .error .recursion →
        (evaluator.run limit' task : Run Value).on store =
          (evaluator.run limit task : Run Value).on store) ∧
    (∀ stream : TokenStream, (stream.parseForm limit).1 ≠ .error .recursion →
      stream.parseForm limit' = stream.parseForm limit) ∧
    (∀ stream : TokenStream, (stream.parseAll limit).1 ≠ .error .recursion →
      stream.parseAll limit' = stream.parseAll limit) ∧
    ∀ source, readAllWithin limit source ≠ .error .recursion →
      readAllWithin limit' source = readAllWithin limit source := by
  refine ⟨fun evaluator task store within => ?_, fun stream => stream.parseForm_of_le le,
    fun stream => stream.parseAll_of_le le, fun source within => ?_⟩
  · exact (evaluator.run_continues limit limit' le task store within).1
  · unfold readAllWithin at within ⊢
    rw [TokenStream.parseAll_of_le le _ within]

/-- A call whose argument is not used evaluates its body behind five calls. -/
theorem greater_limit_agrees_unused :
    let lazily : Evaluator := ⟨FormTable.full, .lazy, fun _ _ => return .nil⟩
    let call : Value := .list [.list [.sym "lambda", .list [.sym "x"], .int 7], .sym "missing"]
    ((lazily.run 7 (.evaluate call 0) : Run Value).on {}).1 = .ok (.int 7) ∧
      ((lazily.run evaluationLimit (.evaluate call 0) : Run Value).on {}).1 = .ok (.int 7) ∧
      readAllWithin 7 "(f x)" = .ok [.list [.sym "f", .sym "x"]] ∧
      readAllWithin readLimit "(f x)" = .ok [.list [.sym "f", .sym "x"]] := by
  intro lazily call
  have nested : ((lazily.run 7 (.evaluate call 0) : Run Value).on {}).1 = .ok (.int 7) := rfl
  have read : readAllWithin 7 "(f x)" = .ok [.list [.sym "f", .sym "x"]] := by cbv
  obtain ⟨evaluates, -, -, reads⟩ := greater_limit_agrees 7 evaluationLimit (by decide)
  refine ⟨nested, ?_, read, ?_⟩
  · rw [evaluates lazily (.evaluate call 0) {} (by rw [nested]; rintro ⟨⟩)]
    exact nested
  · have same := reads "(f x)" (by rw [read]; rintro ⟨⟩)
    rw [read] at same
    exact same

end ThunkLisp
