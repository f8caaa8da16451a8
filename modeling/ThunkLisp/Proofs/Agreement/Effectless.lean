import ThunkLisp.Evaluator
import ThunkLisp.Proofs.Expansion
import ThunkLisp.Proofs.Readable

/-!
Expressions without effects: constants, variables, quotations, conditionals, procedures, sequences,
and what is derived from these and from applications, but no definitions and no assignments.
Expanding a derived form of them gives one of them again.
-/

namespace ThunkLisp

open Value (Every)

namespace Derived

def clauseForm (clause : Value × List Value) : Value := .list (clause.1 :: clause.2)

end Derived

inductive Effectless : Value → Prop where
  | constant (v : Value) (flat : v.isList = false) (readable : v.isReadable = true) : Effectless v
  | empty : Effectless (.list [])
  | quotation (datum : Value) (readable : Readable datum) : Effectless (.list [.sym "quote", datum])
  | conditional (operands : List Value) (each : ∀ code ∈ operands, Effectless code) :
      Effectless (.list (.sym "if" :: operands))
  | procedure (spec : Value) (body : List Value) (each : ∀ code ∈ body, Effectless code) :
      Effectless (.list (.sym "lambda" :: spec :: body))
  | sequence (forms : List Value) (each : ∀ code ∈ forms, Effectless code) :
      Effectless (.list (.sym "begin" :: forms))
  | cond (clauses : List (Value × List Value)) (tests : ∀ clause ∈ clauses, Effectless clause.1)
      (actions : ∀ clause ∈ clauses, ∀ code ∈ clause.2, Effectless code) :
      Effectless (.list (.sym "cond" :: clauses.map Derived.clauseForm))
  | conjunction (operands : List Value) (each : ∀ code ∈ operands, Effectless code) :
      Effectless (.list (.sym "and" :: operands))
  | disjunction (operands : List Value) (each : ∀ code ∈ operands, Effectless code) :
      Effectless (.list (.sym "or" :: operands))
  | exception (operands : List Value) (each : ∀ code ∈ operands, Effectless code) :
      Effectless (.list (.sym "unless" :: operands))
  | scope (entries : List (String × Value)) (forms : List Value)
      (values : ∀ entry ∈ entries, Effectless entry.2) (each : ∀ code ∈ forms, Effectless code) :
      Effectless (.list (.sym "let" :: .list (entries.map Derived.entryForm) :: forms))
  | scopes (entries : List (String × Value)) (forms : List Value)
      (values : ∀ entry ∈ entries, Effectless entry.2) (each : ∀ code ∈ forms, Effectless code) :
      Effectless (.list (.sym "let*" :: .list (entries.map Derived.entryForm) :: forms))
  | application (head : Value) (operands : List Value)
      (ordinary : ∀ name, head = .sym name → FormTable.full.find? name = none)
        (first : Effectless head)
      (each : ∀ code ∈ operands, Effectless code) : Effectless (.list (head :: operands))

namespace Effectless

open Derived

theorem of_body (forms : List Value) (each : ∀ code ∈ forms, Effectless code) :
    Effectless (body forms) := by
  match forms, each with
  | [], _ => exact .constant .nil rfl rfl
  | [form], each => exact each form (by simp)
  | first :: second :: rest, each => exact .sequence _ each

theorem of_condTree (clauses : List (Value × List Value))
    (tests : ∀ clause ∈ clauses, Effectless clause.1)
    (actions : ∀ clause ∈ clauses, ∀ code ∈ clause.2, Effectless code) :
    Effectless (condTree (clauses.map clauseForm)) := by
  induction clauses with
  | nil => exact .constant (.bool false) rfl rfl
  | cons clause rest ih =>
      have taken := of_body clause.2 (actions clause (by simp))
      have behind := ih (fun found member => tests found (by simp [member]))
        fun found member => actions found (by simp [member])
      simp only [List.map_cons, clauseForm, condTree] at behind ⊢
      split
      · exact taken
      · refine .conditional _ fun code member => ?_
        simp only [List.mem_cons, List.not_mem_nil, or_false] at member
        rcases member with rfl | rfl | rfl
        · exact tests clause (by simp)
        · exact taken
        · exact behind

theorem of_conjunction (forms : List Value) (each : ∀ code ∈ forms, Effectless code) :
    Effectless (expandConjunction forms) := by
  fun_induction expandConjunction forms with
  | case1 => exact .constant (.bool true) rfl rfl
  | case2 form => exact each form (by simp)
  | case3 form rest _ ih =>
      have first := each form (by simp)
      have behind := ih fun code member => each code (by simp [member])
      refine .conditional _ fun code member => ?_
      simp only [List.mem_cons, List.not_mem_nil, or_false] at member
      rcases member with rfl | rfl | rfl <;> assumption

theorem of_disjunction (forms : List Value) (each : ∀ code ∈ forms, Effectless code) :
    Effectless (expandDisjunction forms) := by
  fun_induction expandDisjunction forms with
  | case1 => exact .constant .nil rfl rfl
  | case2 form => exact each form (by simp)
  | case3 form rest _ ih =>
      have first := each form (by simp)
      have behind := ih fun code member => each code (by simp [member])
      refine .conditional _ fun code member => ?_
      simp only [List.mem_cons, List.not_mem_nil, or_false] at member
      rcases member with rfl | rfl | rfl <;> assumption

theorem of_unless (operands : List Value) (code : Value) (each : ∀ form ∈ operands, Effectless form)
    (expanded : expandUnless operands = .ok code) : Effectless code := by
  have missing : Effectless .nil := .constant .nil rfl rfl
  unfold expandUnless at expanded
  split at expanded
  · cases expanded
    exact .conditional _ (by simp_all)
  · cases expanded
    exact .conditional _ (by simp_all)
  · cases expanded

theorem of_letCall (entries : List (String × Value)) (forms : List Value)
    (values : ∀ entry ∈ entries, Effectless entry.2) (each : ∀ code ∈ forms, Effectless code) :
    Effectless (letCall entries forms) := by
  refine .application _ _ (by simp) (.procedure _ _ each) fun code member => ?_
  obtain ⟨entry, inside, rfl⟩ := List.mem_map.mp member
  exact values entry inside

theorem of_nestLets (entries : List (String × Value)) (forms : List Value)
    (values : ∀ entry ∈ entries, Effectless entry.2) (each : ∀ code ∈ forms, Effectless code) :
    Effectless (nestLets forms (entries.map entryForm)) := by
  match entries, values with
  | [], values => exact .scope [] forms values each
  | [entry], values => exact .scope [entry] forms values each
  | entry :: next :: rest, values =>
      have inner := of_nestLets (next :: rest) forms
        (fun entry member => values entry (by simp [member])) each
      exact .scope [entry] _ (fun found member => values found (by simp_all)) (by simpa using inner)
termination_by entries.length

/-! Whole expansions. -/

theorem of_expandCond (clauses : List (Value × List Value)) (code : Value)
    (tests : ∀ clause ∈ clauses, Effectless clause.1)
    (actions : ∀ clause ∈ clauses, ∀ code ∈ clause.2, Effectless code)
    (expanded : expandCond (clauses.map clauseForm) = .ok code) : Effectless code := by
  unfold expandCond at expanded
  cases checked : checkClauses (clauses.map clauseForm) (clauses.map clauseForm) with
  | error failure => simp [checked, bind, Except.bind] at expanded
  | ok _ =>
      simp only [checked, bind, Except.bind, pure, Except.pure, Except.ok.injEq] at expanded
      subst expanded
      exact of_condTree clauses tests actions

theorem of_expandLet (entries : List (String × Value)) (forms : List Value) (code : Value)
    (values : ∀ entry ∈ entries, Effectless entry.2) (each : ∀ code ∈ forms, Effectless code)
    (expanded : expandNamedLet (.list (entries.map entryForm) :: forms) = .ok code) :
      Effectless code := by
  have split := splitBindings_entryForm entries
  simp only [expandNamedLet, expandLet, splitOperands, split, bind, Except.bind, pure, Except.pure,
    Except.ok.injEq] at expanded
  subst expanded
  exact of_letCall entries forms values each

theorem of_expandLetStar (entries : List (String × Value)) (forms : List Value) (code : Value)
    (values : ∀ entry ∈ entries, Effectless entry.2) (each : ∀ code ∈ forms, Effectless code)
    (expanded : expandLetStar (.list (entries.map entryForm) :: forms) = .ok code) :
      Effectless code := by
  have split := splitBindings_entryForm entries
  simp only [expandLetStar, splitOperands, split, bind, Except.bind, pure, Except.pure,
    Except.ok.injEq] at expanded
  subst expanded
  exact of_nestLets entries forms values each

end Effectless

end ThunkLisp
