import ThunkLisp.Proofs.Code

/-!
What the derived forms expand into, as trees: each expansion that succeeds has the shape of its
form, and all of them but that of `letrec` give code of the same kind again.
-/

namespace ThunkLisp

open Value (Every)

namespace Derived

/-! Shapes. -/

theorem splitBindings_eq (bindings : List Value) (entries : List (String × Value))
    (split : splitBindings bindings = .ok entries) : bindings = entries.map entryForm := by
  induction bindings generalizing entries with
  | nil =>
      cases split
      rfl
  | cons entry rest ih =>
      unfold splitBindings at split
      split at split
      · next nothing => cases nothing
      · next name value behind same =>
          obtain ⟨rfl, rfl⟩ := List.cons.inj same
          cases inner : splitBindings rest with
          | error fault => simp [inner, bind, Except.bind] at split
          | ok found =>
              simp only [inner, bind, Except.bind, pure, Except.pure] at split
              cases split
              simp [ih found inner, entryForm]
      · cases split

theorem splitOperands_eq (form : String) (operands bindings forms : List Value)
    (entries : List (String × Value))
    (split : splitOperands form operands = .ok (bindings, entries, forms)) :
    bindings = entries.map entryForm ∧ operands = .list (entries.map entryForm) :: forms := by
  unfold splitOperands at split
  split at split
  · cases split
  · next found behind =>
      cases inner : splitBindings found with
      | error fault => simp [inner, bind, Except.bind] at split
      | ok all =>
          simp only [inner, bind, Except.bind, pure, Except.pure] at split
          cases split
          have shape := splitBindings_eq _ _ inner
          exact ⟨shape, by rw [← shape]⟩
  · cases split

def letCall (entries : List (String × Value)) (forms : List Value) : Value :=
  .list (.list (.sym "lambda" :: .list (symbols entries) :: forms) :: values entries)

theorem expandLet_eq (operands : List Value) (code : Value)
    (expanded : expandLet operands = .ok code) :
    ∃ (entries : List (String × Value)) (forms : List Value),
      operands = .list (entries.map entryForm) :: forms ∧ code = letCall entries forms := by
  cases split : splitOperands "let" operands with
  | error fault => simp [expandLet, split, bind, Except.bind] at expanded
  | ok found =>
      obtain ⟨bindings, entries, forms⟩ := found
      simp only [expandLet, split, bind, Except.bind, pure, Except.pure] at expanded
      cases expanded
      exact ⟨entries, forms, (splitOperands_eq _ _ _ _ _ split).2, rfl⟩

theorem expandLetStar_eq (operands : List Value) (code : Value)
    (expanded : expandLetStar operands = .ok code) :
    ∃ (entries : List (String × Value)) (forms : List Value),
      operands = .list (entries.map entryForm) :: forms ∧
        code = nestLets forms (entries.map entryForm) := by
  cases split : splitOperands "let*" operands with
  | error fault => simp [expandLetStar, split, bind, Except.bind] at expanded
  | ok found =>
      obtain ⟨bindings, entries, forms⟩ := found
      simp only [expandLetStar, split, bind, Except.bind, pure, Except.pure] at expanded
      cases expanded
      have shape := splitOperands_eq _ _ _ _ _ split
      exact ⟨entries, forms, shape.2, shape.1 ▸ rfl⟩

/-- A procedure that defines the loop and gives it, applied to nothing; the loop is applied to the
initial values. -/
def loopCall (name : String) (entries : List (String × Value)) (forms : List Value) : Value :=
  .list (.list [.list [.sym "lambda", .list [],
    .list (.sym "define" :: .list (.sym name :: symbols entries) :: forms), .sym name]] ::
      values entries)

theorem expandNamedLet_eq (operands : List Value) (code : Value)
    (expanded : expandNamedLet operands = .ok code) :
    (∃ (entries : List (String × Value)) (forms : List Value),
      operands = .list (entries.map entryForm) :: forms ∧ code = letCall entries forms) ∨
      ∃ (name : String) (entries : List (String × Value)) (forms : List Value),
        operands = .sym name :: .list (entries.map entryForm) :: forms ∧
        code = loopCall name entries forms := by
  unfold expandNamedLet at expanded
  split at expanded
  · next name rest =>
      cases split : splitOperands "named let" rest with
      | error fault => simp [split, bind, Except.bind] at expanded
      | ok found =>
          obtain ⟨bindings, entries, forms⟩ := found
          simp only [split, bind, Except.bind, pure, Except.pure] at expanded
          cases expanded
          exact .inr ⟨name, entries, forms, by rw [(splitOperands_eq _ _ _ _ _ split).2], rfl⟩
  · exact .inl (expandLet_eq _ _ expanded)

theorem expandLetrec_eq (operands : List Value) (code : Value)
    (expanded : expandLetrec operands = .ok code) :
    ∃ (entries : List (String × Value)) (forms : List Value),
      operands = .list (entries.map entryForm) :: forms ∧ code = letrecScope entries forms := by
  cases split : splitOperands "letrec" operands with
  | error fault => simp [expandLetrec, split, bind, Except.bind] at expanded
  | ok found =>
      obtain ⟨bindings, entries, forms⟩ := found
      simp only [expandLetrec, split, bind, Except.bind, pure, Except.pure] at expanded
      cases expanded
      exact ⟨entries, forms, (splitOperands_eq _ _ _ _ _ split).2, rfl⟩

theorem splitBindings_entryForm (entries : List (String × Value)) :
    splitBindings (entries.map entryForm) = .ok entries := by
  induction entries with
  | nil => rfl
  | cons entry rest ih => simp [entryForm, splitBindings, bind, Except.bind, pure,
      Except.pure] at ih ⊢; simp [ih]

theorem splitOperands_entries (form : String) (entries : List (String × Value))
    (forms : List Value) :
    splitOperands form (.list (entries.map entryForm) :: forms) =
      .ok (entries.map entryForm, entries, forms) := by
  simp [splitOperands, splitBindings_entryForm, bind, Except.bind, pure, Except.pure]

theorem expand_scope (entries : List (String × Value)) (forms : List Value) :
    namedLet.expand (.list (entries.map entryForm) :: forms) = .ok (letCall entries forms) := by
  simp [expand, expandNamedLet, expandLet, splitOperands_entries, bind, Except.bind, pure,
    Except.pure, letCall]

theorem expand_loop (name : String) (entries : List (String × Value)) (forms : List Value) :
    namedLet.expand (.sym name :: .list (entries.map entryForm) :: forms) =
      .ok (loopCall name entries forms) := by
  simp [expand, expandNamedLet, splitOperands_entries, bind, Except.bind, pure, Except.pure,
    loopCall]

theorem expand_letrec (entries : List (String × Value)) (forms : List Value) :
    letrec.expand (.list (entries.map entryForm) :: forms) = .ok (letrecScope entries forms) := by
  simp [expand, expandLetrec, splitOperands_entries, bind, Except.bind, pure, Except.pure,
    letrecScope, assignments, entryForm, mark]

theorem expand_letrecScope (entries : List (String × Value)) (forms : List Value) :
    expandNamedLet (.list (entries.map fun entry => entryForm (entry.1, mark)) ::
      (assignments entries ++ forms)) = .ok (letrecCall entries forms) := by
  have split := splitBindings_entryForm (entries.map fun entry => (entry.1, mark))
  simp only [List.map_map, Function.comp_def] at split
  simp [expandNamedLet, expandLet, splitOperands, split, bind, Except.bind, pure, Except.pure,
    letrecCall, symbols, values, Function.comp_def]

theorem entryForm_inj (left right : String × Value) (same : entryForm left = entryForm right) :
    left = right := by
  simp only [entryForm, Value.list.injEq, List.cons.injEq, Value.sym.injEq, and_true] at same
  exact Prod.ext same.1 same.2

end Derived

/-! The names of a binding list as a parameter list. -/

theorem parseParamItems_symbols (entries : List (String × Value)) :
    parseParamItems (Derived.symbols entries) =
      .ok (entries.map fun entry => ⟨entry.1, .strict⟩) := by
  induction entries with
  | nil => rfl
  | cons entry rest ih =>
      change parseParamItems (.sym entry.1 :: Derived.symbols rest) = _
      simp [parseParamItems, parseParam, ih, bind, Except.bind, pure, Except.pure]

theorem parseParams_symbols (entries : List (String × Value)) :
    parseParams (.list (Derived.symbols entries)) =
      if (entries.map Prod.fst).Nodup then .ok (entries.map fun entry => ⟨entry.1, .strict⟩)
      else .error (.duplicateParam (.list (Derived.symbols entries))) := by
  have names : (entries.map fun entry => (⟨entry.1, .strict⟩ : Param)).map Param.name =
      entries.map Prod.fst := by
    simp
  simp only [parseParams, parseParamItems_symbols, names, bind, Except.bind]
  split <;> rfl

theorem params_of_symbols (entries : List (String × Value)) (params : List Param)
    (parsed : parseParams (.list (Derived.symbols entries)) = .ok params) :
    params = entries.map fun entry => ⟨entry.1, .strict⟩ := by
  rw [parseParams_symbols] at parsed
  split at parsed
  · cases parsed
    rfl
  · cases parsed

namespace FormTable

theorem mem_of_find? (table : FormTable) (name : String) (form : Form)
    (found : table.find? name = some form) : (name, form) ∈ table := by
  simp only [find?, Option.map_eq_some_iff] at found
  obtain ⟨entry, first, same⟩ := found
  have key : entry.1 = name := by simpa using List.find?_some first
  rw [← key, ← same]
  exact List.mem_of_find?_eq_some first

theorem full_derived (name : String) (form : Derived)
    (found : FormTable.full.find? name = some (.derived form)) :
    (name, form) ∈ [("cond", Derived.cond), ("and", .conjunction), ("or", .disjunction),
      ("unless", .unless), ("let", .namedLet), ("let*", .letStar), ("letrec", .letrec)] := by
  have member := mem_of_find? _ _ _ found
  simpa [FormTable.full, FormTable.core] using member

end FormTable

namespace Code

open Derived

variable {uses : String → Prop} {datum : Value → Prop}

theorem written_values {entries : List (String × Value)}
    (every : Every (Usable uses datum) (.list (entries.map entryForm))) :
    ∀ entry ∈ entries, Code uses datum entry.2 := by
  intro entry member
  have binding := (Value.every_list _).mp every (entryForm entry) (List.mem_map_of_mem member)
  exact .written _ ((Value.every_list _).mp binding entry.2 (by simp))

theorem scope_parts {entries : List (String × Value)} {forms : List Value}
    (whole : Code uses datum (.list (.sym "let" :: .list (entries.map entryForm) :: forms))) :
    (∀ entry ∈ entries, Code uses datum entry.2) ∧ ∀ code ∈ forms, Code uses datum code := by
  generalize same : Value.list (.sym "let" :: .list (entries.map entryForm) :: forms) =
    form at whole
  cases whole with
  | written _ every =>
      subst same
      have items := (Value.every_list _).mp every
      exact ⟨written_values (items _ (by simp)), fun code member =>
        .written code (items code (by simp [member]))⟩
  | scope found behind values each =>
      simp only [Value.list.injEq, List.cons.injEq, true_and] at same
      obtain ⟨shape, rfl⟩ := same
      have equal : entries = found :=
        (List.map_inj_right entryForm_inj).mp shape
      exact ⟨equal ▸ values, each⟩
  | application _ _ compound =>
      simp only [Value.list.injEq, List.cons.injEq] at same
      exact absurd same.1.symm (compound _)
  | _ => simp_all

theorem loop_parts {name : String} {entries : List (String × Value)} {forms : List Value}
    (whole : Code uses datum (.list (.sym "let" :: .sym name :: .list (entries.map entryForm) ::
      forms))) :
    uses name ∧ (∀ entry ∈ entries, Code uses datum entry.2) ∧
      ∀ code ∈ forms, Code uses datum code := by
  generalize same : Value.list (.sym "let" :: .sym name :: .list (entries.map entryForm) :: forms) =
    form
    at whole
  cases whole with
  | written _ every =>
      subst same
      have items := (Value.every_list _).mp every
      exact ⟨((Value.every_sym name).mp (items _ (by simp))).2 name rfl,
        written_values (items _ (by simp)), fun code member =>
          .written code (items code (by simp [member]))⟩
  | application _ _ compound =>
      simp only [Value.list.injEq, List.cons.injEq] at same
      exact absurd same.1.symm (compound _)
  | _ => simp_all

/-! Expansions. -/

theorem words (basics : HasBasics datum) (entries : List (String × Value)) :
    Every datum (.list (symbols entries)) := by
  refine .list _ fun v member => ?_
  obtain ⟨entry, _, rfl⟩ := List.mem_map.mp member
  exact (Value.every_sym _).mpr (basics.sym _)

theorem of_body (basics : HasBasics datum) (forms : List Value)
    (each : ∀ code ∈ forms, Code uses datum code) : Code uses datum (body forms) := by
  match forms, each with
  | [], _ => exact .written .nil ((Value.every_of_flat rfl).mpr ⟨basics.nil, by simp⟩)
  | [form], each => exact each form (by simp)
  | first :: second :: rest, each => exact .sequence _ each

theorem of_condTree (basics : HasBasics datum) (clauses : List Value)
    (each : ∀ clause ∈ clauses, Every (Usable uses datum) clause) :
    Code uses datum (condTree clauses) := by
  have bottom : Code uses datum (.bool false) :=
    .written _ ((Value.every_of_flat rfl).mpr ⟨basics.bool false, by simp⟩)
  fun_induction condTree clauses with
  | case1 test actions rest last =>
      have parts := written_items (each (.list (test :: actions)) (by simp))
      exact of_body basics actions fun code member => parts code (by simp [member])
  | case2 test actions rest later ih =>
      have parts := written_items (each (.list (test :: actions)) (by simp))
      have inner := ih fun clause member => each clause (by simp [member])
      have taken := of_body basics actions fun code member => parts code (by simp [member])
      refine .conditional _ fun code member => ?_
      simp only [List.mem_cons, List.not_mem_nil, or_false] at member
      rcases member with rfl | rfl | rfl
      · exact parts _ (by simp)
      · exact taken
      · exact inner
  | case3 => exact bottom

theorem of_conjunction (basics : HasBasics datum) (forms : List Value)
    (each : ∀ code ∈ forms, Code uses datum code) : Code uses datum (expandConjunction forms) := by
  fun_induction expandConjunction forms with
  | case1 => exact .written _ ((Value.every_of_flat rfl).mpr ⟨basics.bool true, by simp⟩)
  | case2 form => exact each form (by simp)
  | case3 form rest _ ih =>
      have first := each form (by simp)
      have behind := ih fun code member => each code (by simp [member])
      refine .conditional _ fun code member => ?_
      simp only [List.mem_cons, List.not_mem_nil, or_false] at member
      rcases member with rfl | rfl | rfl <;> assumption

theorem of_disjunction (basics : HasBasics datum) (forms : List Value)
    (each : ∀ code ∈ forms, Code uses datum code) : Code uses datum (expandDisjunction forms) := by
  fun_induction expandDisjunction forms with
  | case1 => exact .written _ ((Value.every_of_flat rfl).mpr ⟨basics.nil, by simp⟩)
  | case2 form => exact each form (by simp)
  | case3 form rest _ ih =>
      have first := each form (by simp)
      have behind := ih fun code member => each code (by simp [member])
      refine .conditional _ fun code member => ?_
      simp only [List.mem_cons, List.not_mem_nil, or_false] at member
      rcases member with rfl | rfl | rfl <;> assumption

theorem of_unless (basics : HasBasics datum) (operands : List Value) (code : Value)
    (each : ∀ form ∈ operands, Code uses datum form) (expanded : expandUnless operands = .ok code) :
    Code uses datum code := by
  have missing : Code uses datum .nil :=
    .written _ ((Value.every_of_flat rfl).mpr ⟨basics.nil, by simp⟩)
  unfold expandUnless at expanded
  split at expanded
  · cases expanded
    exact .conditional _ (by simp_all)
  · cases expanded
    exact .conditional _ (by simp_all)
  · cases expanded

theorem of_letCall (basics : HasBasics datum) (entries : List (String × Value)) (forms : List Value)
    (values : ∀ entry ∈ entries, Code uses datum entry.2)
    (each : ∀ code ∈ forms, Code uses datum code) : Code uses datum (letCall entries forms) := by
  refine .application _ _ (by simp) (.procedure _ _ (words basics entries) each)
    fun code member => ?_
  obtain ⟨entry, inside, rfl⟩ := List.mem_map.mp member
  exact values entry inside

theorem of_loopCall (basics : HasBasics datum) (name : String) (entries : List (String × Value))
    (forms : List Value) (used : uses name)
    (values : ∀ entry ∈ entries, Code uses datum entry.2)
    (each : ∀ code ∈ forms, Code uses datum code) : Code uses datum
      (loopCall name entries forms) := by
  have loop : Code uses datum
      (.list (.sym "define" :: .list (.sym name :: symbols entries) :: forms)) :=
    .definition name _ _ (words basics entries) used each
  have result : Code uses datum (.sym name) :=
    .written _ ((Value.every_sym name).mpr ⟨basics.sym name, by simpa using used⟩)
  have maker := Code.procedure (.list []) [_, _] Value.every_nil_list
    (fun code member => by
      simp only [List.mem_cons, List.not_mem_nil, or_false] at member
      rcases member with rfl | rfl
      · exact loop
      · exact result)
  refine .application _ _ (by simp) (.application _ _ (by simp) maker (by simp))
    fun code member => ?_
  obtain ⟨entry, inside, rfl⟩ := List.mem_map.mp member
  exact values entry inside

theorem of_nestLets (entries : List (String × Value)) (forms : List Value)
    (values : ∀ entry ∈ entries, Code uses datum entry.2)
    (each : ∀ code ∈ forms, Code uses datum code) :
    Code uses datum (nestLets forms (entries.map entryForm)) := by
  match entries, values with
  | [], values => exact .scope [] forms values each
  | [entry], values => exact .scope [entry] forms values each
  | entry :: next :: rest, values =>
      have inner := of_nestLets (next :: rest) forms
        (fun entry member => values entry (by simp [member])) each
      exact .scope [entry] _ (fun found member => values found (by simp_all)) (by simpa using inner)
termination_by entries.length

/-- Expanding a derived form gives code of the same kind, unless it is `letrec`. -/
theorem of_expand (basics : HasBasics datum) (name : String) (form : Derived)
    (operands : List Value) (code : Value)
    (found : FormTable.full.find? name = some (.derived form)) (plain : form ≠ .letrec)
    (whole : Code uses datum (.list (.sym name :: operands)))
    (expanded : form.expand operands = .ok code) : Code uses datum code := by
  have member := FormTable.full_derived name form found
  simp only [List.mem_cons, Prod.mk.injEq, List.not_mem_nil, or_false] at member
  rcases member with ⟨rfl, rfl⟩ | ⟨rfl, rfl⟩ | ⟨rfl, rfl⟩ | ⟨rfl, rfl⟩ | ⟨rfl, rfl⟩ | ⟨rfl,
    rfl⟩ | ⟨rfl, rfl⟩
  · have clauses := whole.written_operands (by simp)
    cases checked : checkClauses operands operands with
    | error fault => simp [Derived.expand, expandCond, checked, bind, Except.bind] at expanded
    | ok _ =>
        simp only [Derived.expand, expandCond, checked, bind, Except.bind, pure,
          Except.pure] at expanded
        cases expanded
        exact of_condTree basics operands clauses
  · cases expanded
    exact of_conjunction basics operands fun code member =>
      .written code (whole.written_operands (by simp) code member)
  · cases expanded
    exact of_disjunction basics operands fun code member =>
      .written code (whole.written_operands (by simp) code member)
  · exact of_unless basics operands code (fun code member =>
      .written code (whole.written_operands (by simp) code member)) expanded
  · rcases expandNamedLet_eq operands code expanded with
      ⟨entries, forms, rfl, rfl⟩ | ⟨loop, entries, forms, rfl, rfl⟩
    · obtain ⟨values, each⟩ := whole.scope_parts
      exact of_letCall basics entries forms values each
    · obtain ⟨used, values, each⟩ := whole.loop_parts
      exact of_loopCall basics loop entries forms used values each
  · obtain ⟨entries, forms, rfl, rfl⟩ := expandLetStar_eq operands code expanded
    have items := whole.written_operands (by simp)
    exact of_nestLets entries forms (written_values (items _ (by simp)))
      (fun code member => .written code (items code (by simp [member])))
  · exact absurd rfl plain

end Code

end ThunkLisp
