import ThunkLisp.Proofs.Expansion

/-!
The leaves of an expansion. Besides leaves of its operands a derived form puts in some words of
special forms, constants and the mark of unassigned variables, so what holds of those leaves and of
the operands holds of the expansion, that of `letrec` among them.
-/

namespace ThunkLisp

open Value (Every)

structure HasFormWords (datum : Value → Prop) : Prop where
  word : ∀ name ∈ ["quote", "set!", "define", "if", "lambda", "begin", "let"], datum (.sym name)
  nil : datum .nil
  bool (b : Bool) : datum (.bool b)
  unassigned : datum .unassigned

namespace HasFormWords

variable {datum : Value → Prop} (words : HasFormWords datum)

include words

theorem every_word (name : String) (among :
    name ∈ ["quote", "set!", "define", "if", "lambda", "begin", "let"]) :
    Every datum (.sym name) := (Value.every_sym name).mpr (words.word name among)

theorem every_body {forms : List Value} (each : ∀ form ∈ forms, Every datum form) :
    Every datum (Derived.body forms) := by
  match forms, each with
  | [], _ => exact (Value.every_of_flat rfl).mpr words.nil
  | [form], each => exact each form List.mem_cons_self
  | first :: second :: rest, each =>
      exact (Value.every_cons _ _).mpr ⟨words.every_word _ (by simp), .list _ each⟩

theorem every_conditional {operands : List Value} (each : ∀ code ∈ operands, Every datum code) :
    Every datum (.list (.sym "if" :: operands)) :=
  (Value.every_cons _ _).mpr ⟨words.every_word _ (by simp), .list _ each⟩

theorem every_condTree {clauses : List Value} (each : ∀ clause ∈ clauses, Every datum clause) :
    Every datum (Derived.condTree clauses) := by
  fun_induction Derived.condTree clauses with
  | case1 test actions rest last =>
      have clause := (Value.every_cons _ _).mp (each (.list (test :: actions)) List.mem_cons_self)
      exact words.every_body ((Value.every_list _).mp clause.2)
  | case2 test actions rest later ih =>
      have clause := (Value.every_cons _ _).mp (each (.list (test :: actions)) List.mem_cons_self)
      have taken := words.every_body ((Value.every_list _).mp clause.2)
      have inner := ih fun clause member => each clause (.tail _ member)
      apply words.every_conditional
      simp [clause.1, taken, inner]
  | case3 => exact (Value.every_of_flat rfl).mpr (words.bool false)

theorem every_conjunction {forms : List Value} (each : ∀ form ∈ forms, Every datum form) :
    Every datum (Derived.expandConjunction forms) := by
  fun_induction Derived.expandConjunction forms with
  | case1 => exact (Value.every_of_flat rfl).mpr (words.bool true)
  | case2 form => exact each form List.mem_cons_self
  | case3 form rest _ ih =>
      have behind := ih fun code member => each code (.tail _ member)
      apply words.every_conditional
      simp [each form List.mem_cons_self, behind]

theorem every_disjunction {forms : List Value} (each : ∀ form ∈ forms, Every datum form) :
    Every datum (Derived.expandDisjunction forms) := by
  fun_induction Derived.expandDisjunction forms with
  | case1 => exact (Value.every_of_flat rfl).mpr words.nil
  | case2 form => exact each form List.mem_cons_self
  | case3 form rest _ ih =>
      have behind := ih fun code member => each code (.tail _ member)
      apply words.every_conditional
      simp [each form List.mem_cons_self, behind]

theorem every_unless {operands : List Value} {code : Value}
    (each : ∀ form ∈ operands, Every datum form)
    (expanded : Derived.expandUnless operands = .ok code) : Every datum code := by
  have missing : Every datum .nil := (Value.every_of_flat rfl).mpr words.nil
  unfold Derived.expandUnless at expanded
  split at expanded
  · cases expanded
    apply words.every_conditional
    simp_all
  · cases expanded
    apply words.every_conditional
    simp_all
  · cases expanded

end HasFormWords

section Entries

variable {datum : Value → Prop}

theorem every_entries_iff (entries : List (String × Value)) :
    Every datum (.list (entries.map Derived.entryForm)) ↔
      ∀ entry ∈ entries, Every datum (.sym entry.1) ∧ Every datum entry.2 := by
  simp only [Value.every_list, List.forall_mem_map, Derived.entryForm, List.mem_cons,
    List.not_mem_nil, or_false, forall_eq_or_imp, forall_eq]

variable {entries : List (String × Value)} {forms : List Value} (words : HasFormWords datum)
  (names : ∀ entry ∈ entries, Every datum (.sym entry.1) ∧ Every datum entry.2)
  (each : ∀ form ∈ forms, Every datum form)

include words names each

theorem every_letCall : Every datum (Derived.letCall entries forms) := by
  have lambda := words.every_word "lambda" (by simp)
  have symbols : ∀ symbol ∈ Derived.symbols entries, Every datum symbol := by
    intro symbol member
    obtain ⟨entry, inside, rfl⟩ := List.mem_map.mp member
    exact (names entry inside).1
  have values : ∀ v ∈ Derived.values entries, Every datum v := by
    intro v member
    obtain ⟨entry, inside, rfl⟩ := List.mem_map.mp member
    exact (names entry inside).2
  simp only [Derived.letCall, Value.every_cons]
  exact ⟨⟨lambda, .list _ symbols, .list _ each⟩, .list _ values⟩

theorem every_loopCall {name : String} (loop : Every datum (.sym name)) :
    Every datum (Derived.loopCall name entries forms) := by
  have defining :
      ∀ code ∈ [.list (.sym "define" :: .list (.sym name :: Derived.symbols entries) :: forms),
      .sym name], Every datum code := by
    have call := every_letCall words names each
    simp only [Derived.letCall, Value.every_cons] at call
    have define := words.every_word "define" (by simp)
    simp only [List.mem_cons, List.not_mem_nil, or_false, forall_eq_or_imp, forall_eq,
      Value.every_cons]
    exact ⟨⟨define, ⟨loop, call.1.2.1⟩, call.1.2.2⟩, loop⟩
  have call := every_letCall words names defining
  simp only [Derived.letCall, Value.every_cons] at call
  simp only [Derived.loopCall, Value.every_cons]
  exact ⟨⟨⟨call.1.1, Value.every_nil_list, call.1.2.2⟩, Value.every_nil_list⟩, call.2⟩

theorem every_nestLets : Every datum (Derived.nestLets forms (entries.map Derived.entryForm)) := by
  have word := words.every_word "let" (by simp)
  induction entries with
  | nil =>
      simp only [List.map_nil, Derived.nestLets, Value.every_cons]
      exact ⟨word, Value.every_nil_list, .list _ each⟩
  | cons entry rest ih =>
      have alone := (every_entries_iff [entry]).mpr fun found member => names found (by simp_all)
      cases rest with
      | nil =>
          simp only [List.map_cons, List.map_nil, Derived.nestLets, Value.every_cons]
          exact ⟨word, (Value.every_cons _ _).mp alone, .list _ each⟩
      | cons next rest =>
          have inner := ih fun found member => names found (.tail _ member)
          simp only [List.map_cons, Derived.nestLets, Value.every_cons] at inner ⊢
          exact ⟨word, (Value.every_cons _ _).mp alone, inner, Value.every_nil_list⟩

theorem every_letrecScope : Every datum (Derived.letrecScope entries forms) := by
  have word := words.every_word "let" (by simp)
  have unassigned : Every datum mark := (Value.every_cons _ _).mpr ⟨words.every_word _ (by simp),
    (Value.every_cons _ _).mpr ⟨(Value.every_of_flat rfl).mpr words.unassigned,
      Value.every_nil_list⟩⟩
  have placeholders : Every datum (.list (entries.map fun entry =>
      Derived.entryForm (entry.1, mark))) := by
    have marked := (every_entries_iff (entries.map fun entry => (entry.1, mark))).mpr (by
      intro found member
      obtain ⟨entry, inside, rfl⟩ := List.mem_map.mp member
      exact ⟨(names entry inside).1, unassigned⟩)
    simpa [Function.comp_def] using marked
  have assigned : ∀ code ∈ Derived.assignments entries ++ forms, Every datum code := by
    intro code member
    rcases List.mem_append.mp member with among | behind
    · obtain ⟨entry, inside, rfl⟩ := List.mem_map.mp among
      have target := names entry inside
      simp only [Value.every_cons]
      exact ⟨words.every_word _ (by simp), target.1, target.2, Value.every_nil_list⟩
    · exact each code behind
  simp only [Derived.letrecScope, Value.every_cons]
  exact ⟨word, placeholders, .list _ assigned⟩

end Entries

/-- What holds of every leaf of the operands, and of what expansions put in, holds of every leaf of
the expansion. -/
theorem every_of_expand {datum : Value → Prop} (words : HasFormWords datum) (form : Derived)
    {operands : List Value} {code : Value} (each : ∀ operand ∈ operands, Every datum operand)
    (expanded : form.expand operands = .ok code) : Every datum code := by
  have split {entries : List (String × Value)} {forms : List Value}
      (same : operands = .list (entries.map Derived.entryForm) :: forms) :
      (∀ entry ∈ entries, Every datum (.sym entry.1) ∧ Every datum entry.2) ∧
        ∀ form ∈ forms, Every datum form := by
    subst same
    exact ⟨(every_entries_iff entries).mp (each _ List.mem_cons_self), fun form member =>
      each form (.tail _ member)⟩
  cases form with
  | cond =>
      cases checked : Derived.checkClauses operands operands with
      | error fault => simp [Derived.expand, Derived.expandCond, checked, bind,
          Except.bind] at expanded
      | ok _ =>
          simp only [Derived.expand, Derived.expandCond, checked, bind, Except.bind, pure,
            Except.pure] at expanded
          cases expanded
          exact words.every_condTree each
  | conjunction =>
      cases expanded
      exact words.every_conjunction each
  | disjunction =>
      cases expanded
      exact words.every_disjunction each
  | «unless» => exact words.every_unless each expanded
  | plainLet =>
      obtain ⟨entries, forms, same, rfl⟩ := Derived.expandLet_eq operands code expanded
      exact every_letCall words (split same).1 (split same).2
  | namedLet =>
      rcases Derived.expandNamedLet_eq operands code expanded with
        ⟨entries, forms, same, rfl⟩ | ⟨name, entries, forms, rfl, rfl⟩
      · exact every_letCall words (split same).1 (split same).2
      · have names := (every_entries_iff entries).mp (each _ (by simp))
        exact every_loopCall words names (fun form member => each form (by simp [member]))
          (each _ (by simp))
  | letStar =>
      obtain ⟨entries, forms, same, rfl⟩ := Derived.expandLetStar_eq operands code expanded
      exact every_nestLets words (split same).1 (split same).2
  | letrec =>
      obtain ⟨entries, forms, same, rfl⟩ := Derived.expandLetrec_eq operands code expanded
      exact every_letrecScope words (split same).1 (split same).2

end ThunkLisp
