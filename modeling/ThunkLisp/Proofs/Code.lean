import ThunkLisp.Form

/-!
Trees of values and trees of code. A condition on leaves holds of a whole tree if it holds of every
leaf. Code is a tree as it was written, or what the expansion of a derived form has built around
such trees; expanding it again, or taking one of its parts that may be evaluated, gives code of the
same kind. Only the expansion of `letrec` leaves that kind, since it puts in the mark of unassigned
variables.
-/

namespace ThunkLisp

namespace Value

def isList : Value → Bool
  | .list _ => true
  | _ => false

/-- Every leaf of the tree meets the condition. -/
inductive Every (condition : Value → Prop) : Value → Prop where
  | leaf (v : Value) (flat : v.isList = false) (holds : condition v) : Every condition v
  | list (items : List Value) (each : ∀ v ∈ items, Every condition v) :
      Every condition (.list items)

variable {p q : Value → Prop}

theorem every_list (items : List Value) :
    Every p (.list items) ↔ ∀ v ∈ items, Every p v := by
  constructor
  · intro every
    cases every with
    | leaf _ flat _ => cases flat
    | list _ each => exact each
  · exact Every.list items

theorem every_of_flat {v : Value} (flat : v.isList = false) : Every p v ↔ p v := by
  constructor
  · intro every
    cases every with
    | leaf _ _ holds => exact holds
    | list _ _ => cases flat
  · exact Every.leaf v flat

theorem every_sym (name : String) : Every p (.sym name) ↔ p (.sym name) := every_of_flat rfl

theorem every_nil_list : Every p (.list []) := Every.list [] (by simp)

theorem every_cons (head : Value) (rest : List Value) :
    Every p (.list (head :: rest)) ↔ Every p head ∧ Every p (.list rest) := by
  simp [every_list]

theorem every_of_forall (all : ∀ v, p v) : ∀ v, Every p v
  | .list items => .list items fun v _ => every_of_forall all v
  | .nil | .absent | .bool _ | .int _ | .float _ | .nan _ | .str _ | .sym _ | .unassigned
  | .foreign _ | .primitive _ | .procedure .. | .thunk _ => .leaf _ rfl (all _)

mutual

/-- How many values stand inside each other, the outermost one counted. -/
def nesting : Value → Nat
  | .list items => nestingAll items + 1
  | _ => 1

def nestingAll : List Value → Nat
  | [] => 0
  | v :: rest => max v.nesting (nestingAll rest)

end

theorem equalNesting_of_flat {a : Value} (flat : a.isList = false) (b : Value) :
    a.equalNesting b = 1 := by
  cases a <;> first | (cases flat; done) | rfl

theorem orderNesting_of_flat {a : Value} (flat : a.isList = false) (b : Value) :
    a.orderNesting b = 1 := by
  cases a <;> first | (cases flat; done) | rfl

theorem nesting_pos (v : Value) : 0 < v.nesting := by
  cases v <;> simp [nesting]

theorem nestingAll_le_iff {items : List Value} {bound : Nat} :
    nestingAll items ≤ bound ↔ ∀ v ∈ items, v.nesting ≤ bound := by
  induction items with
  | nil => simp [nestingAll]
  | cons item rest ih => rw [nestingAll, Nat.max_le, ih, List.forall_mem_cons]

theorem nesting_le_nestingAll {items : List Value} {v : Value} (member : v ∈ items) :
    v.nesting ≤ nestingAll items :=
  nestingAll_le_iff.mp (Nat.le_refl _) v member

theorem nesting_tail_le (v : Value) (rest : List Value) :
    (list rest).nesting ≤ (list (v :: rest)).nesting := by
  simp only [nesting, nestingAll]
  exact Nat.succ_le_succ (Nat.le_max_right _ _)

theorem nesting_lt {items : List Value} {v : Value} (member : v ∈ items) :
    v.nesting < (list items).nesting :=
  Nat.lt_succ_of_le (nesting_le_nestingAll member)

/-- Trees of values: what holds of a list if it holds of its items, and of all that are no lists. -/
theorem tree_induction {motive : Value → Prop} (leaf : ∀ v, v.isList = false → motive v)
    (list : ∀ items, (∀ v ∈ items, motive v) → motive (.list items)) (v : Value) : motive v := by
  have every : Every (fun _ => True) v := every_of_forall (fun _ => trivial) v
  induction every with
  | leaf v flat _ => exact leaf v flat
  | list items _ ih => exact list items ih

theorem Every.imp (weaker : ∀ v, p v → q v) {v : Value} (every : Every p v) : Every q v := by
  induction every with
  | leaf v flat holds => exact .leaf v flat (weaker v holds)
  | list items _ ih => exact .list items ih

theorem Every.and {v : Value} (left : Every p v) (right : Every q v) :
    Every (fun leaf => p leaf ∧ q leaf) v := by
  induction left with
  | leaf v flat holds => exact .leaf v flat ⟨holds, (every_of_flat flat).mp right⟩
  | list items _ ih => exact .list items fun v member => ih v member ((every_list items).mp right v
      member)

end Value

open Value (Every)

/-- The mark of an unassigned variable, as an operand of a procedure. -/
def mark : Value := .list [.sym "quote", .unassigned]

namespace Derived

def entryForm (entry : String × Value) : Value := .list [.sym entry.1, entry.2]

def assignments (entries : List (String × Value)) : List Value :=
  entries.map fun entry => .list [.sym "set!", .sym entry.1, entry.2]

/-- A `letrec` as it is written, -/
def letrecForm (entries : List (String × Value)) (forms : List Value) : Value :=
  .list (.sym "letrec" :: .list (entries.map entryForm) :: forms)

/-- what it expands into, -/
def letrecScope (entries : List (String × Value)) (forms : List Value) : Value :=
  .list (.sym "let" :: .list (entries.map fun entry => entryForm (entry.1, mark)) ::
    (assignments entries ++ forms))

/-- and what that expands into. -/
def letrecCall (entries : List (String × Value)) (forms : List Value) : Value :=
  .list (.list (.sym "lambda" :: .list (symbols entries) :: (assignments entries ++ forms)) ::
    entries.map fun _ => mark)

end Derived

/-- A leaf of written code: data, and if it is a symbol, a name that the code may use. -/
def Usable (uses : String → Prop) (datum : Value → Prop) (leaf : Value) : Prop :=
  datum leaf ∧ ∀ name, leaf = .sym name → uses name

/-- Code in which only some names are used: as it was written, or built by an expansion. The heads
that an expansion puts in front name special forms and use no variable. -/
inductive Code (uses : String → Prop) (datum : Value → Prop) : Value → Prop where
  | written (code : Value) (every : Every (Usable uses datum) code) : Code uses datum code
  | conditional (operands : List Value) (each : ∀ code ∈ operands, Code uses datum code) :
      Code uses datum (.list (.sym "if" :: operands))
  | sequence (forms : List Value) (each : ∀ code ∈ forms, Code uses datum code) :
      Code uses datum (.list (.sym "begin" :: forms))
  | procedure (spec : Value) (body : List Value) (params : Every datum spec)
      (each : ∀ code ∈ body, Code uses datum code) :
      Code uses datum (.list (.sym "lambda" :: spec :: body))
  | scope (entries : List (String × Value)) (forms : List Value)
      (values : ∀ entry ∈ entries, Code uses datum entry.2)
      (each : ∀ code ∈ forms, Code uses datum code) :
      Code uses datum (.list (.sym "let" :: .list (entries.map Derived.entryForm) :: forms))
  | definition (name : String) (params : List Value) (body : List Value)
      (spec : Every datum (.list params)) (used : uses name)
      (each : ∀ code ∈ body, Code uses datum code) :
      Code uses datum (.list (.sym "define" :: .list (.sym name :: params) :: body))
  | assignment (name : String) (code : Value) (used : uses name) (inside : Code uses datum code) :
      Code uses datum (.list [.sym "set!", .sym name, code])
  | application (head : Value) (operands : List Value) (compound : ∀ name, head ≠ .sym name)
      (first : Code uses datum head) (each : ∀ code ∈ operands, Code uses datum code) :
      Code uses datum (.list (head :: operands))

structure HasBasics (datum : Value → Prop) : Prop where
  sym (name : String) : datum (.sym name)
  nil : datum .nil
  bool (b : Bool) : datum (.bool b)

namespace Code

variable {uses : String → Prop} {datum : Value → Prop}

theorem written_items {items : List Value} (every : Every (Usable uses datum) (.list items)) :
    ∀ code ∈ items, Code uses datum code :=
  fun code member => .written code ((Value.every_list items).mp every code member)

theorem datum_of_usable {code : Value} (every : Every (Usable uses datum) code) :
    Every datum code :=
  every.imp fun _ usable => usable.1

theorem imp {also : String → Prop} (weaker : ∀ name, uses name → also name) {code : Value}
    (whole : Code uses datum code) : Code also datum code := by
  induction whole with
  | written code every =>
      refine .written code (every.imp fun leaf usable => ⟨usable.1, fun name same => ?_⟩)
      exact weaker name (usable.2 name same)
  | conditional operands _ ih => exact .conditional operands ih
  | sequence forms _ ih => exact .sequence forms ih
  | procedure spec body params _ ih => exact .procedure spec body params ih
  | scope entries forms _ _ values each => exact .scope entries forms values each
  | definition name params body spec used _ ih =>
      exact .definition name params body spec (weaker name used) ih
  | assignment name code used _ ih => exact .assignment name code (weaker name used) ih
  | application head operands compound _ _ first each =>
      exact .application head operands compound first each

theorem avoid {also : String → Prop} {unused : String} {code : Value} (whole : Code uses datum code)
    (absent : Every (fun leaf => leaf ≠ .sym unused) code)
    (others : ∀ name, name ≠ unused → uses name → also name) : Code also datum code := by
  have tail {head : Value} {items : List Value}
      (every : Every (fun leaf => leaf ≠ .sym unused) (.list (head :: items))) :
      ∀ v ∈ items, Every (fun leaf => leaf ≠ .sym unused) v :=
    (Value.every_list _).mp ((Value.every_cons _ _).mp every).2
  have symbol {name : String} (every : Every (fun leaf => leaf ≠ .sym unused) (.sym name)) :
      name ≠ unused := fun same => (Value.every_sym name).mp every (by rw [same])
  -- on the code: a name that does not stand in it is read by none of its parts
  induction whole with
  | written code every =>
      refine .written code ((every.and absent).imp fun leaf both => ⟨both.1.1, fun name same => ?_⟩)
      exact others name (fun equal => both.2 (by rw [same, equal])) (both.1.2 name same)
  | conditional operands _ ih =>
      exact .conditional operands fun code member => ih code member (tail absent code member)
  | sequence forms _ ih =>
      exact .sequence forms fun code member => ih code member (tail absent code member)
  | procedure spec body params _ ih =>
      refine .procedure spec body params fun code member => ih code member ?_
      exact tail absent code (by simp [member])
  | scope entries forms _ _ values each =>
      refine .scope entries forms (fun entry member => values entry member ?_)
        fun code member => each code member (tail absent code (by simp [member]))
      have bindings := tail absent (.list (entries.map Derived.entryForm)) (by simp)
      exact tail ((Value.every_list _).mp bindings _ (List.mem_map_of_mem member)) entry.2 (by simp)
  | definition name params body spec used _ ih =>
      have target := tail absent (.list (.sym name :: params)) (by simp)
      refine .definition name params body spec
        (others name (symbol ((Value.every_cons _ _).mp target).1) used) fun code member =>
          ih code member ?_
      exact tail absent code (by simp [member])
  | assignment name code used _ ih =>
      exact .assignment name code (others name (symbol (tail absent _ (by simp))) used)
        (ih (tail absent code (by simp)))
  | application head operands compound _ _ first each =>
      exact .application head operands compound (first ((Value.every_cons _ _).mp absent).1)
        fun code member => each code member (tail absent code member)

/-! The parts of code. -/

theorem flat_leaf {code : Value} (whole : Code uses datum code) (flat : code.isList = false) :
    Usable uses datum code := by
  cases whole with
  | written _ every => exact (Value.every_of_flat flat).mp every
  | _ => cases flat

/-- Whatever the head is, a form that no expansion builds is as it was written, and an application
consists of code. -/
theorem parts {head : Value} {operands : List Value}
    (whole : Code uses datum (.list (head :: operands)))
    (unbuilt : ∀ name ∈ ["if", "begin", "lambda", "let", "define", "set!"], head ≠ .sym name) :
    Every (Usable uses datum) (.list (head :: operands)) ∨ (∀ name, head ≠ .sym name) ∧
      Code uses datum head ∧ ∀ code ∈ operands, Code uses datum code := by
  cases whole with
  | written _ every => exact .inl every
  | application _ _ compound first each => exact .inr ⟨compound, first, each⟩
  | _ => simp at unbuilt

theorem application_parts {head : Value} {operands : List Value}
    (whole : Code uses datum (.list (head :: operands)))
    (unbuilt : ∀ name ∈ ["if", "begin", "lambda", "let", "define", "set!"], head ≠ .sym name) :
    Code uses datum head ∧ ∀ code ∈ operands, Code uses datum code := by
  rcases whole.parts unbuilt with every | ⟨_, first, each⟩
  · exact ⟨written_items every head (by simp), fun code member =>
      written_items every code (by simp [member])⟩
  · exact ⟨first, each⟩

theorem written_operands {name : String} {operands : List Value}
    (whole : Code uses datum (.list (.sym name :: operands)))
    (unbuilt : name ∉ ["if", "begin", "lambda", "let", "define", "set!"]) :
    ∀ code ∈ operands, Every (Usable uses datum) code := by
  have apart : ∀ other ∈ ["if", "begin", "lambda", "let", "define", "set!"],
      Value.sym name ≠ .sym other := by
    intro other member same
    cases same
    exact unbuilt member
  rcases whole.parts apart with every | ⟨compound, _⟩
  · intro code member
    exact (Value.every_list _).mp every code (by simp [member])
  · exact absurd rfl (compound name)

theorem conditional_parts {operands : List Value}
    (whole : Code uses datum (.list (.sym "if" :: operands))) :
    ∀ code ∈ operands, Code uses datum code := by
  generalize same : Value.list (.sym "if" :: operands) = code at whole
  cases whole with
  | written _ every =>
      subst same
      exact fun code member => written_items every code (by simp [member])
  | conditional _ each => simp_all
  | application _ _ compound =>
      simp only [Value.list.injEq, List.cons.injEq] at same
      exact absurd same.1.symm (compound _)
  | _ => simp_all

theorem sequence_parts {forms : List Value}
    (whole : Code uses datum (.list (.sym "begin" :: forms))) :
    ∀ code ∈ forms, Code uses datum code := by
  generalize same : Value.list (.sym "begin" :: forms) = code at whole
  cases whole with
  | written _ every =>
      subst same
      exact fun code member => written_items every code (by simp [member])
  | sequence _ each => simp_all
  | application _ _ compound =>
      simp only [Value.list.injEq, List.cons.injEq] at same
      exact absurd same.1.symm (compound _)
  | _ => simp_all

theorem procedure_parts {spec : Value} {body : List Value}
    (whole : Code uses datum (.list (.sym "lambda" :: spec :: body))) :
    Every datum spec ∧ ∀ code ∈ body, Code uses datum code := by
  generalize same : Value.list (.sym "lambda" :: spec :: body) = code at whole
  cases whole with
  | written _ every =>
      subst same
      have items := (Value.every_list _).mp every
      exact ⟨datum_of_usable (items spec (by simp)), fun code member =>
        written_items every code (by simp [member])⟩
  | procedure _ _ params each => simp_all
  | application _ _ compound =>
      simp only [Value.list.injEq, List.cons.injEq] at same
      exact absurd same.1.symm (compound _)
  | _ => simp_all

theorem assignment_parts {name : String} {code : Value}
    (whole : Code uses datum (.list [.sym "set!", .sym name, code])) :
    uses name ∧ Code uses datum code := by
  generalize same : Value.list [.sym "set!", .sym name, code] = form at whole
  cases whole with
  | written _ every =>
      subst same
      have items := (Value.every_list _).mp every
      exact ⟨((Value.every_sym name).mp (items _ (by simp))).2 name rfl,
        .written code (items code (by simp))⟩
  | assignment _ _ used inside => simp_all
  | application _ _ compound =>
      simp only [Value.list.injEq, List.cons.injEq] at same
      exact absurd same.1.symm (compound _)
  | _ => simp_all

theorem definition_of_value_parts {name : String} {code : Value}
    (whole : Code uses datum (.list [.sym "define", .sym name, code])) :
    uses name ∧ Code uses datum code := by
  generalize same : Value.list [.sym "define", .sym name, code] = form at whole
  cases whole with
  | written _ every =>
      subst same
      have items := (Value.every_list _).mp every
      exact ⟨((Value.every_sym name).mp (items _ (by simp))).2 name rfl,
        .written code (items code (by simp))⟩
  | application _ _ compound =>
      simp only [Value.list.injEq, List.cons.injEq] at same
      exact absurd same.1.symm (compound _)
  | _ => simp_all

theorem definition_of_procedure_parts {name : String} {params body : List Value}
    (whole : Code uses datum (.list (.sym "define" :: .list (.sym name :: params) :: body))) :
    uses name ∧ Every datum (.list params) ∧ ∀ code ∈ body, Code uses datum code := by
  generalize same : Value.list (.sym "define" :: .list (.sym name :: params) :: body) =
    form at whole
  cases whole with
  | written _ every =>
      subst same
      have items := (Value.every_list _).mp every
      have target := (Value.every_cons _ _).mp (items (.list (.sym name :: params)) (by simp))
      exact ⟨((Value.every_sym name).mp target.1).2 name rfl, datum_of_usable target.2,
        fun code member => written_items every code (by simp [member])⟩
  | definition _ _ _ spec used each => simp_all
  | application _ _ compound =>
      simp only [Value.list.injEq, List.cons.injEq] at same
      exact absurd same.1.symm (compound _)
  | _ => simp_all

theorem data (basics : HasBasics datum) {code : Value} (whole : Code uses datum code) :
    Every datum code := by
  have word (name : String) : Every datum (.sym name) :=
    (Value.every_sym name).mpr (basics.sym name)
  induction whole with
  | written code every => exact datum_of_usable every
  | conditional operands _ ih => exact (Value.every_cons _ _).mpr ⟨word _, .list _ ih⟩
  | sequence forms _ ih => exact (Value.every_cons _ _).mpr ⟨word _, .list _ ih⟩
  | procedure spec body params _ ih =>
      exact (Value.every_cons _ _).mpr ⟨word _, (Value.every_cons _ _).mpr ⟨params, .list _ ih⟩⟩
  | scope entries forms _ _ values each =>
      refine (Value.every_cons _ _).mpr ⟨word _, (Value.every_cons _ _).mpr
        ⟨.list _ ?_, .list _ each⟩⟩
      intro form member
      obtain ⟨entry, inside, rfl⟩ := List.mem_map.mp member
      exact (Value.every_cons _ _).mpr ⟨word _, (Value.every_cons _ _).mpr
        ⟨values entry inside, Value.every_nil_list⟩⟩
  | definition name params body spec _ _ ih =>
      exact (Value.every_cons _ _).mpr ⟨word _, (Value.every_cons _ _).mpr
        ⟨(Value.every_cons _ _).mpr ⟨word _, spec⟩, .list _ ih⟩⟩
  | assignment name code _ _ ih =>
      exact (Value.every_cons _ _).mpr ⟨word _, (Value.every_cons _ _).mpr ⟨word _,
        (Value.every_cons _ _).mpr ⟨ih, Value.every_nil_list⟩⟩⟩
  | application head operands _ _ _ first each =>
      exact (Value.every_cons _ _).mpr ⟨first, .list _ each⟩

end Code

end ThunkLisp
