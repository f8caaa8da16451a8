import Mathlib.Data.List.Chain
import Mathlib.Data.Set.List
import ThunkLisp.Primitives
import ThunkLisp.Proofs.Code

/-!
The comparison primitives on values of one type: whole numbers, texts, or lists of such a type. A
value of the type is fixed by its content, and contents have a total order, for lists the
lexicographic one. Each primitive accepts some of the outcomes of comparing two contents. These are
kept along a chain, so a primitive that looks at neighbours only decides about all pairs. There is
room for the comparisons inside each other as long as the values are not nested too deep.
-/

namespace ThunkLisp

/-- Types of values that can be compared: whole numbers, texts, and the lists of such a type. -/
inductive Comparable where
  | int
  | str
  | list (items : Comparable)

namespace Value

theorem equalNesting_le (a b : Value) : a.equalNesting b ≤ a.nesting := by
  induction a using tree_induction generalizing b with
  | leaf a flat => exact equalNesting_of_flat flat b ▸ a.nesting_pos
  | list xs ih =>
      have items (ys : List Value) : equalNestingLists xs ys ≤ nestingAll xs := by
        induction xs generalizing ys with
        | nil => cases ys <;> exact Nat.le_refl 0
        | cons x xs behind =>
            cases ys with
            | nil => exact Nat.zero_le _
            | cons y ys =>
                have others := behind (fun v member => ih v (.tail _ member)) ys
                have first := ih x List.mem_cons_self y
                simp only [equalNestingLists, nestingAll]
                split <;> omega
      cases b with
      | list ys =>
          have inside := items ys
          simp only [equalNesting, nesting]
          split <;> omega
      | _ => simp [equalNesting, nesting]

theorem orderNesting_le (a b : Value) : a.orderNesting b ≤ a.nesting := by
  induction a using tree_induction generalizing b with
  | leaf a flat => exact orderNesting_of_flat flat b ▸ a.nesting_pos
  | list xs ih =>
      have items (ys : List Value) : orderNestingLists xs ys ≤ nestingAll xs := by
        induction xs generalizing ys with
        | nil => cases ys <;> exact Nat.le_refl 0
        | cons x xs behind =>
            cases ys with
            | nil => exact Nat.zero_le _
            | cons y ys =>
                have others := behind (fun v member => ih v (.tail _ member)) ys
                have first := ih x List.mem_cons_self y
                have same := x.equalNesting_le y
                simp only [orderNestingLists, nestingAll]
                split <;> omega
      cases b with
      | list ys =>
          simp only [orderNesting, nesting]
          exact Nat.succ_le_succ (items ys)
      | _ => simp [orderNesting, nesting]

end Value

namespace Comparable

/-- The values of a type. The empty list is of every list type. -/
inductive Has : Comparable → Value → Prop where
  | int (n : Int) : Has .int (.int n)
  | str (text : String) : Has .str (.str text)
  | list {type : Comparable} (items : List Value) (each : ∀ item ∈ items, Has type item) :
      Has (.list type) (.list items)

/-- Those that there is room to compare. -/
abbrev Values (type : Comparable) : Type :=
  { v : Value // type.Has v ∧ v.nesting ≤ comparisonLimit }

def Content : Comparable → Type
  | .int => Int
  | .str => String
  | .list type => List type.Content

def value : (type : Comparable) → type.Content → Value
  | .int, n => .int n
  | .str, text => .str text
  | .list type, items => .list (items.map type.value)

/-- Lists are ordered by their first different items, and a list comes after what it starts with. -/
def order : (type : Comparable) → type.Content → type.Content → Ordering
  | .int => compare (α := Int)
  | .str => compare (α := String)
  | .list type => List.compareLex type.order

instance transCmp_order (type : Comparable) : Std.TransCmp type.order := by
  induction type with
  | int => exact inferInstanceAs (Std.TransCmp (compare (α := Int)))
  | str => exact inferInstanceAs (Std.TransCmp (compare (α := String)))
  | list type ih => exact inferInstanceAs (Std.TransCmp (List.compareLex type.order))

instance lawfulEqCmp_order (type : Comparable) : Std.LawfulEqCmp type.order := by
  induction type with
  | int => exact inferInstanceAs (Std.LawfulEqCmp (compare (α := Int)))
  | str => exact inferInstanceAs (Std.LawfulEqCmp (compare (α := String)))
  | list type ih => exact inferInstanceAs (Std.LawfulEqCmp (List.compareLex type.order))

theorem exists_content {type : Comparable} {v : Value} (has : type.Has v) :
    ∃ content, type.value content = v := by
  induction has with
  | int n => exact ⟨n, rfl⟩
  | str text => exact ⟨text, rfl⟩
  | @list type items each ih =>
      have among : items ∈ Set.range (List.map type.value) := by
        rw [Set.range_list_map]
        exact ih
      obtain ⟨contents, same⟩ := among
      exact ⟨contents, congrArg Value.list same⟩

/-! Equality and order of values follow the order of their contents. -/

theorem sameNaN_value (type : Comparable) (a b : type.Content) :
    Value.sameNaN (type.value a) (type.value b) = false := by
  cases type <;> rfl

theorem equal_int_compare (m n : Int) : Number.equal (.int m) (.int n) = (compare m n == .eq) := by
  rw [Bool.eq_iff_iff, Number.equal_int_iff, beq_iff_eq, Std.LawfulEqCmp.compare_eq_iff_eq]

theorem beq_compare {α : Type} [BEq α] [LawfulBEq α] [Ord α] [Std.LawfulEqOrd α] (a b : α) :
    (a == b) = (compare a b == .eq) := by
  rw [Bool.eq_iff_iff, beq_iff_eq, beq_iff_eq, Std.LawfulEqCmp.compare_eq_iff_eq]

theorem equalLists_value (type : Comparable)
    (items : ∀ a b, (type.value a).equal (type.value b) = (type.order a b == .eq))
    (xs ys : List type.Content) :
    Value.equalLists (xs.map type.value) (ys.map type.value) =
      (List.compareLex type.order xs ys == .eq) := by
  induction xs generalizing ys with
  | nil => cases ys <;> rfl
  | cons x xs ih =>
      cases ys with
      | nil => rfl
      | cons y ys =>
          rw [List.map_cons, List.map_cons, Value.equalLists, sameNaN_value, Bool.false_or, items,
            ih, List.compareLex_cons_cons]
          cases type.order x y <;> rfl

theorem equal_value (type : Comparable) (a b : type.Content) :
    (type.value a).equal (type.value b) = (type.order a b == .eq) := by
  induction type with
  | int => exact equal_int_compare a b
  | str => exact beq_compare (α := String) a b
  | list type ih => exact equalLists_value type ih a b

theorem holdsLists_value (relation : Comparison) (type : Comparable)
    (items : ∀ a b, relation.holds (type.value a) (type.value b) =
      .ok (relation.admits (some (type.order a b))))
    (xs ys : List type.Content) :
    relation.holdsLists (xs.map type.value) (ys.map type.value) =
      .ok (relation.admits (some (List.compareLex type.order xs ys))) := by
  induction xs generalizing ys with
  | nil => cases ys <;> rfl
  | cons x xs ih =>
      cases ys with
      | nil => rfl
      | cons y ys =>
          rw [List.map_cons, List.map_cons, Comparison.holdsLists, Value.same, sameNaN_value,
            Bool.false_or, equal_value, items, ih, List.compareLex_cons_cons]
          cases type.order x y <;> rfl

theorem holds_value (relation : Comparison) (type : Comparable) (a b : type.Content) :
    relation.holds (type.value a) (type.value b) =
      .ok (relation.admits (some (type.order a b))) := by
  induction type with
  | int => rfl
  | str => rfl
  | list type ih => exact holdsLists_value relation type ih a b

theorem equalApart_value (type : Comparable) (a b : type.Content) :
    equalApart (type.value a) (type.value b) = (type.order a b == .eq) := by
  rw [← equal_value]
  cases type <;> rfl

theorem ordered_value (relation : Comparison) (type : Comparable) (a b : type.Content) :
    ordered relation (type.value a) (type.value b) = .ok
      (relation.admits (some (type.order a b))) := by
  have decided := holds_value relation type a b
  cases type with
  | int => rfl
  | str => rfl
  | list items =>
      simp only [value] at decided ⊢
      simp only [ordered, decided]

section Within

variable (type : Comparable) {a : type.Content} (within : (type.value a).nesting ≤ comparisonLimit)
  (b : type.Content)

include within

theorem decideEqual_value :
    decideEqual (type.value a) (type.value b) = .ok (type.order a b == .eq) := by
  rw [decideEqual, comparing_of_le (Nat.le_trans (Value.equalNesting_le _ _) within),
    equalApart_value]

theorem decideOrder_value (relation : Comparison) :
    decideOrder relation (type.value a) (type.value b) =
      .ok (relation.admits (some (type.order a b))) := by
  rw [decideOrder, comparing_of_le (Nat.le_trans (Value.orderNesting_le _ _) within), ordered_value]

end Within

end Comparable

/-! Chains. -/

/-- Which outcomes of comparing two contents a comparison primitive accepts. -/
inductive Accepts : Operation → (Ordering → Bool) → Prop where
  | equal : Accepts .equal (· == .eq)
  | compare (relation : Comparison) : Accepts (.compare relation) fun outcome =>
      relation.admits (some outcome)

def comparisons : List Operation :=
  [.equal, .compare .less, .compare .greater, .compare .atMost, .compare .atLeast]

theorem exists_accepts {operation : Operation} (among : operation ∈ comparisons) :
    ∃ accepted, Accepts operation accepted := by
  simp only [comparisons, List.mem_cons, List.not_mem_nil, or_false] at among
  rcases among with rfl | rfl | rfl | rfl | rfl
  · exact ⟨_, .equal⟩
  all_goals exact ⟨_, .compare _⟩

theorem Accepts.trans {operation : Operation} {accepted : Ordering → Bool}
    (accepts : Accepts operation accepted) {α : Type} (cmp : α → α → Ordering) [Std.TransCmp cmp]
    {a b c : α} (first : accepted (cmp a b) = true) (second : accepted (cmp b c) = true) :
    accepted (cmp a c) = true := by
  cases accepts with
  | equal =>
      simp only [beq_iff_eq] at first second ⊢
      exact Std.TransCmp.eq_trans first second
  | compare relation =>
      cases relation with
      | less =>
          simp only [Comparison.admits, beq_iff_eq] at first second ⊢
          exact Std.TransCmp.lt_trans first second
      | greater =>
          simp only [Comparison.admits, beq_iff_eq] at first second ⊢
          exact Std.TransCmp.gt_trans first second
      | atMost =>
          simp only [Comparison.admits, bne_iff_ne, ← Ordering.isLE_iff_ne_gt] at first second ⊢
          exact Std.TransCmp.isLE_trans first second
      | atLeast =>
          simp only [Comparison.admits, bne_iff_ne, ← Ordering.isGE_iff_ne_lt] at first second ⊢
          exact Std.TransCmp.isGE_trans first second

theorem chained_value (type : Comparable) {relation : Value → Value → Except Failure Bool}
    {holds : type.Content → type.Content → Bool}
    (given : List type.Content)
    (decides : ∀ a ∈ given, ∀ b, relation (type.value a) (type.value b) = .ok (holds a b))
    (some : given ≠ []) :
    chained relation (given.map type.value) =
      .ok (decide (given.IsChain fun a b => holds a b = true)) := by
  induction given with
  | nil => exact absurd rfl some
  | cons a rest ih =>
      cases rest with
      | nil => simp [chained]
      | cons b rest =>
          have behind := ih (fun c member => decides c (.tail _ member)) (by simp)
          simp only [List.map_cons, chained, decides a List.mem_cons_self b, List.isChain_cons_cons,
            Bool.decide_and]
          rw [← List.map_cons, behind]
          cases holds a b <;> simp [bind, Except.bind, pure, Except.pure]

/-- The primitive gives this answer in every store, which it leaves alone. -/
def Operation.Answers (operation : Operation) (given : List Value) (answer : Bool) : Prop :=
  ∀ added store, (operation.run added given).on store = (.ok (.bool answer), store)

theorem Operation.Answers.unique {operation : Operation} {given : List Value} {answer other : Bool}
    (answers : operation.Answers given answer) (others : operation.Answers given other) :
      answer = other := by
  have same := (answers (fun _ _ => return .nil) {}).symm.trans (others _ _)
  simpa using same

theorem on_outcome (outcome : Except Failure Bool) (store : Store) :
    (do return Value.bool (← Run.ofExcept outcome) : Run Value).on store =
      (outcome.map .bool, store) := by
  rw [Run.on_bind, Run.on_ofExcept]
  cases outcome <;> rfl

theorem on_decided {outcome : Except Failure Bool} {answer : Bool} (decided : outcome = .ok answer)
    (store : Store) :
    (do return Value.bool (← Run.ofExcept outcome) : Run Value).on store =
      (.ok (.bool answer), store) := by
  rw [on_outcome, decided]
  rfl

/-- A comparison primitive answers whether it accepts every two neighbours, and then it accepts all
pairs. -/
theorem Accepts.answers {operation : Operation} {accepted : Ordering → Bool}
    (accepts : Accepts operation accepted) (type : Comparable) (given : List type.Content)
    (some : given ≠ []) (within : ∀ a ∈ given, (type.value a).nesting ≤ comparisonLimit) :
    operation.Answers (given.map type.value)
      (decide (given.Pairwise fun a b => accepted (type.order a b) = true)) := by
  have kept : Trans (fun a b => accepted (type.order a b) = true)
      (fun a b => accepted (type.order a b) = true)
      fun a b => accepted (type.order a b) = true :=
        ⟨fun first second => accepts.trans type.order first second⟩
  have chained_pairs {relation : Value → Value → Except Failure Bool}
      (decides : ∀ a ∈ given, ∀ b, relation (type.value a) (type.value b) =
        .ok (accepted (type.order a b))) :
      chained relation (given.map type.value) =
        .ok (decide (given.Pairwise fun a b => accepted (type.order a b) = true)) := by
    simp only [chained_value type given decides some, List.isChain_iff_pairwise]
  intro added store
  cases accepts with
  | equal =>
      refine on_decided (chained_pairs fun a member b => ?_) store
      exact type.decideEqual_value (within a member) b
  | compare relation =>
      refine on_decided (chained_pairs fun a member b => ?_) store
      exact type.decideOrder_value (within a member) b relation

/-! Without the bound on nesting there may be no room. -/

def Answered (outcome : Except Failure Bool) : Prop :=
  outcome = .error .recursion ∨ ∃ answer, outcome = .ok answer

theorem answered_comparing (nesting : Nat) (answer : Bool) :
    Answered (comparing nesting (.ok answer)) := by
  rcases Nat.lt_or_ge comparisonLimit nesting with beyond | within
  · exact .inl (comparing_of_lt beyond _)
  · exact .inr ⟨answer, comparing_of_le within _⟩

theorem answered_decideOrder (relation : Comparison) (type : Comparable) (a b : type.Content) :
    Answered (decideOrder relation (type.value a) (type.value b)) := by
  rw [decideOrder, Comparable.ordered_value]
  exact answered_comparing _ _

theorem answered_chained {relation : Value → Value → Except Failure Bool} {given : List Value}
    (some : given ≠ []) (answered : ∀ a ∈ given, ∀ b ∈ given, Answered (relation a b)) :
    Answered (chained relation given) := by
  fun_induction chained relation given with
  | case1 => exact absurd rfl some
  | case2 => exact .inr ⟨true, rfl⟩
  | case3 a b rest ih =>
      have behind := ih (List.cons_ne_nil _ _) fun c among d beyond =>
        answered c (.tail _ among) d (.tail _ beyond)
      rcases answered a (.head _) b (.tail _ (.head _)) with failed | ⟨related, decided⟩
      · exact .inl (by simp [failed, bind, Except.bind])
      · cases related with
        | true => simpa [decided, bind, Except.bind] using behind
        | false => exact .inr ⟨false, by simp [decided, bind, Except.bind, pure, Except.pure]⟩

theorem on_answered {outcome : Except Failure Bool} (answered : Answered outcome) (store : Store) :
    let run : Run Value := do return Value.bool (← Run.ofExcept outcome)
    run.on store = (.error .recursion, store) ∨
      ∃ answer, run.on store = (.ok (.bool answer), store) := by
  intro run
  rw [on_outcome]
  rcases answered with rfl | ⟨answer, rfl⟩
  · exact .inl rfl
  · exact .inr ⟨answer, rfl⟩

/-- Values of a type, however deep, make a comparison primitive fail only for want of room. -/
theorem answers_or_deep (type : Comparable) {operation : Operation}
    (among : operation ∈ comparisons) {given : List Value} (some : given ≠ [])
    (typed : ∀ v ∈ given, type.Has v) (added : AddedActions) (store : Store) :
    (operation.run added given).on store = (.error .recursion, store) ∨
      ∃ answer, (operation.run added given).on store = (.ok (.bool answer), store) := by
  obtain ⟨accepted, accepts⟩ := exists_accepts among
  cases accepts with
  | equal => exact on_answered (answered_chained some fun _ _ _ _ => answered_comparing _ _) store
  | compare relation =>
      refine on_answered (answered_chained some fun a first b second => ?_) store
      obtain ⟨left, rfl⟩ := Comparable.exists_content (typed a first)
      obtain ⟨right, rfl⟩ := Comparable.exists_content (typed b second)
      exact answered_decideOrder relation type left right

/-! The laws of a total order. -/

structure TotalOrder {α : Type} (equal less greater atMost atLeast : α → α → Prop) : Prop where
  equivalence : Equivalence equal
  less_trans : ∀ {a b c}, less a b → less b c → less a c
  exactly_one : ∀ a b, (less a b ∧ ¬ equal a b ∧ ¬ less b a) ∨
    (¬ less a b ∧ equal a b ∧ ¬ less b a) ∨
    (¬ less a b ∧ ¬ equal a b ∧ less b a)
  greater_iff : ∀ a b, greater a b ↔ less b a
  atMost_iff : ∀ a b, atMost a b ↔ less a b ∨ equal a b
  atLeast_iff : ∀ a b, atLeast a b ↔ greater a b ∨ equal a b

theorem TotalOrder.of_cmp {α : Type} (cmp : α → α → Ordering) [Std.TransCmp cmp]
    {relates : Operation → α → α → Prop}
    (decided : ∀ {operation accepted}, Accepts operation accepted →
      ∀ a b, relates operation a b ↔ accepted (cmp a b) = true) :
    TotalOrder (relates .equal) (relates (.compare .less)) (relates (.compare .greater))
      (relates (.compare .atMost)) (relates (.compare .atLeast)) := by
  have swapped (a b : α) : cmp b a = (cmp a b).swap := Std.OrientedCmp.eq_swap
  have equal (a b : α) : relates .equal a b ↔ cmp a b = .eq := by simpa using decided .equal a b
  have less (a b : α) : relates (.compare .less) a b ↔ cmp a b = .lt := by
    simpa [Comparison.admits] using decided (.compare .less) a b
  have greater (a b : α) : relates (.compare .greater) a b ↔ cmp a b = .gt := by
    simpa [Comparison.admits] using decided (.compare .greater) a b
  have atMost (a b : α) : relates (.compare .atMost) a b ↔ cmp a b ≠ .gt := by
    simpa [Comparison.admits] using decided (.compare .atMost) a b
  have atLeast (a b : α) : relates (.compare .atLeast) a b ↔ cmp a b ≠ .lt := by
    simpa [Comparison.admits] using decided (.compare .atLeast) a b
  constructor
  case equivalence =>
    refine ⟨fun a => (equal a a).mpr Std.ReflCmp.compare_self, fun {a b} same => ?_,
      fun {a b c} first second => ?_⟩
    · exact (equal b a).mpr (Std.OrientedCmp.eq_symm ((equal a b).mp same))
    · exact (equal a c).mpr (Std.TransCmp.eq_trans ((equal a b).mp first) ((equal b c).mp second))
  case less_trans =>
    intro a b c first second
    exact (less a c).mpr (Std.TransCmp.lt_trans ((less a b).mp first) ((less b c).mp second))
  case greater_iff =>
    intro a b
    rw [greater, less, Std.OrientedCmp.gt_iff_lt]
  -- the others only look at the one outcome of comparing the two
  case exactly_one =>
    intro a b
    rw [less, less, equal, swapped a b]
    cases cmp a b <;> simp
  case atMost_iff =>
    intro a b
    rw [atMost, less, equal]
    cases cmp a b <;> simp
  case atLeast_iff =>
    intro a b
    rw [atLeast, greater, equal]
    cases cmp a b <;> simp

theorem transCmp_comap {α β : Type} (cmp : β → β → Ordering) [Std.TransCmp cmp] (content : α → β) :
    Std.TransCmp fun a b => cmp (content a) (content b) where
  eq_swap := fun {a b} => @Std.OrientedCmp.eq_swap β cmp _ (content a) (content b)
  isLE_trans := fun {a b c} => @Std.TransCmp.isLE_trans β cmp _ (content a) (content b) (content c)

structure Decides {type : Comparable} (cmp : type.Values → type.Values → Ordering) : Prop where
  order : Std.TransCmp cmp
  eq_iff : ∀ a b, cmp a b = .eq ↔ a = b
  answers : ∀ {operation accepted}, Accepts operation accepted →
    ∀ given : List type.Values, given ≠ [] →
    operation.Answers (given.map Subtype.val)
      (decide (given.Pairwise fun a b => accepted (cmp a b) = true))

theorem exists_decides (type : Comparable) : ∃ cmp : type.Values → type.Values → Ordering,
    Decides cmp := by
  choose content same using fun v : type.Values => Comparable.exists_content v.2.1
  refine ⟨fun a b => type.order (content a) (content b), transCmp_comap type.order content,
    fun a b => ?_, ?_⟩
  · rw [Std.LawfulEqCmp.compare_eq_iff_eq]
    refine ⟨fun alike => Subtype.ext ?_, congrArg content⟩
    rw [← same a, alike, same b]
  · intro operation accepted accepts given some
    have contents : (given.map content).map type.value = given.map Subtype.val := by
      simp [same]
    have within : ∀ a ∈ given.map content, (type.value a).nesting ≤ comparisonLimit := by
      simp only [List.forall_mem_map, same]
      exact fun v _ => v.2.2
    have answer := accepts.answers type (given.map content) (by simpa using some) within
    simpa only [contents, List.pairwise_map] using answer

theorem Decides.answers_pair_iff {type : Comparable} {cmp : type.Values → type.Values → Ordering}
    (decides : Decides cmp) {operation : Operation} {accepted : Ordering → Bool}
    (accepts : Accepts operation accepted) (a b : type.Values) :
    operation.Answers [a.1, b.1] true ↔ accepted (cmp a b) = true := by
  have answer : operation.Answers [a.1, b.1] (accepted (cmp a b)) := by
    simpa using decides.answers accepts [a, b] (List.cons_ne_nil _ _)
  constructor
  · intro related
    exact answer.unique related
  · intro found
    rwa [found] at answer

/-- The comparison primitives on the values of one type are those of a total order, whose equality
is that of the values. As long as the values are not nested too deep, they always answer, and they
answer a row of values by whether all pairs are related, not only neighbours. -/
theorem comparisons_order_totally (type : Comparable) :
    let relates (operation : Operation) (a b : type.Values) : Prop :=
      operation.Answers [a.1, b.1] true
    TotalOrder (relates .equal) (relates (.compare .less)) (relates (.compare .greater))
        (relates (.compare .atMost)) (relates (.compare .atLeast)) ∧
      (∀ a b, relates .equal a b ↔ a = b) ∧
      (∀ operation ∈ comparisons, ∀ given : List type.Values, given ≠ [] →
        ∃ answer, operation.Answers (given.map Subtype.val) answer ∧
          (answer = true ↔ given.Pairwise (relates operation))) ∧
      ∀ operation ∈ comparisons, ∀ given : List Value, given ≠ [] → (∀ v ∈ given, type.Has v) →
        ∀ added store, (operation.run added given).on store = (.error .recursion, store) ∨
          ∃ answer, (operation.run added given).on store = (.ok (.bool answer), store) := by
  intro relates
  obtain ⟨cmp, decides⟩ := exists_decides type
  have := decides.order
  refine ⟨TotalOrder.of_cmp cmp decides.answers_pair_iff, fun a b => ?equal,
    fun operation among given some => ?row, fun _ among _ some typed =>
      answers_or_deep type among some typed⟩
  case equal => exact (decides.answers_pair_iff .equal a b).trans (beq_iff_eq.trans
      (decides.eq_iff a b))
  case row =>
    obtain ⟨accepted, accepts⟩ := exists_accepts among
    have pairs : given.Pairwise (relates operation) ↔
        given.Pairwise fun a b => accepted (cmp a b) = true :=
      List.Pairwise.iff fun {a b} => decides.answers_pair_iff accepts a b
    exact ⟨_, decides.answers accepts given some, by rw [pairs, decide_eq_true_eq]⟩

theorem nesting_wholeNumbers_le (ns : List Int) : (Value.list (ns.map .int)).nesting ≤ 2 :=
  Nat.succ_le_succ (Value.nestingAll_le_iff.mpr (List.forall_mem_map.mpr fun _ _ => Nat.le_refl 1))

def wholeNumbers (ns : List Int) : (Comparable.list .int).Values :=
  ⟨.list (ns.map .int), .list _ (List.forall_mem_map.mpr fun n _ => .int n),
    Nat.le_trans (nesting_wholeNumbers_le ns) (by decide)⟩

/-- A list, a longer one that starts with it, and one that comes after both: the first and the last
are related too. -/
theorem comparisons_order_totally_prefixes :
    let given := [wholeNumbers [1], wholeNumbers [1, 2], wholeNumbers [2]]
    Operation.compare .less ∈ comparisons ∧ given ≠ [] ∧
      (Operation.compare .less).Answers (given.map Subtype.val) true ∧
      (Operation.compare .less).Answers [.list [.int 1], .list [.int 2]] true := by
  intro given
  have among : Operation.compare .less ∈ comparisons := .tail _ List.mem_cons_self
  have some : given ≠ [] := List.cons_ne_nil _ _
  have ascending : (Operation.compare .less).Answers (given.map Subtype.val) true := fun _ _ => rfl
  obtain ⟨answer, answers, all_pairs⟩ := (comparisons_order_totally (.list .int)).2.2.1 _ among
    given some
  have related := all_pairs.mp (answers.unique ascending)
  exact ⟨among, some, ascending, (List.pairwise_cons.mp related).1 (wholeNumbers [2]) (by simp)⟩

/-! Lists that there is no room to compare. -/

def enclosed : Nat → Value
  | 0 => .int 1
  | depth + 1 => .list [enclosed depth]

def Comparable.lists : Nat → Comparable
  | 0 => .int
  | depth + 1 => .list (lists depth)

theorem has_enclosed (depth : Nat) : (Comparable.lists depth).Has (enclosed depth) := by
  induction depth with
  | zero => exact .int 1
  | succ depth ih => exact .list _ (by simpa using ih)

theorem equalNesting_enclosed (depth : Nat) :
    (enclosed depth).equalNesting (enclosed depth) = depth + 1 := by
  induction depth with
  | zero => rfl
  | succ depth ih => simp [enclosed, Value.equalNesting, Value.equalNestingLists, ih]

theorem lt_orderNesting_enclosed (depth : Nat) :
    depth < (enclosed depth).orderNesting (enclosed depth) := by
  cases depth with
  | zero => exact Nat.zero_lt_one
  | succ depth =>
      have inside := equalNesting_enclosed depth
      simp only [enclosed, Value.orderNesting, Value.orderNestingLists]
      omega

/-- Whole numbers inside thousands of lists have a type, but no comparison primitive answers. -/
theorem deep_comparisons_refused :
    (Comparable.lists 5000).Has (enclosed 5000) ∧
      ∀ operation ∈ comparisons, ∀ added store,
        (operation.run added [enclosed 5000, enclosed 5000]).on store =
          (.error .recursion, store) := by
  refine ⟨has_enclosed 5000, fun operation among added store => ?_⟩
  have refused {relation : Value → Value → Except Failure Bool}
      (deep : relation (enclosed 5000) (enclosed 5000) = .error .recursion) :
      (do return Value.bool (← Run.ofExcept (chained relation [enclosed 5000, enclosed 5000])) :
        Run Value).on store = (.error .recursion, store) := by
    rw [on_outcome, chained, deep]
    rfl
  have room : comparisonLimit < 5000 := by decide
  obtain ⟨accepted, accepts⟩ := exists_accepts among
  cases accepts with
  | equal =>
      have nesting := equalNesting_enclosed 5000
      exact refused (comparing_of_lt (by omega) _)
  | compare relation =>
      have nesting := lt_orderNesting_enclosed 5000
      exact refused (comparing_of_lt (by omega) _)

end ThunkLisp
