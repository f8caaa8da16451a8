import ThunkLisp.Primitives
import ThunkLisp.Proofs.Code

/-!
Equality of trees. Two trees are equal if they are the same once the booleans in them count as one
and zero, where a boolean on its own counts only for itself. So equal trees may still differ: inside
of lists, where one holds a boolean and the other the number that it stands for, and nowhere else.
-/

namespace ThunkLisp

open Value (Every)

namespace Value

/-- Constants, whole numbers, texts and symbols. -/
def isPlain : Value → Bool
  | .nil | .bool _ | .int _ | .str _ | .sym _ => true
  | _ => false

abbrev Plain (tree : Value) : Prop := Every (fun leaf => leaf.isPlain = true) tree

def isBool : Value → Bool
  | .bool _ => true
  | _ => false

def ofBool (b : Bool) : Value := .int (if b then 1 else 0)

mutual

/-- The tree with numbers for its booleans. -/
def numbered : Value → Value
  | .bool b => ofBool b
  | .list items => .list (numberedItems items)
  | leaf => leaf

def numberedItems : List Value → List Value
  | [] => []
  | item :: rest => numbered item :: numberedItems rest

end

/-- What a tree holds at a position: the tree itself at the outermost, and from there on what stands
at a place in a list. -/
def part? : List Nat → Value → Option Value
  | [], tree => some tree
  | place :: inner, .list items => items[place]?.bind (part? inner)
  | _ :: _, _ => none

/-- Where one of two trees holds a boolean, the other holds the same one. -/
def SameBooleans (a b : Value) : Prop :=
  ∀ position t, part? position a = some (.bool t) ↔ part? position b = some (.bool t)

/-- In a list of the first tree there is a boolean, and in its place in the second the number that
it stands for. -/
def Confuses (a b : Value) : Prop :=
  ∃ position t, position ≠ [] ∧ part? position a = some (.bool t) ∧
    part? position b = some (ofBool t)

theorem plain_single {leaf : Value} (plain : leaf.isPlain = true) : Plain (.list [leaf]) := by
  have flat : leaf.isList = false := by
    cases leaf with
    | list => cases plain
    | _ => rfl
  exact (every_cons leaf []).mpr ⟨.leaf leaf flat plain, every_nil_list⟩

/-! Booleans as numbers. -/

theorem ofBool_injective {s t : Bool} (same : ofBool s = ofBool t) : s = t := by
  cases s <;> cases t <;> first | rfl | cases same

theorem numberedItems_eq_map (items : List Value) : numberedItems items = items.map numbered := by
  induction items with
  | nil => rfl
  | cons item rest ih => rw [numberedItems, ih, List.map_cons]

theorem numbered_of_flat {leaf : Value} (flat : leaf.isList = false)
    (no_bool : leaf.isBool = false) :
    leaf.numbered = leaf := by
  cases leaf with
  | bool => cases no_bool
  | list => cases flat
  | _ => rfl

theorem exists_eq_bool {leaf : Value} (boolean : leaf.isBool = true) : ∃ t, leaf = .bool t := by
  cases leaf with
  | bool t => exact ⟨t, rfl⟩
  | _ => cases boolean

theorem isList_numbered (tree : Value) : tree.numbered.isList = tree.isList := by
  cases tree <;> rfl

theorem isList_of_numbered {a b : Value} (same : a.numbered = b.numbered) :
    a.isList = b.isList := by
  rw [← isList_numbered, same, isList_numbered]

theorem cases_of_numbered_eq_ofBool {tree : Value} {t : Bool} (same : tree.numbered = ofBool t) :
    tree = .bool t ∨ tree = ofBool t := by
  cases tree with
  | bool s => exact .inl (congrArg Value.bool (ofBool_injective same))
  | list => cases same
  | _ => exact .inr same

theorem part?_numbered (position : List Nat) (tree : Value) :
    part? position tree.numbered = (part? position tree).map numbered := by
  induction position generalizing tree with
  | nil => rfl
  | cons place inner ih =>
      cases tree with
      | list items =>
          rw [numbered, numberedItems_eq_map, part?, part?, List.getElem?_map]
          cases items[place]? with
          | none => rfl
          | some item => exact ih item
      | _ => rfl

theorem opposite_of_numbered {a b : Value} (same : a.numbered = b.numbered) {position : List Nat}
    {t : Bool} (here : part? position a = some (.bool t)) :
    part? position b = some (.bool t) ∨ part? position b = some (ofBool t) := by
  have both := part?_numbered position b
  rw [← same, part?_numbered, here] at both
  obtain ⟨opposite, there, value⟩ := Option.map_eq_some_iff.mp both.symm
  rw [there]
  rcases cases_of_numbered_eq_ofBool value with rfl | rfl
  · exact .inl rfl
  · exact .inr rfl

theorem SameBooleans.item {xs ys : List Value} (booleans : SameBooleans (.list xs) (.list ys))
    {place : Nat} {x y : Value} (left : xs[place]? = some x) (right : ys[place]? = some y) :
    SameBooleans x y := by
  intro position t
  have inner := booleans (place :: position) t
  rwa [part?, part?, left, right] at inner

theorem eq_of_numbered_leaf {a b : Value} (flat : a.isList = false) (same : a.numbered = b.numbered)
    (booleans : SameBooleans a b) : a = b := by
  have flat' : b.isList = false := by rw [← isList_of_numbered same, flat]
  cases boolean : a.isBool with
  | true =>
      obtain ⟨t, rfl⟩ := exists_eq_bool boolean
      exact (Option.some.inj ((booleans [] t).mp rfl)).symm
  | false =>
      cases boolean' : b.isBool with
      | true =>
          obtain ⟨t, rfl⟩ := exists_eq_bool boolean'
          exact Option.some.inj ((booleans [] t).mpr rfl)
      | false => rw [← numbered_of_flat flat boolean, same, numbered_of_flat flat' boolean']

theorem getElem?_of_numberedItems {xs ys : List Value} (same : numberedItems xs = numberedItems ys)
    (place : Nat) :
    xs[place]?.map numbered = ys[place]?.map numbered := by
  rw [numberedItems_eq_map, numberedItems_eq_map] at same
  rw [← List.getElem?_map, same, List.getElem?_map]

theorem eq_of_numbered {a b : Value} (same : a.numbered = b.numbered)
    (booleans : SameBooleans a b) : a = b := by
  induction a using tree_induction generalizing b with
  | leaf a flat => exact eq_of_numbered_leaf flat same booleans
  | list xs ih =>
      cases b with
      | list ys =>
          refine congrArg Value.list (List.ext_getElem? fun place => ?_)
          have alike := getElem?_of_numberedItems (Value.list.inj same) place
          cases left : xs[place]? with
          | none =>
              rw [left] at alike
              exact (Option.map_eq_none_iff.mp alike.symm).symm
          | some x =>
              rw [left] at alike
              obtain ⟨y, right, equal⟩ := Option.map_eq_some_iff.mp alike.symm
              rw [right, ih x (List.mem_of_getElem? left) equal.symm (booleans.item left right)]
      | _ => cases same

theorem SameBooleans.symm {a b : Value} (booleans : SameBooleans a b) : SameBooleans b a :=
  fun position t => (booleans position t).symm

theorem SameBooleans.not_confuses {a b : Value} (booleans : SameBooleans a b) : ¬ Confuses a b := by
  rintro ⟨position, t, _, here, there⟩
  have twice := (booleans position t).mp here
  rw [there] at twice
  cases twice

theorem boolean_kept {a b : Value} (same : a.numbered = b.numbered) (top : a.isBool = b.isBool)
    (clear : ¬ Confuses a b) {position : List Nat} {t : Bool}
    (here : part? position a = some (.bool t)) :
    part? position b = some (.bool t) := by
  rcases opposite_of_numbered same here with there | there
  · exact there
  · refine absurd ⟨position, t, ?_, here, there⟩ clear
    rintro rfl
    cases here
    cases there
    cases top

/-- Among trees that are the same but for booleans, those with the same booleans are the ones in
which no boolean stands against its number. -/
theorem sameBooleans_iff {a b : Value} (same : a.numbered = b.numbered)
    (top : a.isBool = b.isBool) :
    SameBooleans a b ↔ ¬ (Confuses a b ∨ Confuses b a) := by
  constructor
  · rintro booleans (confused | confused)
    · exact booleans.not_confuses confused
    · exact booleans.symm.not_confuses confused
  · intro clear position t
    exact ⟨boolean_kept same top fun confused => clear (.inl confused),
      boolean_kept same.symm top.symm fun confused => clear (.inr confused)⟩

/-! Equality. -/

theorem equal_leaves_iff {a b : Value} (plain : a.isPlain = true) (plain' : b.isPlain = true) :
    a.equal b = true ↔ a.numbered = b.numbered := by
  cases a with
  | nil | bool | int | str | sym =>
      cases b with
      | nil | bool | int | str | sym =>
          simp [equal, equalAtoms, numbered, ofBool, number?, Number.equal_int_iff]
      | _ => cases plain'
  | _ => cases plain

theorem isList_of_equal {a b : Value} (equal_values : a.equal b = true) : a.isList = b.isList := by
  cases a with
  | list xs =>
      cases b with
      | list => rfl
      | _ => simp [equal, equalAtoms, number?] at equal_values
  | _ =>
      cases b with
      | list => simp [equal, equalAtoms, number?] at equal_values
      | _ => rfl

theorem sameNaN_of_plain {a : Value} (plain : Plain a) (b : Value) : a.sameNaN b = false := by
  cases plain with
  | leaf _ _ holds => cases a <;> first | rfl | cases holds
  | list => rfl

theorem equalLists_iff_numbered {xs ys : List Value} (plain : ∀ x ∈ xs, Plain x)
    (plain' : ∀ y ∈ ys, Plain y) (items : ∀ x ∈ xs, ∀ y, Plain y →
    (x.equal y = true ↔ x.numbered = y.numbered)) :
    equalLists xs ys = true ↔ numberedItems xs = numberedItems ys := by
  induction xs generalizing ys with
  | nil => cases ys <;> simp [equalLists, numberedItems]
  | cons x xs ih =>
      cases ys with
      | nil => simp [equalLists, numberedItems]
      | cons y ys =>
          rw [List.forall_mem_cons] at plain plain' items
          rw [equalLists, sameNaN_of_plain plain.1, Bool.false_or, Bool.and_eq_true,
            items.1 y plain'.1, ih plain.2 plain'.2 items.2, numberedItems, numberedItems,
            List.cons.injEq]

theorem equal_across {a b : Value} (apart : a.isList ≠ b.isList) :
    a.equal b = true ↔ a.numbered = b.numbered :=
  ⟨fun equal_values => absurd (isList_of_equal equal_values) apart,
    fun same => absurd (isList_of_numbered same) apart⟩

/-- Equality of values takes booleans for numbers, wherever they stand. -/
theorem equal_iff_numbered {a b : Value} (plain : Plain a) (plain' : Plain b) :
    a.equal b = true ↔ a.numbered = b.numbered := by
  induction plain generalizing b with
  | leaf a flat holds =>
      cases plain' with
      | leaf b _ holds' => exact equal_leaves_iff holds holds'
      | list => exact equal_across (by rw [flat]; exact Bool.false_ne_true)
  | list xs each ih =>
      cases plain' with
      | leaf b flat _ => exact equal_across (by rw [flat]; exact Bool.noConfusion)
      | list ys each' =>
          rw [equal, equalLists_iff_numbered each each' fun x member y plain => ih x member plain,
            numbered, numbered, Value.list.injEq]

theorem equalApart_eq_equal {a b : Value} (no_bool : a.isBool = false)
    (no_bool' : b.isBool = false) :
    equalApart a b = a.equal b := by
  cases a with
  | bool => cases no_bool
  | _ =>
      cases b with
      | bool => cases no_bool'
      | _ => rfl

theorem isBool_of_equalApart {a b : Value} (equal_values : equalApart a b = true) :
    a.isBool = b.isBool := by
  cases a with
  | bool =>
      cases b with
      | bool => rfl
      | _ => cases equal_values
  | _ =>
      cases b with
      | bool => cases equal_values
      | _ => rfl

/-- The primitive differs from equality of values only by the booleans at the top. -/
theorem equalApart_iff {a b : Value} (plain : Plain a) (plain' : Plain b) :
    equalApart a b = true ↔ a.numbered = b.numbered ∧ a.isBool = b.isBool := by
  suffices inner : a.isBool = b.isBool → (equalApart a b = true ↔ a.numbered = b.numbered) from
    ⟨fun equal_values =>
      have top := isBool_of_equalApart equal_values
      ⟨(inner top).mp equal_values, top⟩,
    fun alike => (inner alike.2).mpr alike.1⟩
  intro top
  cases boolean : a.isBool with
  | true =>
      obtain ⟨s, rfl⟩ := exists_eq_bool boolean
      obtain ⟨t, rfl⟩ := exists_eq_bool (top ▸ boolean)
      rw [equalApart, beq_iff_eq]
      exact ⟨congrArg ofBool, ofBool_injective⟩
  | false => rw [equalApart_eq_equal boolean (top ▸ boolean), equal_iff_numbered plain plain']

end Value

open Value (Plain SameBooleans Confuses)

theorem chained_pair (relation : Value → Value → Except Failure Bool) (a b : Value) :
    chained relation [a, b] = relation a b := by
  rw [chained, chained]
  rcases relation a b with _ | _ | _ <;> rfl

theorem on_equal_pair (added : AddedActions) (a b : Value) (store : Store) :
    (Operation.equal.run added [a, b]).on store =
      ((if a.equalNesting b ≤ comparisonLimit then .ok (.bool (equalApart a b))
        else .error .recursion), store) := by
  show (do return Value.bool (← Run.ofExcept (chained decideEqual [a, b])) : Run Value).on store = _
  rw [chained_pair, decideEqual, Run.on_bind, Run.on_ofExcept]
  by_cases room : a.equalNesting b ≤ comparisonLimit
  · rw [comparing, if_pos room, if_pos room]
    rfl
  · rw [comparing, if_neg room, if_neg room]

/-- The primitive decides equality as long as the trees are not nested too deep. As it decides it,
equality is sameness up to the booleans inside of lists. Equal trees hold the same booleans only if
they are the same tree, and this is so unless in a list of one a boolean stands against its number
in the other. -/
theorem equal_trees_same_or_confused (a b : Value) (plain : Plain a) (plain' : Plain b) :
    (∀ added store, (Operation.equal.run added [a, b]).on store =
      ((if a.equalNesting b ≤ comparisonLimit then .ok (.bool (equalApart a b))
        else .error .recursion), store)) ∧
    (equalApart a b = true ↔ a.numbered = b.numbered ∧ a.isBool = b.isBool) ∧
    (equalApart a b = true →
      (SameBooleans a b ↔ a = b) ∧ (SameBooleans a b ↔ ¬ (Confuses a b ∨ Confuses b a))) := by
  refine ⟨fun added store => on_equal_pair added a b store, Value.equalApart_iff plain plain',
    fun equal_trees => ?_⟩
  obtain ⟨same, top⟩ := (Value.equalApart_iff plain plain').mp equal_trees
  refine ⟨⟨Value.eq_of_numbered same, ?_⟩, Value.sameBooleans_iff same top⟩
  rintro rfl position t
  exact Iff.rfl

def nestedLeaf (leaf : Value) : Value := .list [.list [leaf], .int 0]

theorem plain_nestedLeaf {leaf : Value} (plain : leaf.isPlain = true) : Plain (nestedLeaf leaf) :=
  (Value.every_cons _ _).mpr ⟨Value.plain_single plain, Value.plain_single rfl⟩

theorem equal_trees_same_or_confused_nested :
    Plain (nestedLeaf (.bool true)) ∧ Plain (nestedLeaf (.int 1)) ∧
      equalApart (nestedLeaf (.bool true)) (nestedLeaf (.int 1)) = true ∧
      ¬ SameBooleans (nestedLeaf (.bool true)) (nestedLeaf (.int 1)) := by
  have plain : Plain (nestedLeaf (.bool true)) := plain_nestedLeaf rfl
  have plain' : Plain (nestedLeaf (.int 1)) := plain_nestedLeaf rfl
  obtain ⟨_, alike, booleans⟩ := equal_trees_same_or_confused _ _ plain plain'
  have equal_trees := alike.mpr ⟨rfl, rfl⟩
  refine ⟨plain, plain', equal_trees, fun kept => ?_⟩
  exact (booleans equal_trees).2.mp kept (.inl ⟨[0, 0], true, by simp, rfl, rfl⟩)

/-- The list of `true` is equal to the list of 1. -/
theorem boolean_equals_number_inside :
    Plain (.list [.bool true]) ∧ Plain (.list [.int 1]) ∧
      equalApart (.list [.bool true]) (.list [.int 1]) = true ∧
      (∀ added store, (Operation.equal.run added [.list [.bool true], .list [.int 1]]).on store =
        (.ok (.bool true), store)) ∧
      ¬ SameBooleans (.list [.bool true]) (.list [.int 1]) := by
  refine ⟨Value.plain_single rfl, Value.plain_single rfl, rfl, fun added store => ?_,
    fun booleans => ?_⟩
  · exact (on_equal_pair added _ _ store).trans (by rw [if_pos (by decide)]; rfl)
  · exact booleans.not_confuses ⟨[0], true, by simp, rfl, rfl⟩

end ThunkLisp
