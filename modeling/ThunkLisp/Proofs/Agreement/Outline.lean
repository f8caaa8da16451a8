import ThunkLisp.Proofs.Operations

/-!
Outlines of values. Values that differ only in the identities of procedures and of NaN, and in the
frames of procedures, have one outline. Primitives without effects give results of one outline for
arguments of one outline, as long as the comparisons among them are not asked about lists and
procedures.
-/

namespace ThunkLisp

open Value (Every)

namespace Value

mutual

/-- The value with the frames of its procedures renamed, and without the identities of procedures
and of NaN. -/
def outline (rename : FrameId → FrameId) : Value → Value
  | .procedure _ params body frame => .procedure 0 params body (rename frame)
  | .nan _ => .nan 0
  | .list items => .list (outlines rename items)
  | v => v

def outlines (rename : FrameId → FrameId) : List Value → List Value
  | [] => []
  | v :: rest => outline rename v :: outlines rename rest

end

variable (rename again : FrameId → FrameId)

theorem outlines_eq_map (items : List Value) : outlines rename items =
    items.map (outline rename) := by
  induction items with
  | nil => rfl
  | cons v rest ih => rw [outlines, ih, List.map_cons]

@[simp] theorem outline_list (items : List Value) :
    outline rename (.list items) = .list (items.map (outline rename)) := by
  rw [outline, outlines_eq_map]

theorem outline_outline (v : Value) :
    (v.outline rename).outline again = v.outline fun frame => again (rename frame) := by
  induction v using tree_induction with
  | leaf v flat => cases v <;> first | rfl | cases flat
  | list items ih =>
      simp only [outline_list, List.map_map, list.injEq]
      exact List.map_congr_left ih

theorem outline_congr {v : Value} {known : FrameId → Prop}
    (every : Every (fun leaf => ∀ identity params body frame,
      leaf = .procedure identity params body frame → known frame) v)
    (same : ∀ frame, known frame → rename frame = again frame) :
      v.outline rename = v.outline again := by
  induction every with
  | leaf v flat holds =>
      cases v with
      | procedure identity params body frame =>
          simp only [outline, same frame (holds identity params body frame rfl)]
      | list items => cases flat
      | _ => rfl
  | list items _ ih =>
      simp only [outline_list, list.injEq]
      exact List.map_congr_left ih

/-! What an outline has in common with its value. -/

@[simp] theorem isTrue_outline (v : Value) : (v.outline rename).isTrue = v.isTrue := by
  cases v <;> rfl

@[simp] theorem isEmptyOrZero_outline (v : Value) :
    (v.outline rename).isEmptyOrZero = v.isEmptyOrZero := by
  cases v with
  | list items => simp [isEmptyOrZero]
  | _ => rfl

@[simp] theorem number?_outline (v : Value) : (v.outline rename).number? = v.number? := by
  cases v <;> rfl

@[simp] theorem typeName_outline (v : Value) : (v.outline rename).typeName = v.typeName := by
  cases v <;> rfl

end Value

/-! Operations on single values. -/

section Outlines

variable (rename : FrameId → FrameId)

theorem firstOf_outline (v : Value) :
    firstOf (v.outline rename) = (firstOf v).map (Value.outline rename) := by
  unfold firstOf
  rw [Value.isEmptyOrZero_outline]
  split
  · rfl
  · cases v with
    | list items => cases items <;> rfl
    | _ => rfl

theorem restOf_outline (v : Value) :
    restOf (v.outline rename) = (restOf v).map (Value.outline rename) := by
  unfold restOf
  rw [Value.isEmptyOrZero_outline]
  split
  · rfl
  · cases v with
    | list items =>
        cases items with
        | nil => rfl
        | cons v rest => simp [Except.map]
    | _ => rfl

theorem pairOf_outline (head tail : Value) :
    pairOf (head.outline rename) (tail.outline rename) = (pairOf head tail).outline rename := by
  cases tail with
  | list items => simp [pairOf]
  | _ => simp [pairOf, Value.outline, Value.isNil]

theorem isEmptyList_outline (v : Value) : isEmptyList (v.outline rename) = isEmptyList v := by
  cases v with
  | list items => simp [isEmptyList]
  | _ => rfl

/-! Arithmetic. -/

namespace Arithmetic

theorem toValue_outline (n : Number) : n.toValue.outline rename = n.toValue := by
  unfold Number.toValue
  split
  · rfl
  · split <;> rfl

theorem combine_outline (symbol : String) (op : Number → Number → Except ArithmeticFault Number)
    (a b : Value) :
    combine symbol op (a.outline rename) (b.outline rename) =
      (combine symbol op a b).map (Value.outline rename) := by
  simp only [combine, Value.number?_outline, Value.typeName_outline]
  split
  · split
    · simp [Except.map, toValue_outline]
    · rfl
  · rfl

theorem negate_outline (a : Value) :
    negate (a.outline rename) = (negate a).map (Value.outline rename) := by
  simp only [negate, Value.number?_outline, Value.typeName_outline]
  split
  · simp [Except.map, toValue_outline]
  · rfl

theorem repeatCount_outline (count : Value) : repeatCount (count.outline rename) =
    repeatCount count := by
  simp only [repeatCount, Value.number?_outline, Value.typeName_outline]

theorem repeatList_map {α β : Type} (f : α → β) (items : List α) (count : Nat) :
    repeatList (items.map f) count = (repeatList items count).map (List.map f) := by
  simp only [repeatList, List.isEmpty_map, List.length_map]
  split
  · rfl
  · split
    · simp [Except.map, List.map_flatten]
    · rfl

theorem repeat?_outline (sequence count : Value) :
    repeat? (sequence.outline rename) (count.outline rename) =
      (repeat? sequence count).map (Except.map (Value.outline rename)) := by
  cases sequence with
  | list items =>
      simp only [repeat?, Value.outline_list, repeatCount_outline, repeatList_map]
      cases repeatCount count with
      | error failure => rfl
      | ok found =>
          cases rows : repeatList items found <;> simp [bind, Except.bind, rows, Except.map, pure,
              Except.pure]
  | str text =>
      simp only [repeat?, Value.outline, repeatCount_outline]
      cases repeatCount count with
      | error failure => rfl
      | ok found =>
          cases row : repeatText text.toList found <;>
            simp [bind, Except.bind, row, Except.map, pure, Except.pure, Value.outline]
  | _ => rfl

theorem multiply_outline (a b : Value) :
    multiply (a.outline rename) (b.outline rename) = (multiply a b).map (Value.outline rename) := by
  simp only [multiply, repeat?_outline]
  cases repeat? a b with
  | some outcome => rfl
  | none =>
      cases repeat? b a with
      | some outcome => rfl
      | none => exact combine_outline rename _ _ a b

theorem foldlM_outline {step : Value → Value → Except Failure Value}
    (steps : ∀ a b, step (a.outline rename) (b.outline rename) =
      (step a b).map (Value.outline rename))
    (operands : List Value) (start : Value) :
    (operands.map (Value.outline rename)).foldlM step (start.outline rename) =
      (operands.foldlM step start).map (Value.outline rename) := by
  induction operands generalizing start with
  | nil => rfl
  | cons operand rest ih =>
      simp only [List.map_cons, List.foldlM_cons, steps]
      cases step start operand with
      | error failure => rfl
      | ok v => exact ih v

theorem differenceOf_outline (first : Value) (rest : List Value) :
    differenceOf (first.outline rename) (rest.map (Value.outline rename)) =
      (differenceOf first rest).map (Value.outline rename) := by
  cases rest with
  | nil => exact negate_outline rename first
  | cons operand rest =>
      exact foldlM_outline rename (combine_outline rename _ _) (operand :: rest) first

theorem quotientOf_outline (first : Value) (rest : List Value) :
    quotientOf (first.outline rename) (rest.map (Value.outline rename)) =
      (quotientOf first rest).map (Value.outline rename) := by
  cases rest with
  | nil => exact combine_outline rename _ _ (.int 1) first
  | cons operand rest =>
      exact foldlM_outline rename (combine_outline rename _ _) (operand :: rest) first

end Arithmetic

/-! Comparisons. -/

namespace Value

def isCompound : Value → Bool
  | .list _ | .procedure .. | .primitive _ => true
  | _ => false

theorem isCompound_outline (v : Value) : (v.outline rename).isCompound = v.isCompound := by
  cases v <;> rfl

theorem outline_of_simple {v : Value} (simple : v.isCompound = false) :
    v.outline rename = v ∨ ∃ identity, v = .nan identity := by
  cases v with
  | nan identity => exact .inr ⟨identity, rfl⟩
  | list items => cases simple
  | procedure identity params body frame => cases simple
  | _ => exact .inl rfl

end Value

theorem relation_outline {α : Type} (relation : Value → Value → α)
    (left : ∀ identity b, relation (.nan identity) b = relation (.nan 0) b)
    (right : ∀ identity a, relation a (.nan identity) = relation a (.nan 0)) {a b : Value}
    (simple : a.isCompound = false) (simple' : b.isCompound = false) :
    relation (a.outline rename) (b.outline rename) = relation a b := by
  have first : relation (a.outline rename) (b.outline rename) = relation a (b.outline rename) := by
    rcases Value.outline_of_simple rename simple with same | ⟨identity, rfl⟩
    · rw [same]
    · exact (left identity _).symm
  rw [first]
  rcases Value.outline_of_simple rename simple' with same | ⟨identity, rfl⟩
  · rw [same]
  · exact (right identity _).symm

theorem equalApart_outline {a b : Value} (simple : a.isCompound = false)
    (simple' : b.isCompound = false) :
    equalApart (a.outline rename) (b.outline rename) = equalApart a b := by
  refine relation_outline rename equalApart (fun identity b => ?_)
    (fun identity a => ?_) simple simple'
  · cases b <;> rfl
  · cases a <;> rfl

theorem ordered_outline (relation : Comparison) {a b : Value} (simple : a.isCompound = false)
    (simple' : b.isCompound = false) :
    (ordered relation (a.outline rename) (b.outline rename)).toOption =
      (ordered relation a b).toOption := by
  refine relation_outline rename (fun a b => (ordered relation a b).toOption) (fun identity b => ?_)
    (fun identity a => ?_) simple simple'
  · cases b <;> rfl
  · cases a <;> rfl

theorem comparing_of_simple {nesting : Value → Value → Nat} {a b : Value}
    {outcome : Except Failure Bool} (flat : ∀ a b, a.isList = false → nesting a b = 1)
    (simple : a.isCompound = false) :
    comparing (nesting a b) outcome = outcome := by
  have one : nesting a b = 1 := flat a b (by cases a <;> first | rfl | cases simple)
  exact comparing_of_le (by rw [one]; decide) outcome

theorem decideEqual_of_simple {a : Value} (simple : a.isCompound = false) (b : Value) :
    decideEqual a b = .ok (equalApart a b) :=
  comparing_of_simple (fun _ _ flat => Value.equalNesting_of_flat flat _) simple

theorem decideOrder_of_simple (relation : Comparison) {a : Value} (simple : a.isCompound = false)
    (b : Value) : decideOrder relation a b = ordered relation a b :=
  comparing_of_simple (fun _ _ flat => Value.orderNesting_of_flat flat _) simple

theorem chained_outline {relation : Value → Value → Except Failure Bool} {given : List Value}
    (steps : ∀ a ∈ given, ∀ b ∈ given,
      (relation (a.outline rename) (b.outline rename)).toOption = (relation a b).toOption) :
    (chained relation (given.map (Value.outline rename))).toOption =
      (chained relation given).toOption := by
  fun_induction chained relation given with
  | case1 => rfl
  | case2 => rfl
  | case3 a b rest ih =>
      have first := steps a (by simp) b (by simp)
      have behind := ih fun a member b member' => steps a (by simp [member]) b (by simp [member'])
      simp only [List.map_cons, chained] at behind ⊢
      cases related : relation a b with
      | error failure =>
          cases related' : relation (a.outline rename) (b.outline rename) with
          | error failure' => rfl
          | ok found => simp [related, related', Except.toOption] at first
      | ok found =>
          cases related' : relation (a.outline rename) (b.outline rename) with
          | error failure' => simp [related, related', Except.toOption] at first
          | ok found' =>
              obtain rfl : found' = found := by
                simpa [related, related', Except.toOption] using first
              cases found' with
              | false => rfl
              | true => exact behind

end Outlines

/-! The number of arguments. -/

/-- What is computed from a fixed number of arguments. Another number of them is an error. -/
def ofOne (action : Value → Except Failure Value) : List Value → Except Failure Value
  | [a] => action a
  | _ => .error .nothingToCompare

def ofTwo (action : Value → Value → Except Failure Value) : List Value → Except Failure Value
  | [a, b] => action a b
  | _ => .error .nothingToCompare

def ofSome (action : Value → List Value → Except Failure Value) : List Value → Except Failure Value
  | [] => .error .nothingToCompare
  | a :: rest => action a rest

section Counts

variable (rename : FrameId → FrameId)

theorem ofOne_outline {action : Value → Except Failure Value}
    (natural : ∀ a, action (a.outline rename) = (action a).map (Value.outline rename))
    (given : List Value) :
    ofOne action (given.map (Value.outline rename)) = (ofOne action given).map
      (Value.outline rename) := by
  match given with
  | [] => rfl
  | [a] => exact natural a
  | _ :: _ :: _ => rfl

theorem ofTwo_outline {action : Value → Value → Except Failure Value}
    (natural : ∀ a b, action (a.outline rename) (b.outline rename) =
      (action a b).map (Value.outline rename)) (given : List Value) :
    ofTwo action (given.map (Value.outline rename)) = (ofTwo action given).map
      (Value.outline rename) := by
  match given with
  | [] => rfl
  | [_] => rfl
  | [a, b] => exact natural a b
  | _ :: _ :: _ :: _ => rfl

theorem ofSome_outline {action : Value → List Value → Except Failure Value}
    (natural : ∀ a rest, action (a.outline rename) (rest.map (Value.outline rename)) =
      (action a rest).map (Value.outline rename)) (given : List Value) :
    ofSome action (given.map (Value.outline rename)) = (ofSome action given).map
      (Value.outline rename) := by
  match given with
  | [] => rfl
  | a :: rest => exact natural a rest

end Counts

/-- In the store the computation gives the value that the outcome has, but for the identity of a
NaN, or it fails if there is none. All it does to the store is that it may take an identity. -/
def Computes (x : Run Value) (outcome : Except Failure Value) (store : Store) : Prop :=
  match outcome with
  | .ok u => ∃ v fresh, x.on store = (.ok v, { store with fresh := fresh }) ∧
      ∀ rename, v.outline rename = u.outline rename
  | .error _ => ∃ failure, x.on store = (.error failure, store)

namespace Computes

variable (store : Store)

theorem fails (failure found : Failure) : Computes (throw failure) (.error found) store :=
  ⟨failure, rfl⟩

theorem ofExcept (outcome : Except Failure Value) : Computes (Run.ofExcept outcome) outcome
    store := by
  cases outcome with
  | ok u => exact ⟨u, store.fresh, rfl, fun _ => rfl⟩
  | error failure => exact ⟨failure, rfl⟩

theorem renewing (outcome : Except Failure Value) :
    Computes (Run.ofExcept outcome >>= renewed) outcome store := by
  cases outcome with
  | error failure => exact ⟨failure, rfl⟩
  | ok u =>
      cases u with
      | nan identity => exact ⟨.nan store.fresh, store.fresh + 1, rfl, fun _ => rfl⟩
      | _ => exact ⟨_, store.fresh, rfl, fun _ => rfl⟩

theorem answering (outcome : Except Failure Bool) :
    Computes (Run.ofExcept outcome >>= fun b => pure (Value.bool b))
      (outcome.map Value.bool) store := by
  cases outcome with
  | ok b => exact ⟨.bool b, store.fresh, rfl, fun _ => rfl⟩
  | error failure => exact ⟨failure, rfl⟩

theorem unary {function name : String} {action : Value → Run Value}
    {result : Value → Except Failure Value} (one : ∀ a, Computes (action a) (result a) store)
    (given : List Value) :
    Computes (unary function name action given) (ofOne result given) store := by
  match given with
  | [] => exact fails store _ _
  | [a] => exact one a
  | _ :: _ :: _ => exact fails store _ _

theorem binary {function left right : String} {action : Value → Value → Run Value}
    {result : Value → Value → Except Failure Value}
    (two : ∀ a b, Computes (action a b) (result a b) store) (given : List Value) :
    Computes (binary function left right action given) (ofTwo result given) store := by
  match given with
  | [] => exact fails store _ _
  | [_] => exact fails store _ _
  | [a, b] => exact two a b
  | _ :: _ :: _ :: _ => exact fails store _ _

theorem oneOrMore {function name : String} {action : Value → List Value → Run Value}
    {result : Value → List Value → Except Failure Value}
    (some_ : ∀ a rest, Computes (action a rest) (result a rest) store) (given : List Value) :
    Computes (oneOrMore function name action given) (ofSome result given) store := by
  match given with
  | [] => exact fails store _ _
  | a :: rest => exact some_ a rest

end Computes

/-! Primitives. -/

namespace Arithmetic

def outcome : Arithmetic → List Value → Except Failure Value
  | .sum => sumOf
  | .product => productOf
  | .difference => ofSome differenceOf
  | .quotient => ofSome quotientOf

theorem outcome_outline (rename : FrameId → FrameId) (kind : Arithmetic) (given : List Value) :
    kind.outcome (given.map (Value.outline rename)) = (kind.outcome given).map
      (Value.outline rename) := by
  cases kind with
  | sum => exact foldlM_outline rename (combine_outline rename _ _) given (.int 0)
  | product => exact foldlM_outline rename (multiply_outline rename) given (.int 1)
  | difference => exact ofSome_outline rename (differenceOf_outline rename) given
  | quotient => exact ofSome_outline rename (quotientOf_outline rename) given

theorem computes (store : Store) (kind : Arithmetic) (given : List Value) :
    Computes (kind.run given) (kind.outcome given) store := by
  cases kind with
  | sum => exact .renewing store _
  | product => exact .renewing store _
  | difference => exact .oneOrMore store (fun _ _ => .renewing store _) given
  | quotient => exact .oneOrMore store (fun _ _ => .renewing store _) given

end Arithmetic

namespace Operation

def compares : Operation → Bool
  | .equal | .compare _ => true
  | _ => false

def isPlain : Operation → Bool
  | .display | .added _ => false
  | _ => true

def outcome : Operation → List Value → Except Failure Value
  | .first => ofOne firstOf
  | .rest => ofOne restOf
  | .pair => ofTwo fun a b => .ok (pairOf a b)
  | .isEmpty => ofOne fun a => .ok (.bool (isEmptyList a))
  | .arithmetic kind => kind.outcome
  | .equal => fun given => (chained decideEqual given).map Value.bool
  | .compare relation => fun given => (chained (decideOrder relation) given).map Value.bool
  | .negation => ofOne fun a => .ok (.bool (!a.isTrue))
  | .list => fun given => .ok (.list given)
  | .display | .added _ => fun _ => .error .nothingToCompare

theorem outcome_outline (rename : FrameId → FrameId) (operation : Operation) (given : List Value)
    (simple : operation.compares = true → ∀ v ∈ given, v.isCompound = false) :
    (operation.outcome (given.map (Value.outline rename))).toOption =
      (operation.outcome given).toOption.map (Value.outline rename) := by
  have of_map {left right : Except Failure Value} (same : left = right.map (Value.outline rename)) :
      left.toOption = right.toOption.map (Value.outline rename) := by
    rw [same]
    cases right <;> rfl
  have of_bool {left right : Except Failure Bool} (same : left.toOption = right.toOption) :
      (left.map Value.bool).toOption = (right.map Value.bool).toOption.map
        (Value.outline rename) := by
    cases left <;> cases right <;> simp_all [Except.toOption, Except.map, Value.outline]
  cases operation with
  | first => exact of_map (ofOne_outline rename (firstOf_outline rename) given)
  | rest => exact of_map (ofOne_outline rename (restOf_outline rename) given)
  | pair =>
      exact of_map (ofTwo_outline rename (fun a b => congrArg Except.ok (pairOf_outline rename a b))
        given)
  | isEmpty =>
      refine of_map (ofOne_outline rename (fun a => ?_) given)
      rw [isEmptyList_outline]
      rfl
  | arithmetic kind => exact of_map (kind.outcome_outline rename given)
  | equal =>
      refine of_bool (chained_outline rename fun a member b member' => ?_)
      have first := simple rfl a member
      rw [decideEqual_of_simple ((Value.isCompound_outline rename a).trans first),
        decideEqual_of_simple first, equalApart_outline rename first (simple rfl b member')]
  | compare relation =>
      refine of_bool (chained_outline rename fun a member b member' => ?_)
      have first := simple rfl a member
      rw [decideOrder_of_simple relation ((Value.isCompound_outline rename a).trans first),
        decideOrder_of_simple relation first,
        ordered_outline rename relation first (simple rfl b member')]
  | negation =>
      refine of_map (ofOne_outline rename (fun a => ?_) given)
      rw [Value.isTrue_outline]
      rfl
  | list => simp [outcome, Except.toOption]
  | display => rfl
  | added name => rfl

theorem computes (added : AddedActions) (store : Store) (operation : Operation)
    (plain : operation.isPlain = true) (given : List Value) :
    Computes (operation.run added given) (operation.outcome given) store := by
  cases operation with
  | first => exact .unary store (fun a => .ofExcept store (firstOf a)) given
  | rest => exact .unary store (fun a => .ofExcept store (restOf a)) given
  | pair => exact .binary store (fun a b => .ofExcept store (.ok (pairOf a b))) given
  | isEmpty => exact .unary store (fun a => .ofExcept store (.ok (.bool (isEmptyList a)))) given
  | arithmetic kind => exact kind.computes store given
  | equal => exact .answering store _
  | compare relation => exact .answering store _
  | negation => exact .unary store (fun a => .ofExcept store (.ok (.bool (!a.isTrue)))) given
  | list => exact .ofExcept store (.ok (.list given))
  | display => cases plain
  | added name => cases plain

/-- The results have the leaves of the arguments, or new ones, and no frames are changed. -/
theorem run_every {p : Value → Prop} (results : HasResults p) (added : AddedActions)
    (operation : Operation) (plain : operation.isPlain = true) (given : List Value)
    (each : ∀ v ∈ given, Every p v) {store after : Store} {v : Value}
    (ran : (operation.run added given).on store = (.ok v, after)) :
    Every p v ∧ after.frames = store.frames := by
  have clear : Clear fun store => store := ⟨fun _ => rfl, fun _ => rfl, fun _ _ _ => rfl⟩
  have default_ : ∀ name, operation ≠ .added name := by
    rintro name rfl
    cases plain
  have mild : Mild (fun store => store) (fun _ => True) (Every p) (operation.run added given) :=
    .operation clear results (fun _ _ => trivial) added operation default_ given each fun _ _ _ =>
      rfl
  obtain ⟨outcome, fresh, printed, ran', _, fine⟩ := mild store
  rw [ran] at ran'
  cases ran'
  exact ⟨fine, rfl⟩

theorem run_outline (added added' : AddedActions) (operation : Operation)
    (plain : operation.isPlain = true) {given given' : List Value}
    (rename again : FrameId → FrameId) (same : given.map (Value.outline rename) =
    given'.map (Value.outline again))
    (simple : operation.compares = true → ∀ v ∈ given', v.isCompound = false)
    {store store' after : Store} {v : Value}
    (ran : (operation.run added' given').on store' = (.ok v, after)) :
    ∃ w fresh, (operation.run added given).on store = (.ok w, { store with fresh := fresh }) ∧
      w.outline rename = v.outline again := by
  have simple' : operation.compares = true → ∀ w ∈ given, w.isCompound = false := by
    intro comparing w member
    have inside : w.outline rename ∈ given'.map (Value.outline again) := by
      rw [← same]
      exact List.mem_map_of_mem member
    obtain ⟨u, member', shape⟩ := List.mem_map.mp inside
    rw [← Value.isCompound_outline rename, ← shape, Value.isCompound_outline,
      simple comparing u member']
  have outcomes : (operation.outcome given).toOption.map (Value.outline rename) =
      (operation.outcome given').toOption.map (Value.outline again) := by
    rw [← outcome_outline rename operation given simple', same,
      outcome_outline again operation given' simple]
  -- both runs give what is computed, up to the identities that they take
  have known := computes added' store' operation plain given'
  have asked := computes added store operation plain given
  cases found' : operation.outcome given' with
  | error failure =>
      rw [found'] at known
      obtain ⟨failure, failed⟩ := known
      rw [ran] at failed
      cases failed
  | ok u' =>
      rw [found'] at known outcomes
      obtain ⟨v', _, ran', shape'⟩ := known
      rw [ran] at ran'
      cases ran'
      cases found : operation.outcome given with
      | error failure => simp [found, Except.toOption] at outcomes
      | ok u =>
          rw [found] at asked outcomes
          obtain ⟨w, fresh, done, shape⟩ := asked
          refine ⟨w, fresh, done, ?_⟩
          rw [shape, shape']
          exact Option.some.inj outcomes

end Operation

end ThunkLisp
