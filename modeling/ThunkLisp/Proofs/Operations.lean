import ThunkLisp.Proofs.Effects
import ThunkLisp.Proofs.Shown

/-!
What the default primitives do. Their results are made of leaves of their arguments, and of numbers,
truth values and texts; their messages show arguments only. In the store they take identities and
print, and they do so alike in two stores that give the arguments the same texts.
-/

namespace ThunkLisp

open Value (Every)

structure HasResults (p : Value → Prop) : Prop where
  nil : p .nil
  bool (b : Bool) : p (.bool b)
  int (n : Int) : p (.int n)
  float (x : Float) : p (.float x)
  nan (identity : Nat) : p (.nan identity)
  str (text : String) : p (.str text)

/-- A good result, or a message that shows only certain values. -/
def Fine {α : Type} (shown : Value → Prop) (good : α → Prop) : Except Failure α → Prop
  | .ok v => good v
  | .error failure => failure.Shows shown

namespace Fine

variable {α β : Type} {p shown : Value → Prop}

theorem bind {outcome : Except Failure α} {next : α → Except Failure β} {good : α → Prop}
    {better : β → Prop} (first : Fine shown good outcome)
    (rest : ∀ v, good v → Fine shown better (next v)) :
    Fine shown better (outcome >>= next) := by
  cases outcome with
  | ok v => exact rest v first
  | error failure => exact first

theorem imp {outcome : Except Failure α} {good better : α → Prop} (fine : Fine shown good outcome)
    (stronger : ∀ v, good v → better v) : Fine shown better outcome := by
  cases outcome with
  | ok v => exact stronger v fine
  | error failure => exact fine

theorem of_words {failure : Failure} {good : α → Prop}
    (words : ∀ phrase ∈ failure.phrases, ∃ text, phrase = .words text) :
    Fine shown good (.error failure) := by
  intro phrase member
  obtain ⟨text, rfl⟩ := words phrase member
  trivial

theorem operand (fault : OperandFault) : (Failure.operand fault).Shows shown := by
  simp [Failure.Shows, Failure.phrases, Phrase.Shows]

theorem arithmetic (fault : ArithmeticFault) {good : α → Prop} :
    Fine shown good (.error (.arithmetic fault)) :=
  of_words (by simp [Failure.phrases])

/-! Lists and texts. -/

theorem firstOf (results : HasResults p) (v : Value) (every : Every p v) :
    Fine shown (Every p) (firstOf v) := by
  unfold ThunkLisp.firstOf
  split
  · exact (Value.every_of_flat rfl).mpr results.nil
  · split
    · exact (Value.every_list _).mp every _ (by simp)
    · exact (Value.every_of_flat rfl).mpr (results.str _)
    · exact operand _

theorem restOf (results : HasResults p) (v : Value) (every : Every p v) :
    Fine shown (Every p) (restOf v) := by
  unfold ThunkLisp.restOf
  split
  · exact Value.every_nil_list
  · split
    · exact ((Value.every_cons _ _).mp every).2
    · exact (Value.every_of_flat rfl).mpr (results.str _)
    · exact operand _

theorem pairOf (head tail : Value) (first : Every p head) (second : Every p tail) :
    Every p (pairOf head tail) := by
  have alone : Every p (.list [head]) := (Value.every_cons _ _).mpr ⟨first, Value.every_nil_list⟩
  have both : Every p (.list [head, tail]) :=
    (Value.every_cons _ _).mpr ⟨first, (Value.every_cons _ _).mpr ⟨second, Value.every_nil_list⟩⟩
  unfold ThunkLisp.pairOf
  split
  · exact (Value.every_cons _ _).mpr ⟨first, second⟩
  · split
    · exact alone
    · exact both

/-! Arithmetic. -/

theorem toValue (results : HasResults p) (n : Number) : Every p n.toValue := by
  unfold Number.toValue
  split
  · exact (Value.every_of_flat rfl).mpr (results.int _)
  · split
    · exact (Value.every_of_flat rfl).mpr (results.nan _)
    · exact (Value.every_of_flat rfl).mpr (results.float _)

theorem combine (results : HasResults p) (symbol : String)
    (op : Number → Number → Except ArithmeticFault Number) (a b : Value) :
    Fine shown (Every p) (Arithmetic.combine symbol op a b) := by
  unfold Arithmetic.combine
  split
  · split
    · exact toValue results _
    · exact arithmetic _
  · exact operand _

theorem negate (results : HasResults p) (a : Value) : Fine shown (Every p)
    (Arithmetic.negate a) := by
  unfold Arithmetic.negate
  split
  · exact toValue results _
  · exact operand _

theorem repeatCount (count : Value) : Fine shown (fun _ => True)
    (Arithmetic.repeatCount count) := by
  unfold Arithmetic.repeatCount
  split
  · split
    · trivial
    · exact arithmetic _
  · exact operand _

theorem repeatList (items : List α) (count : Nat) :
    Fine shown (fun found => ∀ item ∈ found, item ∈ items) (Arithmetic.repeatList items count) := by
  unfold Arithmetic.repeatList
  split
  · simp [Fine]
  · split
    · intro item member
      obtain ⟨row, inside, member⟩ := List.mem_flatten.mp member
      exact (List.eq_of_mem_replicate inside) ▸ member
    · exact arithmetic _

theorem repeatText (text : List Char) (count : Nat) :
    Fine shown (fun _ => True) (Arithmetic.repeatText text count) := by
  unfold Arithmetic.repeatText
  split
  · exact (repeatList text count).imp fun _ _ => trivial
  · exact arithmetic _

theorem multiply (results : HasResults p) (a b : Value) (left : Every p a) (right : Every p b) :
    Fine shown (Every p) (Arithmetic.multiply a b) := by
  have repeated (sequence count : Value) (every : Every p sequence)
      (outcome : Except Failure Value) (found : Arithmetic.repeat? sequence count = some outcome) :
      Fine shown (Every p) outcome := by
    unfold Arithmetic.repeat? at found
    split at found <;> cases found
    · exact (repeatCount count).bind fun _ _ => (repeatText _ _).bind fun _ _ =>
        (Value.every_of_flat rfl).mpr (results.str _)
    · refine (repeatCount count).bind fun _ _ => (repeatList _ _).bind fun rows inside => ?_
      exact .list rows fun v member => (Value.every_list _).mp every v (inside v member)
  unfold Arithmetic.multiply
  split
  · next outcome found => exact repeated a b left outcome found
  · split
    · next outcome found => exact repeated b a right outcome found
    · exact combine results _ _ a b

theorem foldlM {step : Value → Value → Except Failure Value}
    (steps : ∀ a b, Every p a → Every p b → Fine shown (Every p) (step a b)) (operands : List Value)
    (start : Value) (first : Every p start) (each : ∀ v ∈ operands, Every p v) :
    Fine shown (Every p) (operands.foldlM step start) := by
  induction operands generalizing start with
  | nil => exact first
  | cons operand rest ih =>
      rw [List.foldlM_cons]
      exact (steps start operand first (each operand (by simp))).bind fun v every =>
        ih v every fun v member => each v (by simp [member])

/-! Comparisons. -/

theorem ordered (weaker : ∀ v, p v → shown v) (relation : Comparison) (a b : Value)
    (left : Every p a) (right : Every p b) :
    Fine shown (fun _ => True) (ordered relation a b) := by
  have shows_ : (Failure.unorderedBooleans a b).Shows shown := by
    simpa [Failure.Shows, Failure.phrases, Phrase.Shows] using
      ⟨left.imp weaker, right.imp weaker⟩
  unfold ThunkLisp.ordered
  split
  · exact shows_
  · exact shows_
  · split
    · trivial
    · exact operand _

theorem comparing {nesting : Nat} {outcome : Except Failure Bool}
    (fine : Fine shown (fun _ => True) outcome) :
    Fine shown (fun _ => True) (comparing nesting outcome) := by
  unfold ThunkLisp.comparing
  split
  · exact fine
  · exact of_words (by simp [Failure.phrases])

theorem chained (relation : Value → Value → Except Failure Bool)
    (steps : ∀ a b, Every p a → Every p b → Fine shown (fun _ => True) (relation a b))
    (given : List Value) (each : ∀ v ∈ given, Every p v) :
    Fine shown (fun _ => True) (chained relation given) := by
  fun_induction ThunkLisp.chained relation given with
  | case1 => exact of_words (by simp [Failure.phrases])
  | case2 => trivial
  | case3 a b rest ih =>
      refine (steps a b (each a (by simp)) (each b (by simp))).bind fun related _ => ?_
      cases related with
      | false => trivial
      | true => exact ih fun v member => each v (by simp_all)

end Fine

/-! Effects. -/

/-- A view of stores that leaves alone what primitives change. -/
structure Clear (view : Store → Store) : Prop where
  fresh (store : Store) : (view store).fresh = store.fresh
  printed (store : Store) : (view store).printed = store.printed
  update (store : Store) (fresh : Nat) (printed : String) :
    view { store with fresh := fresh, printed := printed } =
      { view store with fresh := fresh, printed := printed }

theorem Clear.self : Clear fun store => store := ⟨fun _ => rfl, fun _ => rfl, fun _ _ _ => rfl⟩

/-- In a store and in the viewed one the computation does the same, and all it changes are the next
identity and what has been printed. -/
def Mild {α : Type} (view : Store → Store) (shown : Value → Prop) (good : α → Prop) (x : Run α) :
    Prop :=
  ∀ store, ∃ outcome fresh printed,
    x.on store = (outcome, { store with fresh := fresh, printed := printed }) ∧
    x.on (view store) = (outcome, { view store with fresh := fresh, printed := printed }) ∧
    Fine shown good outcome

namespace Mild

variable {α β : Type} {view : Store → Store} {p shown : Value → Prop} {good : α → Prop}

theorem ofExcept (clear : Clear view) {outcome : Except Failure α}
    (fine : Fine shown good outcome) :
    Mild view shown good (Run.ofExcept outcome) := by
  intro store
  refine ⟨outcome, store.fresh, store.printed, by rw [Run.on_ofExcept], ?_, fine⟩
  rw [Run.on_ofExcept]
  have same := clear.update store store.fresh store.printed
  exact congrArg (Prod.mk outcome) same

theorem pure (clear : Clear view) {v : α} (holds : good v) : Mild view shown good (pure v) := by
  have fine : Fine shown good (.ok v) := holds
  exact ofExcept clear fine

theorem throw (clear : Clear view) {failure : Failure} (shows_ : failure.Shows shown) :
    Mild view shown good (throw failure) := by
  have fine : Fine shown good (.error failure : Except Failure α) := shows_
  exact ofExcept clear fine

theorem bind (clear : Clear view) {x : Run α} {next : α → Run β} {better : β → Prop}
    (first : Mild view shown good x) (rest : ∀ v, good v → Mild view shown better (next v)) :
    Mild view shown better (x >>= next) := by
  intro store
  obtain ⟨outcome, fresh, printed, ran, viewed, fine⟩ := first store
  cases outcome with
  | error failure =>
      exact ⟨.error failure, fresh, printed, by simp [Run.on_bind, ran], by
        simp [Run.on_bind, viewed], fine⟩
  | ok v =>
      obtain ⟨result, fresh', printed', ran', viewed', fine'⟩ :=
        rest v fine { store with fresh := fresh, printed := printed }
      refine ⟨result, fresh', printed', by simp [Run.on_bind, ran, ran'], ?_, fine'⟩
      rw [clear.update] at viewed'
      simp [Run.on_bind, viewed, viewed']

theorem takeIdentity (clear : Clear view) :
    Mild view shown (fun _ => True) (Run.make Store.takeIdentity) := by
  intro store
  refine ⟨.ok store.fresh, store.fresh + 1, store.printed, rfl, ?_, trivial⟩
  rw [on_takeIdentity, clear.fresh]
  exact congrArg (Prod.mk _) (by rw [← clear.printed store])

theorem print (clear : Clear view) (text : String) :
    Mild view shown (fun _ => True) (Run.change fun store => store.print text) := by
  intro store
  refine ⟨.ok (), store.fresh, store.printed ++ text, rfl, ?_, trivial⟩
  rw [Run.on_change, ← clear.fresh store, ← clear.printed store]
  rfl

theorem renewed (clear : Clear view) (results : HasResults p) (v : Value) (every : Every p v) :
    Mild view shown (Every p) (renewed v) := by
  unfold ThunkLisp.renewed
  split
  · exact (takeIdentity clear).bind clear fun identity _ =>
      pure clear ((Value.every_of_flat rfl).mpr (results.nan identity))
  · exact pure clear every

theorem displayOne (clear : Clear view) (v : Value)
    (same : ∀ store, (view store).displayed v = store.displayed v) :
    Mild view shown (fun _ => True) (displayOne v) := by
  have text : Mild view shown (fun _ => True)
      (do Run.ofExcept (← Run.read fun store => store.displayed v)) := by
    intro store
    refine ⟨store.displayed v, store.fresh, store.printed, ?_, ?_, ?_⟩
    · simp [Run.on_bind, Run.on_read, Run.on_ofExcept]
    · simp [Run.on_bind, Run.on_read, Run.on_ofExcept, same, ← clear.fresh store,
        ← clear.printed store]
    · cases displayed : store.displayed v with
      | ok text => trivial
      | error failure => exact Fine.of_words (Store.displayed_untold displayed).words
  exact text.bind clear fun text _ => print clear text

theorem displayAll (clear : Clear view) (results : HasResults p) (given : List Value)
    (same : ∀ v ∈ given, ∀ store, (view store).displayed v = store.displayed v) :
    Mild view shown (Every p) (displayAll given) := by
  have row : Mild view shown (fun _ => True) (displayRow given) := by
    fun_induction displayRow given with
    | case1 => exact pure clear trivial
    | case2 v => exact displayOne clear v (same v (by simp))
    | case3 v rest _ ih =>
        refine (displayOne clear v (same v (by simp))).bind clear fun _ _ => ?_
        exact (print clear " ").bind clear fun _ _ => ih fun w member => same w (by simp [member])
  exact row.bind clear fun _ _ => (print clear "\n").bind clear fun _ _ =>
    pure clear ((Value.every_of_flat rfl).mpr results.nil)

/-! The number of arguments. -/

theorem unary (clear : Clear view) {function name : String} {action : Value → Run Value}
    (given : List Value) (each : ∀ v ∈ given, Every p v)
    (one : ∀ a, Every p a → Mild view shown (Every p) (action a)) :
    Mild view shown (Every p) (unary function name action given) := by
  unfold ThunkLisp.unary
  split
  · exact one _ (each _ (by simp))
  · exact throw clear (Fine.operand _)
  · exact throw clear (Fine.operand _)

theorem binary (clear : Clear view) {function left right : String}
    {action : Value → Value → Run Value} (given : List Value) (each : ∀ v ∈ given, Every p v)
    (two : ∀ a b, Every p a → Every p b → Mild view shown (Every p) (action a b)) :
    Mild view shown (Every p) (binary function left right action given) := by
  unfold ThunkLisp.binary
  split
  · exact two _ _ (each _ (by simp)) (each _ (by simp))
  · exact throw clear (Fine.operand _)
  · exact throw clear (Fine.operand _)
  · exact throw clear (Fine.operand _)

theorem oneOrMore (clear : Clear view) {function name : String}
    {action : Value → List Value → Run Value} (given : List Value) (each : ∀ v ∈ given, Every p v)
    (some_ : ∀ a rest, Every p a → (∀ v ∈ rest, Every p v) →
    Mild view shown (Every p) (action a rest)) :
    Mild view shown (Every p) (oneOrMore function name action given) := by
  unfold ThunkLisp.oneOrMore
  split
  · exact throw clear (Fine.operand _)
  · exact some_ _ _ (each _ (by simp)) fun v member => each v (by simp [member])

theorem arithmetic (clear : Clear view) (results : HasResults p) (kind : Arithmetic)
    (given : List Value) (each : ∀ v ∈ given, Every p v) :
    Mild view shown (Every p) (kind.run given) := by
  have one : Every p (.int 1) := (Value.every_of_flat rfl).mpr (results.int 1)
  have computed {outcome : Except Failure Value} (fine : Fine shown (Every p) outcome) :
      Mild view shown (Every p) (do ThunkLisp.renewed (← Run.ofExcept outcome)) :=
    (ofExcept clear fine).bind clear fun v every => renewed clear results v every
  cases kind with
  | sum =>
      exact computed (Fine.foldlM (fun a b _ _ => Fine.combine results _ _ a b) given (.int 0)
        ((Value.every_of_flat rfl).mpr (results.int 0)) each)
  | product =>
      exact computed (Fine.foldlM (fun a b left right => Fine.multiply results a b left right) given
        (.int 1) one each)
  | difference =>
      refine oneOrMore clear given each fun a rest first behind => computed ?_
      unfold Arithmetic.differenceOf
      split
      · exact Fine.negate results a
      · exact Fine.foldlM (fun a b _ _ => Fine.combine results _ _ a b) _ a first behind
  | quotient =>
      refine oneOrMore clear given each fun a rest first behind => computed ?_
      unfold Arithmetic.quotientOf
      split
      · exact Fine.combine results _ _ _ a
      · exact Fine.foldlM (fun a b _ _ => Fine.combine results _ _ a b) _ a first behind

/-- A default primitive is mild: its results have the leaves of its arguments, or new ones. -/
theorem operation (clear : Clear view) (results : HasResults p) (weaker : ∀ v, p v → shown v)
    (added : AddedActions) (operation : Operation) (default_ : ∀ name, operation ≠ .added name)
    (given : List Value) (each : ∀ v ∈ given, Every p v)
    (same : ∀ v ∈ given, ∀ store, (view store).displayed v = store.displayed v) :
    Mild view shown (Every p) (operation.run added given) := by
  have truth (b : Bool) : Every p (.bool b) := (Value.every_of_flat rfl).mpr (results.bool b)
  cases operation with
  | first => exact unary clear given each fun a every => ofExcept clear (Fine.firstOf results a
      every)
  | rest => exact unary clear given each fun a every => ofExcept clear (Fine.restOf results a every)
  | pair => exact binary clear given each fun a b left right => pure clear (Fine.pairOf a b left
      right)
  | isEmpty => exact unary clear given each fun a _ => pure clear (truth _)
  | arithmetic kind => exact arithmetic clear results kind given each
  | equal =>
      have decided (a b : Value) : Fine shown (fun _ => True) (.ok (equalApart a b)) := trivial
      have fine : Fine shown (fun _ => True) (chained decideEqual given) :=
        Fine.chained (p := p) _ (fun a b _ _ => Fine.comparing (decided a b)) given each
      exact (ofExcept clear fine).bind clear fun b _ => pure clear (truth b)
  | compare relation =>
      have fine : Fine shown (fun _ => True) (chained (decideOrder relation) given) :=
        Fine.chained _ (fun a b left right => Fine.comparing
          (Fine.ordered weaker relation a b left right))
          given each
      exact (ofExcept clear fine).bind clear fun b _ => pure clear (truth b)
  | negation => exact unary clear given each fun a _ => pure clear (truth _)
  | list => exact pure clear (.list given each)
  | display => exact displayAll clear results given same
  | added name => exact absurd rfl (default_ name)

theorem operation_on (results : HasResults p) (added : AddedActions) (operation : Operation)
    (default_ : ∀ name, operation ≠ .added name) (given : List Value)
    (each : ∀ v ∈ given, Every p v) (store : Store) :
    ∃ outcome fresh printed,
      (operation.run added given).on store =
        (outcome, { store with fresh := fresh, printed := printed }) ∧
      ∀ v, outcome = .ok v → Every p v := by
  have mild : Mild (fun store => store) (fun _ => True) (Every p) (operation.run added given) :=
    Mild.operation .self results (fun _ _ => trivial) added operation default_ given each
      fun _ _ _ => rfl
  obtain ⟨outcome, fresh, printed, ran, _, fine⟩ := mild store
  refine ⟨outcome, fresh, printed, ran, ?_⟩
  rintro v rfl
  exact fine

end Mild

theorem Operation.added_or_apart (added : AddedActions) (operation : Operation) (given : List Value)
    (store : Store) :
    (∃ name, operation = .added name) ∨
      ((operation.run added given).on store).2.frames = store.frames ∧
        ((operation.run added given).on store).2.thunks = store.thunks := by
  by_cases foreign : ∃ name, operation = .added name
  · exact .inl foreign
  · have results : HasResults fun _ => True :=
      ⟨trivial, fun _ => trivial, fun _ => trivial, fun _ => trivial, fun _ => trivial, fun _ =>
        trivial⟩
    obtain ⟨outcome, fresh, printed, ran, -⟩ := Mild.operation_on results added operation
      (fun name same => foreign ⟨name, same⟩) given (fun v _ =>
        Value.every_of_forall (fun _ => trivial) v) store
    rw [ran]
    exact .inr ⟨rfl, rfl⟩

end ThunkLisp
