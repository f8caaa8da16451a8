import ThunkLisp.Proofs.Operations
import ThunkLisp.Proofs.Shapes
import ThunkLisp.Session

/-!
Where code that is no expression is not the reason of a failure: in the default primitives, in the
reading of source texts and in the choice of a setup.
-/

namespace ThunkLisp

/-- A failure, if there is one, is usual. -/
def Usually {α : Type} (outcome : Except Failure α) : Prop :=
  ∀ failure, outcome = .error failure → failure.Usual

namespace Usually

variable {α β : Type}

theorem ok (v : α) : Usually (.ok v) := nofun

theorem error {failure : Failure} (usual : failure.Usual) :
    Usually (.error failure : Except Failure α) := by
  rintro _ ⟨⟩
  exact usual

theorem bind {outcome : Except Failure α} {next : α → Except Failure β} (first : Usually outcome)
    (rest : ∀ v, Usually (next v)) : Usually (outcome >>= next) := by
  cases outcome with
  | ok v => exact rest v
  | error failure => exact error (first failure rfl)

theorem operand (fault : OperandFault) : Usually (.error (.operand fault) : Except Failure α) :=
  error (by rintro _ ⟨⟩)

theorem arithmetic (fault : ArithmeticFault) :
    Usually (.error (.arithmetic fault) : Except Failure α) :=
  error (by rintro _ ⟨⟩)

/-! Primitives. -/

theorem firstOf (v : Value) : Usually (firstOf v) := by
  unfold ThunkLisp.firstOf
  split
  · exact ok _
  · split
    · exact ok _
    · exact ok _
    · exact operand _

theorem restOf (v : Value) : Usually (restOf v) := by
  unfold ThunkLisp.restOf
  split
  · exact ok _
  · split
    · exact ok _
    · exact ok _
    · exact operand _

theorem combine (symbol : String) (op : Number → Number → Except ArithmeticFault Number)
    (a b : Value) :
    Usually (Arithmetic.combine symbol op a b) := by
  unfold Arithmetic.combine
  split
  · split
    · exact ok _
    · exact arithmetic _
  · exact operand _

theorem repeat_ (sequence count : Value) (outcome : Except Failure Value)
    (found : Arithmetic.repeat? sequence count = some outcome) : Usually outcome := by
  have counted : Usually (Arithmetic.repeatCount count) := by
    unfold Arithmetic.repeatCount
    split
    · split
      · exact ok _
      · exact arithmetic _
    · exact operand _
  have listed {α : Type} (items : List α) (count : Nat) :
      Usually (Arithmetic.repeatList items count) := by
    unfold Arithmetic.repeatList
    split
    · exact ok _
    · split
      · exact ok _
      · exact arithmetic _
  unfold Arithmetic.repeat? at found
  split at found <;> cases found
  · refine counted.bind fun count => bind ?_ fun _ => ok _
    unfold Arithmetic.repeatText
    split
    · exact listed _ count
    · exact arithmetic _
  · exact counted.bind fun count => (listed _ count).bind fun _ => ok _

theorem multiply (a b : Value) : Usually (Arithmetic.multiply a b) := by
  unfold Arithmetic.multiply
  split
  · next outcome found => exact repeat_ a b outcome found
  · split
    · next outcome found => exact repeat_ b a outcome found
    · exact combine _ _ a b

theorem foldlM {step : Value → Value → Except Failure Value} (steps : ∀ a b, Usually (step a b))
    (operands : List Value) (start : Value) : Usually (operands.foldlM step start) := by
  induction operands generalizing start with
  | nil => exact ok start
  | cons operand rest ih =>
      rw [List.foldlM_cons]
      exact (steps start operand).bind ih

theorem ordered (relation : Comparison) (a b : Value) : Usually (ordered relation a b) := by
  unfold ThunkLisp.ordered
  split
  · exact error (by rintro _ ⟨⟩)
  · exact error (by rintro _ ⟨⟩)
  · split
    · exact ok _
    · exact operand _

theorem comparing (nesting : Nat) {outcome : Except Failure Bool} (usual : Usually outcome) :
    Usually (comparing nesting outcome) := by
  unfold ThunkLisp.comparing
  split
  · exact usual
  · exact error (by rintro _ ⟨⟩)

theorem chained {relation : Value → Value → Except Failure Bool}
    (steps : ∀ a b, Usually (relation a b)) (given : List Value) :
    Usually (chained relation given) := by
  fun_induction ThunkLisp.chained relation given with
  | case1 => exact error (by rintro _ ⟨⟩)
  | case2 => exact ok _
  | case3 a b rest ih =>
      refine (steps a b).bind fun related => ?_
      cases related with
      | false => exact ok _
      | true => exact ih

end Usually

/-- In no store does the computation fail otherwise. -/
def Run.Usually {α : Type} (x : Run α) : Prop := ∀ store, ThunkLisp.Usually (x.on store).1

namespace Run.Usually

variable {α β : Type}

theorem ofExcept {outcome : Except Failure α} (usually : ThunkLisp.Usually outcome) :
    (Run.ofExcept outcome).Usually := by
  intro store
  rw [Run.on_ofExcept]
  exact usually

theorem pure (v : α) : (Pure.pure v : Run α).Usually := fun _ => .ok v

theorem operand (fault : OperandFault) : (throw (.operand fault) : Run α).Usually :=
  fun _ => .operand fault

theorem bind {x : Run α} {next : α → Run β} (first : x.Usually) (rest : ∀ v, (next v).Usually) :
    (x >>= next).Usually := by
  intro store
  have here := first store
  rw [Run.on_bind]
  cases ran : x.on store with
  | mk outcome after =>
      rw [ran] at here
      cases outcome with
      | ok v => exact rest v after
      | error failure => exact .error (here failure rfl)

theorem renewed (v : Value) : (renewed v).Usually := by
  unfold ThunkLisp.renewed
  split
  · exact bind (fun _ => .ok _) fun _ => pure _
  · exact pure _

theorem displayAll (given : List Value) : (displayAll given).Usually := by
  have one (v : Value) : (displayOne v).Usually := by
    have text : (do Run.ofExcept (← Run.read fun store => store.displayed v)).Usually := by
      intro store
      simp only [Run.on_bind, Run.on_read, Run.on_ofExcept]
      cases displayed : store.displayed v with
      | ok text => exact .ok text
      | error failure =>
          refine .error ?_
          cases Store.displayed_untold displayed <;> rintro _ ⟨⟩
    exact text.bind fun _ _ => .ok _
  have row : (displayRow given).Usually := by
    fun_induction displayRow given with
    | case1 => exact pure _
    | case2 v => exact one v
    | case3 v rest _ ih => exact (one v).bind fun _ => bind (fun _ => .ok _) fun _ => ih
  exact row.bind fun _ => bind (fun _ => .ok _) fun _ => pure _

theorem unary {function name : String} {action : Value → Run Value} (one : ∀ a, (action a).Usually)
    (given : List Value) : (unary function name action given).Usually := by
  unfold ThunkLisp.unary
  split
  · exact one _
  · exact operand _
  · exact operand _

theorem binary {function left right : String} {action : Value → Value → Run Value}
    (two : ∀ a b, (action a b).Usually) (given : List Value) :
      (binary function left right action given).Usually := by
  unfold ThunkLisp.binary
  split
  · exact two _ _
  · exact operand _
  · exact operand _
  · exact operand _

theorem oneOrMore {function name : String} {action : Value → List Value → Run Value}
    (some_ : ∀ a rest, (action a rest).Usually) (given : List Value) :
      (oneOrMore function name action given).Usually := by
  unfold ThunkLisp.oneOrMore
  split
  · exact operand _
  · exact some_ _ _

theorem arithmetic (kind : Arithmetic) (given : List Value) : (kind.run given).Usually := by
  have computed {outcome : Except Failure Value} (usually : ThunkLisp.Usually outcome) :
      (do ThunkLisp.renewed (← Run.ofExcept outcome) : Run Value).Usually :=
    (ofExcept usually).bind renewed
  cases kind with
  | sum => exact computed (.foldlM (.combine _ _) given _)
  | product => exact computed (.foldlM .multiply given _)
  | difference =>
      refine oneOrMore (fun a rest => computed ?_) given
      unfold Arithmetic.differenceOf
      split
      · unfold Arithmetic.negate
        split
        · exact .ok _
        · exact .operand _
      · exact .foldlM (.combine _ _) _ a
  | quotient =>
      refine oneOrMore (fun a rest => computed ?_) given
      unfold Arithmetic.quotientOf
      split
      · exact .combine _ _ _ a
      · exact .foldlM (.combine _ _) _ a

theorem operation (added : AddedActions) (operation : Operation)
    (default_ : ∀ name, operation ≠ .added name) (given : List Value) :
    (operation.run added given).Usually := by
  cases operation with
  | first => exact unary (fun a => ofExcept (.firstOf a)) given
  | rest => exact unary (fun a => ofExcept (.restOf a)) given
  | pair => exact binary (fun _ _ => pure _) given
  | isEmpty => exact unary (fun _ => pure _) given
  | arithmetic kind => exact arithmetic kind given
  | equal =>
      have decided : ThunkLisp.Usually (chained decideEqual given) :=
        .chained (fun _ _ => .comparing _ (.ok _)) given
      exact (ofExcept decided).bind fun _ => pure _
  | compare relation =>
      have decided : ThunkLisp.Usually (chained (decideOrder relation) given) :=
        .chained (fun a b => .comparing _ (.ordered relation a b)) given
      exact (ofExcept decided).bind fun _ => pure _
  | negation => exact unary (fun _ => pure _) given
  | list => exact pure _
  | display => exact displayAll given
  | added name => exact absurd rfl (default_ name)

end Run.Usually

/-! Reading. -/

namespace Reader

theorem usual_of_take (limit : Nat) (levels : List Level) (token : Token) :
    Usually (take limit levels token) := by
  have atom (text : List Char) : Usually (readAtom text) := by
    unfold readAtom
    repeat' split
    all_goals first
      | exact .ok _
      | exact .error (by rintro _ ⟨⟩)
  have begins : Usually (start levels token) := by
    cases token with
    | symbol text =>
        have read := atom text
        change Usually ((readAtom text).map fun form => place form levels)
        cases found : readAtom text with
        | ok form => exact .ok _
        | error failure => exact .error (read failure found)
    | closing => exact .error (by rintro _ ⟨⟩)
    | _ => exact .ok _
  unfold take
  split
  · exact .ok _
  · split
    · exact begins
    · exact .error (by rintro _ ⟨⟩)

theorem usual_of_readForms (limit : Nat) (done : List Value) (levels : List Level)
    (tokens rest : List Token) (failure : Failure)
    (failed : readForms limit done levels tokens = .failed failure rest) : failure.Usual := by
  induction tokens generalizing done levels with
  | nil => cases failed
  | cons token behind ih =>
      have taking := usual_of_take limit levels token
      simp only [readForms] at failed
      cases taken : take limit levels token with
      | error found =>
          simp only [taken, Readings.failed.injEq] at failed
          exact failed.1 ▸ taking found taken
      | ok progress =>
          cases progress with
          | complete form =>
              simp only [taken] at failed
              exact ih _ _ failed
          | within inner =>
              simp only [taken] at failed
              exact ih _ _ failed

end Reader

theorem usual_of_readAll (source : String) : Usually (readAll source) := by
  unfold readAll readAllWithin TokenStream.parseAll
  split
  · next failure rest failed => exact .error (Reader.usual_of_readForms _ _ _ _ _ failure failed)
  · next forms levels found =>
      simp only
      split
      · next failure _ fault =>
          simp only [TokenStream.ofSource, Lexed.fault?] at fault
          split at fault <;> cases fault
          exact .error (by rintro _ ⟨⟩)
      · exact .ok _
      · unfold Reader.ending
        split
        · exact .error (by rintro _ ⟨⟩)
        · exact .error (by rintro _ ⟨⟩)

/-! Setups. -/

theorem usual_of_strategy (setup : Setup) : Usually setup.strategy := by
  have parsed (name : String) : Usually (Settings.parseStrategy name) := by
    unfold Settings.parseStrategy
    split
    · exact .ok _
    · exact .error (by rintro _ ⟨⟩)
  unfold Setup.strategy
  split
  · exact parsed _
  · exact parsed _

theorem usual_of_checked (setup : Setup) : Usually setup.checked := by
  unfold Setup.checked
  split
  · exact .ok _
  · unfold Settings.defaultChecked Settings.flag Settings.flag?
    refine .bind ?_ fun _ => .ok _
    repeat' split
    all_goals first
      | exact .ok _
      | exact .error (by rintro _ ⟨⟩)

theorem Run.Usually.makeGlobals (supplies : List (Value × Supply)) (checked : Bool) :
    (makeGlobals supplies checked).Usually := by
  have supplied : (suppliedBindings supplies).Usually := by
    induction supplies with
    | nil => exact pure []
    | cons supply rest ih =>
        rcases supply with ⟨name, v | action⟩
        · exact ih.bind fun _ => pure _
        · have text : (Run.text fun store => store.displayed? name).Usually := by
            intro store
            rw [Run.on_text]
            cases store.displayed? name with
            | none => exact .error (by rintro _ ⟨⟩)
            | some found => exact .ok found
          have primitive (name : String) : (newPrimitive name action).Usually :=
            bind (fun _ => .ok _) fun _ => pure _
          exact text.bind fun found => (primitive found).bind fun _ => ih.bind fun _ => pure _
  have defined (globals : FrameId) (bindings : Bindings) :
      (Scope.defineAll globals bindings).Usually := by
    induction bindings with
    | nil => exact pure ()
    | cons entry rest ih =>
        refine bind ?_ fun _ => ih
        unfold Scope.define
        split
        · exact bind (fun _ => .ok _) fun _ => pure _
        · exact fun _ => .error (by rintro _ ⟨⟩)
  refine bind (fun _ => .ok _) fun globals => ?_
  exact supplied.bind fun bindings => (defined globals bindings).bind fun _ => pure _

end ThunkLisp
