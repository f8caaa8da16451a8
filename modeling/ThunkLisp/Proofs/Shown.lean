import ThunkLisp.Message
import ThunkLisp.Proofs.Expansion

/-!
What messages show. The values in the message of a malformed form are parts of the form, so a
condition that every leaf of the form meets is met by all of them. A value without suspensions has
the same text in every store.
-/

namespace ThunkLisp

open Value (Every)

def Value.isThunk : Value → Bool
  | .thunk _ => true
  | _ => false

/-- The values in the phrase meet the condition, leaf by leaf. -/
def Phrase.Shows (condition : Value → Prop) : Phrase → Prop
  | .words _ => True
  | .written value => Every condition value
  | .displayed value => Every condition value

def Failure.Shows (condition : Value → Prop) (failure : Failure) : Prop :=
  ∀ phrase ∈ failure.phrases, phrase.Shows condition

theorem Failure.shows_of_forall {condition : Value → Prop} (all : ∀ v, condition v)
    (failure : Failure) :
    failure.Shows condition := by
  intro phrase _
  cases phrase with
  | words => trivial
  | written v => exact Value.every_of_forall all v
  | displayed v => exact Value.every_of_forall all v

/-! The same for conditions on whole values. -/

/-- A condition that a list passes on to its items. -/
def Hereditary (condition : Value → Prop) : Prop :=
  ∀ items, condition (.list items) → ∀ v ∈ items, condition v

theorem hereditary_every (p : Value → Prop) : Hereditary (Every p) :=
  fun items every => (Value.every_list items).mp every

theorem hereditary_nesting (bound : Nat) : Hereditary fun v => v.nesting ≤ bound :=
  fun _ within _ member => Nat.le_trans (Nat.le_of_lt (Value.nesting_lt member)) within

theorem Hereditary.and {condition other : Value → Prop} (passes : Hereditary condition)
    (passes' : Hereditary other) : Hereditary fun v => condition v ∧ other v :=
  fun items both v member => ⟨passes items both.1 v member, passes' items both.2 v member⟩

def Phrase.ShowsWholes (condition : Value → Prop) : Phrase → Prop
  | .words _ => True
  | .written value => condition value
  | .displayed value => condition value

def Failure.ShowsWholes (condition : Value → Prop) (failure : Failure) : Prop :=
  ∀ phrase ∈ failure.phrases, phrase.ShowsWholes condition

theorem Failure.shows_of_wholes {p : Value → Prop} {failure : Failure}
    (shows_ : failure.ShowsWholes (Every p)) :
    failure.Shows p := by
  intro phrase member
  have here := shows_ phrase member
  cases phrase <;> exact here

section Malformed

variable {p : Value → Prop} (passes : Hereditary p)

theorem checkClauses_shows (all clauses : List Value) (failure : Failure)
    (whole : p (.list all)) (each : ∀ clause ∈ clauses, p clause)
    (failed : Derived.checkClauses all clauses = .error failure) : failure.ShowsWholes p := by
  fun_induction Derived.checkClauses all clauses with
  | case1 => cases failed
  | case2 test actions rest misplaced =>
      cases failed
      simpa [Failure.ShowsWholes, Failure.phrases, Phrase.ShowsWholes] using whole
  | case3 test actions rest fine ih =>
      exact ih (fun clause member => each clause (by simp [member])) failed
  | case4 clause rest _ =>
      cases failed
      simpa [Failure.ShowsWholes, Failure.phrases, Malformed.phrases, Phrase.ShowsWholes] using each
        clause (by simp)

theorem splitBindings_shows (bindings : List Value) (failure : Failure)
    (each : ∀ binding ∈ bindings, p binding)
    (failed : Derived.splitBindings bindings = .error failure) : failure.ShowsWholes p := by
  fun_induction Derived.splitBindings bindings with
  | case1 => cases failed
  | case2 name value rest ih =>
      cases inner : Derived.splitBindings rest with
      | error fault =>
          simp only [inner, bind, Except.bind] at failed
          cases failed
          exact ih (fun binding member => each binding (by simp [member])) inner
      | ok found => simp [inner, bind, Except.bind, pure, Except.pure] at failed
  | case3 entry rest _ =>
      cases failed
      simpa [Failure.ShowsWholes, Failure.phrases, Malformed.phrases, Phrase.ShowsWholes] using each
        entry (by simp)

include passes

theorem splitOperands_shows (form : String) (operands : List Value) (failure : Failure)
    (each : ∀ operand ∈ operands, p operand)
    (failed : Derived.splitOperands form operands = .error failure) : failure.ShowsWholes p := by
  unfold Derived.splitOperands at failed
  split at failed
  · cases failed
    simp [Failure.ShowsWholes, Failure.phrases, Malformed.phrases, Phrase.ShowsWholes]
  · next bindings forms =>
      cases inner : Derived.splitBindings bindings with
      | error fault =>
          simp only [inner, bind, Except.bind] at failed
          cases failed
          exact splitBindings_shows bindings _ (passes _ (each (.list bindings) (by simp))) inner
      | ok found => simp [inner, bind, Except.bind, pure, Except.pure] at failed
  · next bindings forms _ =>
      cases failed
      simpa [Failure.ShowsWholes, Failure.phrases, Malformed.phrases, Phrase.ShowsWholes] using
        each bindings (by simp)

theorem expandLet_shows (operands : List Value) (failure : Failure)
    (each : ∀ operand ∈ operands, p operand)
    (failed : Derived.expandLet operands = .error failure) : failure.ShowsWholes p := by
  cases split : Derived.splitOperands "let" operands with
  | error fault =>
      simp only [Derived.expandLet, split, bind, Except.bind] at failed
      cases failed
      exact splitOperands_shows passes "let" operands _ each split
  | ok found => simp [Derived.expandLet, split, bind, Except.bind, pure, Except.pure] at failed

theorem expandNamedLet_shows (operands : List Value) (failure : Failure)
    (each : ∀ operand ∈ operands, p operand)
    (failed : Derived.expandNamedLet operands = .error failure) : failure.ShowsWholes p := by
  unfold Derived.expandNamedLet at failed
  split at failed
  · next name rest =>
      cases split : Derived.splitOperands "named let" rest with
      | error fault =>
          simp only [split, bind, Except.bind] at failed
          cases failed
          exact splitOperands_shows passes _ rest _ (fun operand member =>
            each operand (by simp [member])) split
      | ok found => simp [split, bind, Except.bind, pure, Except.pure] at failed
  · exact expandLet_shows passes _ failure each failed

/-- What the message of a malformed derived form shows is a part of the form. -/
theorem expand_shows (form : Derived) (operands : List Value) (failure : Failure)
    (whole : p (.list operands))
    (failed : form.expand operands = .error failure) : failure.ShowsWholes p := by
  have each := passes operands whole
  -- the expansions of `and` and `or` never fail
  cases form with
  | cond =>
      cases checked : Derived.checkClauses operands operands with
      | error fault =>
          simp only [Derived.expand, Derived.expandCond, checked, bind, Except.bind] at failed
          cases failed
          exact checkClauses_shows operands operands _ whole each checked
      | ok _ =>
          simp [Derived.expand, Derived.expandCond, checked, bind, Except.bind, pure,
            Except.pure] at failed
  | conjunction => cases failed
  | disjunction => cases failed
  | «unless» =>
      simp only [Derived.expand, Derived.expandUnless] at failed
      split at failed
      · cases failed
      · cases failed
      · cases failed
        simp [Failure.ShowsWholes, Failure.phrases, Malformed.phrases, Phrase.ShowsWholes]
  | plainLet => exact expandLet_shows passes operands failure each failed
  | namedLet => exact expandNamedLet_shows passes operands failure each failed
  | letStar =>
      cases split : Derived.splitOperands "let*" operands with
      | error fault =>
          simp only [Derived.expand, Derived.expandLetStar, split, bind, Except.bind] at failed
          cases failed
          exact splitOperands_shows passes _ operands _ each split
      | ok found =>
          simp [Derived.expand, Derived.expandLetStar, split, bind, Except.bind, pure,
            Except.pure] at failed
  | letrec =>
      cases split : Derived.splitOperands "letrec" operands with
      | error fault =>
          simp only [Derived.expand, Derived.expandLetrec, split, bind, Except.bind] at failed
          cases failed
          exact splitOperands_shows passes _ operands _ each split
      | ok found =>
          simp [Derived.expand, Derived.expandLetrec, split, bind, Except.bind, pure,
            Except.pure] at failed

theorem parseParam_shows (spec : Value) (fault : Malformed) (whole : p spec)
    (failed : parseParam spec = .error fault) : (Failure.malformed fault).ShowsWholes p := by
  unfold parseParam at failed
  split at failed
  · cases failed
  · next name mode =>
      split at failed
      · cases failed
      · cases failed
        have items := passes _ whole
        simpa [Failure.ShowsWholes, Failure.phrases, Malformed.phrases,
          Phrase.ShowsWholes] using items mode (by simp)
  · cases failed
    simpa [Failure.ShowsWholes, Failure.phrases, Malformed.phrases, Phrase.ShowsWholes] using whole

theorem parseParamItems_shows (specs : List Value) (fault : Malformed)
    (each : ∀ spec ∈ specs, p spec) (failed : parseParamItems specs = .error fault) :
    (Failure.malformed fault).ShowsWholes p := by
  induction specs with
  | nil => cases failed
  | cons spec rest ih =>
      cases first : parseParam spec with
      | error found =>
          simp only [parseParamItems, first, bind, Except.bind] at failed
          cases failed
          exact parseParam_shows passes spec _ (each spec (by simp)) first
      | ok param =>
          cases behind : parseParamItems rest with
          | error found =>
              simp only [parseParamItems, first, behind, bind, Except.bind] at failed
              cases failed
              exact ih (fun spec member => each spec (by simp [member])) behind
          | ok params => simp [parseParamItems, first, behind, bind, Except.bind, pure,
              Except.pure] at failed

theorem parseParams_shows (spec : Value) (fault : Malformed) (whole : p spec)
    (failed : parseParams spec = .error fault) : (Failure.malformed fault).ShowsWholes p := by
  unfold parseParams at failed
  split at failed
  · next specs =>
      cases items : parseParamItems specs with
      | error found =>
          simp only [items, bind, Except.bind] at failed
          cases failed
          exact parseParamItems_shows passes specs _ (passes _ whole) items
      | ok params =>
          simp only [items, bind, Except.bind] at failed
          split at failed
          · cases failed
          · cases failed
            simpa [Failure.ShowsWholes, Failure.phrases, Malformed.phrases,
              Phrase.ShowsWholes] using whole
  · cases failed
    simpa [Failure.ShowsWholes, Failure.phrases, Malformed.phrases, Phrase.ShowsWholes] using whole

end Malformed

/-! Values without a text. -/

inductive Failure.Untold : Failure → Prop where
  | notWritable : Untold .notWritable
  | recursion : Untold .recursion

theorem Failure.Untold.words {failure : Failure} (untold : failure.Untold) :
    ∀ phrase ∈ failure.phrases, ∃ text, phrase = .words text := by
  cases untold <;> simp [phrases]

namespace Value

variable {text : List Value → ThunkId → Except Failure String}

theorem writtenItems_untold {items far near : List Value}
    (each : ∀ v ∈ items, ∀ failure, v.writtenWith text far near = .error failure → failure.Untold)
    {failure : Failure} (failed : writtenItems text far near items = .error failure) :
    failure.Untold := by
  induction items with
  | nil => cases failed
  | cons item rest ih =>
      cases first : item.writtenWith text far near with
      | error early =>
          simp only [writtenItems, first, bind, Except.bind, Except.error.injEq] at failed
          exact failed ▸ each item (.head _) early first
      | ok _ =>
          cases others : writtenItems text far near rest with
          | error late =>
              simp only [writtenItems, first, others, bind, Except.bind,
                Except.error.injEq] at failed
              exact ih (fun v member => each v (.tail _ member)) (failed ▸ others)
          | ok _ =>
              simp [writtenItems, first, others, bind, Except.bind, pure, Except.pure] at failed

variable
  (inner : ∀ {around id failure}, text around id = .error failure → failure.Untold)

include inner in
theorem writtenWith_untold {v : Value} {far near : List Value} {failure : Failure}
    (failed : v.writtenWith text far near = .error failure) : failure.Untold := by
  induction v using tree_induction generalizing near failure with
  | leaf v flat =>
      cases v with
      | list items => cases flat
      | thunk id => exact inner (by simpa [writtenWith] using failed)
      | int n =>
          simp only [writtenWith] at failed
          split at failed
          · cases failed
          · cases failed
            exact .notWritable
      | bool b => cases b <;> simp [writtenWith] at failed
      | _ => simp [writtenWith] at failed
  | list items ih =>
      simp only [writtenWith] at failed
      split at failed
      · cases failed
        exact .recursion
      split at failed
      · cases failed
      · cases texts : writtenItems text far (.list items :: near) items with
        | error found =>
            simp only [texts, Except.map, Except.error.injEq] at failed
            exact failed ▸ writtenItems_untold (fun v member _ => ih v member) texts
        | ok _ => simp [texts, Except.map] at failed

end Value

namespace Store

theorem thunkTextWithin_untold (store : Store) (depth : Nat) {around : List Value} {id : ThunkId}
    {failure : Failure} (failed : store.thunkTextWithin depth around id = .error failure) :
    failure.Untold := by
  induction depth generalizing around id failure with
  | zero => cases failed
  | succ depth ih =>
      have inside {v : Value} {wrap : String → String}
          (failed : (v.writtenWith (store.thunkTextWithin depth) around []).map wrap =
            .error failure) : failure.Untold := by
        cases found : v.writtenWith (store.thunkTextWithin depth) around [] with
        | ok _ => simp [found, Except.map] at failed
        | error early =>
            simp only [found, Except.map, Except.error.injEq] at failed
            exact failed ▸ Value.writtenWith_untold ih found
      rw [thunkTextWithin] at failed
      split at failed
      · exact inside failed
      · exact inside failed

theorem displayed_untold {store : Store} {v : Value} {failure : Failure}
    (failed : store.displayed v = .error failure) : failure.Untold := by
  cases v with
  | str text => cases failed
  | sym name => cases failed
  | _ => exact Value.writtenWith_untold (store.thunkTextWithin_untold _) failed

end Store

/-! Texts without suspensions. -/

abbrev Unsuspended (v : Value) : Prop := Every (fun leaf => leaf.isThunk = false) v

namespace Value

variable {text text' : List Value → ThunkId → Except Failure String} {p : ThunkId → Prop}

theorem writtenItems_congr {items : List Value} (far near : List Value)
    (each : ∀ v ∈ items, v.writtenWith text far near = v.writtenWith text' far near) :
    writtenItems text far near items = writtenItems text' far near items := by
  induction items with
  | nil => simp [writtenItems]
  | cons item rest ih =>
      simp only [writtenItems, each item List.mem_cons_self,
        ih fun v member => each v (.tail _ member)]

/-- Two ways to write suspensions give the same text if they do so for those in the value, whatever
is around. -/
theorem writtenWith_congr {v : Value} (each : Every (fun leaf => ∀ id, leaf = .thunk id → p id) v)
    (far near : List Value)
    (same : ∀ around, near ++ far ⊆ around → ∀ id, p id → text around id = text' around id) :
    v.writtenWith text far near = v.writtenWith text' far near := by
  induction each generalizing near with
  | leaf v flat holds =>
      cases v with
      | list items => cases flat
      | thunk id => simpa [writtenWith] using same (near ++ far) (List.Subset.refl _) id (holds id
          rfl)
      | bool b => cases b <;> simp [writtenWith]
      | _ => simp [writtenWith]
  | list items _ ih =>
      have texts : writtenItems text far (.list items :: near) items =
          writtenItems text' far (.list items :: near) items := by
        refine writtenItems_congr far _ fun v member => ih v member _ fun around more => ?_
        exact same around fun outer inside => more (.tail _ inside)
      simp only [writtenWith, texts]

/-- Inside a list they may suppose that the list is around, and not around itself. -/
theorem writtenWith_list_congr {items : List Value}
    (each : ∀ v ∈ items, Every (fun leaf => ∀ id, leaf = .thunk id → p id) v)
    (far near : List Value) (same : far.any (alike (.list items)) = false →
    ∀ around, .list items :: (near ++ far) ⊆ around →
      ∀ id, p id → text around id = text' around id) :
    (list items).writtenWith text far near = (list items).writtenWith text' far near := by
  simp only [writtenWith]
  split
  · rfl
  split
  · rfl
  · next unwritten =>
      refine congrArg (Except.map _) (writtenItems_congr far _ fun v member => ?_)
      exact writtenWith_congr (each v member) far _ (same (Bool.eq_false_iff.mpr unwritten))

end Value

theorem writtenWith_of_unsuspended (text text' : List Value → ThunkId → Except Failure String)
    (v : Value) (unsuspended : Unsuspended v) (far near : List Value) :
    v.writtenWith text far near = v.writtenWith text' far near := by
  have none := Every.imp (q := fun leaf => ∀ id, leaf = .thunk id → False)
    (fun leaf plain id same => absurd plain (by simp [same, Value.isThunk])) unsuspended
  exact Value.writtenWith_congr none far near fun _ _ _ impossible => impossible.elim

theorem displayed_congr {store other : Store} {v : Value}
    (written : store.written v = other.written v) :
    store.displayed v = other.displayed v := by
  cases v with
  | str text => rfl
  | sym name => rfl
  | _ => exact written

theorem displayed_of_unsuspended (store other : Store) (v : Value) (unsuspended : Unsuspended v) :
    store.displayed v = other.displayed v :=
  displayed_congr (writtenWith_of_unsuspended _ _ v unsuspended [] [])

theorem message_congr {store other : Store} {p : Value → Prop} {failure : Failure}
    (shows_ : failure.Shows p) (written : ∀ v, Every p v → store.written v = other.written v) :
    failure.message store = failure.message other := by
  have texts (phrases : List Phrase) (each : ∀ phrase ∈ phrases, phrase.Shows p) :
      phrases.mapM (Phrase.text store) = phrases.mapM (Phrase.text other) := by
    induction phrases with
    | nil => rfl
    | cons phrase rest ih =>
        have first : phrase.text store = phrase.text other := by
          have here := each phrase (by simp)
          cases phrase with
          | words text => rfl
          | written v => exact written v here
          | displayed v => exact displayed_congr (written v here)
        rw [List.mapM_cons, List.mapM_cons, first, ih fun found member =>
          each found (by simp [member])]
  simp only [Failure.message, texts failure.phrases shows_]

theorem message_of_unsuspended (store other : Store) (failure : Failure)
    (shows_ : failure.Shows fun leaf => leaf.isThunk = false) :
    failure.message store = failure.message other :=
  message_congr shows_ fun v plain => writtenWith_of_unsuspended _ _ v plain [] []

end ThunkLisp
