import Mathlib.Data.List.Forall2
import ThunkLisp.Proofs.Shown

/-!
The shapes of special forms. A form is well shaped if its operands are as many and of the kind that
the form takes; the checks that the rules and the expansions make pass on nothing else, but for
names that stand twice, which only the parameter list of the procedure that they end up in refuses.
-/

namespace ThunkLisp

/-- A parameter of this name: the name alone, or with the word for a mode, which a symbol or a text
spells. -/
inductive ParamShape : String → Value → Prop where
  | plain (name : String) : ParamShape name (.sym name)
  | moded (name word : String) (mode : Value) (known : word ∈ ["strict", "lazy", "lazy-memo"])
      (spelt : mode = .sym word ∨ mode = .str word) : ParamShape name (.list [.sym name, mode])

/-- A parameter list, with no name twice. -/
def ParamsShape (specs : List Value) : Prop := ∃ names, List.Forall₂ ParamShape names specs ∧
    names.Nodup

/-- Clauses are lists that are not empty, and only the last may start with `else`. -/
inductive ClausesShape : List Value → Prop where
  | none : ClausesShape []
  | last (test : Value) (actions : List Value) : ClausesShape [.list (test :: actions)]
  | next (test : Value) (actions rest : List Value) (ordinary : test ≠ .sym "else")
      (behind : ClausesShape rest) : ClausesShape (.list (test :: actions) :: rest)

/-- The first clause that is not as it should be is an `else` before the last clause. -/
inductive ElseMisplaced : List Value → Prop where
  | here (actions : List Value) (next : Value) (rest : List Value) :
      ElseMisplaced (.list (.sym "else" :: actions) :: next :: rest)
  | later (test : Value) (actions rest : List Value) (ordinary : test ≠ .sym "else")
      (behind : ElseMisplaced rest) : ElseMisplaced (.list (test :: actions) :: rest)

/-- The operands that a special form takes. Bindings are lists of a name and a value, and only those
of `let*` may bind a name twice. -/
inductive Shaped : String → List Value → Prop where
  | quote (datum : Value) : Shaped "quote" [datum]
  | assign (name : String) (code : Value) : Shaped "set!" [.sym name, code]
  | define (name : String) (code : Value) : Shaped "define" [.sym name, code]
  | defineProcedure (name : String) (specs body : List Value) (params : ParamsShape specs) :
      Shaped "define" (.list (.sym name :: specs) :: body)
  | oneBranch (test usual : Value) : Shaped "if" [test, usual]
  | twoBranches (test usual otherwise : Value) : Shaped "if" [test, usual, otherwise]
  | procedure (specs body : List Value) (params : ParamsShape specs) :
      Shaped "lambda" (.list specs :: body)
  | cond (clauses : List Value) (shape : ClausesShape clauses) : Shaped "cond" clauses
  | unlessOnly (test usual : Value) : Shaped "unless" [test, usual]
  | unlessElse (test usual exceptional : Value) : Shaped "unless" [test, usual, exceptional]
  | scope (entries : List (String × Value)) (forms : List Value)
      (distinct : (entries.map Prod.fst).Nodup) :
      Shaped "let" (.list (entries.map Derived.entryForm) :: forms)
  | loop (name : String) (entries : List (String × Value)) (forms : List Value)
      (distinct : (entries.map Prod.fst).Nodup) :
      Shaped "let" (.sym name :: .list (entries.map Derived.entryForm) :: forms)
  | scopes (entries : List (String × Value)) (forms : List Value) :
      Shaped "let*" (.list (entries.map Derived.entryForm) :: forms)
  | recursive (entries : List (String × Value)) (forms : List Value)
      (distinct : (entries.map Prod.fst).Nodup) :
      Shaped "letrec" (.list (entries.map Derived.entryForm) :: forms)

/-- The forms that have a shape; any operands will do for the others. -/
def shapedForms : List String :=
  ["quote", "set!", "define", "if", "lambda", "cond", "unless", "let", "let*", "letrec"]

/-- Faults in the shape of a form, not of a source text and not of code that is no form at all. -/
def Malformed.OfForm : Malformed → Prop
  | .paramMode .. | .param _ | .paramList _ | .duplicateParam _ | .condClause _ | .unlessOperands
  | .missingBindings _ | .bindingList _ | .binding _ | .quoteOperands | .setOperands | .setTarget _
  | .defineOperands | .defineValue | .defineTarget _ | .ifOperands | .lambdaOperands => True
  | .unexpectedChar .. | .endOfInput | .unmatchedOpening | .unexpectedClosing | .notOneForm _
  | .notASymbol _ | .notAnExpression _ => False

/-! Parameters. -/

theorem shape_of_parseParam (spec : Value) (param : Param) (parsed : parseParam spec = .ok param) :
    ParamShape param.name spec := by
  unfold parseParam at parsed
  split at parsed
  · cases parsed
    exact .plain _
  · next name mode =>
      cases known : ParamMode.ofValue? mode with
      | none => simp [known] at parsed
      | some found =>
          simp only [known, Except.ok.injEq] at parsed
          subst parsed
          -- a mode that is known is spelt by a word
          have word (spelt : String) (named : ParamMode.ofText? spelt = some found) :
              spelt ∈ ["strict", "lazy", "lazy-memo"] := by
            unfold ParamMode.ofText? at named
            split at named <;> simp at named ⊢
          cases mode with
          | sym spelt => exact .moded name spelt _ (word spelt known) (.inl rfl)
          | str spelt => exact .moded name spelt _ (word spelt known) (.inr rfl)
          | _ => cases known
  · cases parsed

theorem ofForm_of_parseParam (spec : Value) (fault : Malformed)
    (failed : parseParam spec = .error fault) :
    fault.OfForm := by
  unfold parseParam at failed
  split at failed
  · cases failed
  · split at failed <;> cases failed
    trivial
  · cases failed
    trivial

theorem parseParamItems_cases (specs : List Value) :
    (∃ params, parseParamItems specs = .ok params ∧ List.Forall₂ ParamShape (params.map Param.name)
      specs) ∨
      ∃ fault, parseParamItems specs = .error fault ∧ fault.OfForm := by
  induction specs with
  | nil => exact .inl ⟨[], rfl, .nil⟩
  | cons spec rest ih =>
      cases first : parseParam spec with
      | error fault =>
          refine .inr ⟨fault, ?_, ofForm_of_parseParam spec fault first⟩
          simp [parseParamItems, first, bind, Except.bind]
      | ok param =>
          have here := shape_of_parseParam spec param first
          rcases ih with ⟨params, behind, shapes⟩ | ⟨fault, behind, ofForm⟩
          · refine .inl ⟨param :: params, ?_, .cons here shapes⟩
            simp [parseParamItems, first, behind, bind, Except.bind, pure, Except.pure]
          · refine .inr ⟨fault, ?_, ofForm⟩
            simp [parseParamItems, first, behind, bind, Except.bind]

theorem parseParams_cases (spec : Value) :
    (∃ params specs, parseParams spec = .ok params ∧ spec = .list specs ∧ ParamsShape specs) ∨
      ∃ fault, parseParams spec = .error fault ∧ fault.OfForm := by
  cases spec with
  | list specs =>
      rcases parseParamItems_cases specs with ⟨params, parsed, shapes⟩ | ⟨fault, failed, ofForm⟩
      · by_cases distinct : (params.map Param.name).Nodup
        · refine .inl ⟨params, specs, ?_, rfl, _, shapes, distinct⟩
          simp [parseParams, parsed, distinct, bind, Except.bind, pure, Except.pure]
        · refine .inr ⟨.duplicateParam (.list specs), ?_, trivial⟩
          simp [parseParams, parsed, distinct, bind, Except.bind, throw, throwThe,
            MonadExceptOf.throw]
      · refine .inr ⟨fault, ?_, ofForm⟩
        simp [parseParams, failed, bind, Except.bind]
  | _ => exact .inr ⟨.paramList _, rfl, trivial⟩

/-! Derived forms. -/

theorem splitBindings_cases (bindings : List Value) :
    (∃ entries, Derived.splitBindings bindings = .ok entries ∧
      bindings = entries.map Derived.entryForm) ∨
      ∃ fault, Derived.splitBindings bindings = .error (.malformed fault) ∧ fault.OfForm := by
  fun_induction Derived.splitBindings bindings with
  | case1 => exact .inl ⟨[], rfl, rfl⟩
  | case2 name value rest ih =>
      rcases ih with ⟨entries, split, rfl⟩ | ⟨fault, failed, ofForm⟩
      · exact .inl ⟨(name, value) :: entries, by
          simp [split, bind, Except.bind, pure, Except.pure], rfl⟩
      · exact .inr ⟨fault, by simp [failed, bind, Except.bind], ofForm⟩
  | case3 entry rest _ => exact .inr ⟨.binding entry, rfl, trivial⟩

theorem splitOperands_cases (form : String) (operands : List Value) :
    (∃ entries forms, Derived.splitOperands form operands =
      .ok (entries.map Derived.entryForm, entries, forms) ∧
      operands = .list (entries.map Derived.entryForm) :: forms) ∨
      ∃ fault, Derived.splitOperands form operands = .error (.malformed fault) ∧ fault.OfForm := by
  cases operands with
  | nil => exact .inr ⟨.missingBindings form, rfl, trivial⟩
  | cons bindings forms =>
      cases bindings with
      | list bindings =>
          rcases splitBindings_cases bindings with ⟨entries, split, rfl⟩ | ⟨fault, failed, ofForm⟩
          · refine .inl ⟨entries, forms, ?_, rfl⟩
            simp [Derived.splitOperands, split, bind, Except.bind, pure, Except.pure]
          · refine .inr ⟨fault, ?_, ofForm⟩
            simp [Derived.splitOperands, failed, bind, Except.bind]
      | _ => exact .inr ⟨.bindingList _, rfl, trivial⟩

theorem splitOperands_bind_cases (form : String) (operands : List Value)
    (next : List Value × List (String × Value) × List Value → Except Failure Value)
    (gives : ∀ parts, ∃ code, next parts = .ok code) :
    (∃ code, (Derived.splitOperands form operands >>= next) = .ok code) ∨
      ∃ fault, (Derived.splitOperands form operands >>= next) = .error (.malformed fault) ∧
        fault.OfForm := by
  rcases splitOperands_cases form operands with ⟨entries, forms, split, _⟩ | ⟨fault, failed, ofForm⟩
  · rw [split]
    exact .inl (gives _)
  · rw [failed]
    exact .inr ⟨fault, rfl, ofForm⟩

theorem isElse_eq_true (test : Value) : Derived.isElse test = true ↔ test = .sym "else" := by
  cases test <;> simp [Derived.isElse]

theorem checkClauses_cases (all clauses : List Value) :
    (Derived.checkClauses all clauses = .ok () ∧ ClausesShape clauses) ∨
      (Derived.checkClauses all clauses = .error (.misplacedElse all) ∧ ElseMisplaced clauses) ∨
      ∃ fault, Derived.checkClauses all clauses = .error (.malformed fault) ∧ fault.OfForm ∧
        ¬ ElseMisplaced clauses := by
  fun_induction Derived.checkClauses all clauses with
  | case1 => exact .inl ⟨rfl, .none⟩
  | case2 test actions rest misplaced =>
      simp only [Bool.and_eq_true, isElse_eq_true, Bool.not_eq_eq_eq_not, Bool.not_true,
        List.isEmpty_eq_false_iff] at misplaced
      obtain ⟨rfl, more⟩ := misplaced
      obtain ⟨next, behind, rfl⟩ := List.exists_cons_of_ne_nil more
      exact .inr (.inl ⟨rfl, .here actions next behind⟩)
  | case3 test actions rest fine ih =>
      by_cases other : test = .sym "else"
      · -- it is the last clause
        subst other
        obtain rfl : rest = [] := by simpa [Derived.isElse] using fine
        exact .inl ⟨rfl, .last _ actions⟩
      · rcases ih with ⟨passed, shape⟩ | ⟨failed, misplaced⟩ | ⟨fault, failed, ofForm, placed⟩
        · exact .inl ⟨passed, .next test actions rest other shape⟩
        · exact .inr (.inl ⟨failed, .later test actions rest other misplaced⟩)
        · refine .inr (.inr ⟨fault, failed, ofForm, fun misplaced => ?_⟩)
          cases misplaced with
          | here => exact other rfl
          | later _ _ _ _ behind => exact placed behind
  | case4 clause rest unlike =>
      refine .inr (.inr ⟨.condClause clause, rfl, trivial, fun misplaced => ?_⟩)
      cases misplaced with
      | here actions => exact unlike _ _ rfl
      | later test actions => exact unlike _ _ rfl

/-- An expansion that fails does so because of the shape of the form. -/
theorem expand_cases (form : Derived) (operands : List Value) :
    (∃ code, form.expand operands = .ok code ∧ (form = .cond → ClausesShape operands)) ∨
      (form = .cond ∧ ElseMisplaced operands ∧ form.expand operands =
        .error (.misplacedElse operands)) ∨
      ∃ fault, form.expand operands = .error (.malformed fault) ∧ fault.OfForm ∧
        (form = .cond → ¬ ElseMisplaced operands) := by
  -- all but `cond` have no clauses
  have plainly (other : form ≠ .cond) (cases_ : (∃ code, form.expand operands = .ok code) ∨
      ∃ fault, form.expand operands = .error (.malformed fault) ∧ fault.OfForm) :
      (∃ code, form.expand operands = .ok code ∧ (form = .cond → ClausesShape operands)) ∨
        (form = .cond ∧ ElseMisplaced operands ∧ form.expand operands =
          .error (.misplacedElse operands)) ∨
        ∃ fault, form.expand operands = .error (.malformed fault) ∧ fault.OfForm ∧
          (form = .cond → ¬ ElseMisplaced operands) := by
    rcases cases_ with ⟨code, expanded⟩ | ⟨fault, failed, ofForm⟩
    · exact .inl ⟨code, expanded, fun same => absurd same other⟩
    · exact .inr (.inr ⟨fault, failed, ofForm, fun same => absurd same other⟩)
  cases form with
  | cond =>
      simp only [Derived.expand, Derived.expandCond]
      rcases checkClauses_cases operands operands with
        ⟨passed, shape⟩ | ⟨failed, misplaced⟩ | ⟨fault, failed, ofForm, placed⟩
      · rw [passed]
        exact .inl ⟨_, rfl, fun _ => shape⟩
      · rw [failed]
        exact .inr (.inl ⟨trivial, misplaced, rfl⟩)
      · rw [failed]
        exact .inr (.inr ⟨fault, rfl, ofForm, fun _ => placed⟩)
  | conjunction => exact plainly (by decide) (.inl ⟨_, rfl⟩)
  | disjunction => exact plainly (by decide) (.inl ⟨_, rfl⟩)
  | «unless» =>
      refine plainly (by decide) ?_
      simp only [Derived.expand, Derived.expandUnless]
      split
      · exact .inl ⟨_, rfl⟩
      · exact .inl ⟨_, rfl⟩
      · exact .inr ⟨.unlessOperands, rfl, trivial⟩
  | plainLet => exact plainly (by decide) (splitOperands_bind_cases "let" operands _ fun _ =>
      ⟨_, rfl⟩)
  | namedLet =>
      refine plainly (by decide) ?_
      simp only [Derived.expand]
      unfold Derived.expandNamedLet
      split
      · exact splitOperands_bind_cases "named let" _ _ fun _ => ⟨_, rfl⟩
      · exact splitOperands_bind_cases "let" _ _ fun _ => ⟨_, rfl⟩
  | letStar => exact plainly (by decide) (splitOperands_bind_cases "let*" operands _ fun _ =>
      ⟨_, rfl⟩)
  | letrec => exact plainly (by decide) (splitOperands_bind_cases "letrec" operands _ fun _ =>
      ⟨_, rfl⟩)

/-! Failures that code which is no expression is not the reason of. -/

def Failure.Usual (failure : Failure) : Prop := ∀ code, failure ≠ .malformed (.notAnExpression code)

theorem Malformed.OfForm.usual {fault : Malformed} (ofForm : fault.OfForm) :
    (Failure.malformed fault).Usual := by
  rintro code ⟨⟩
  exact ofForm

theorem usual_of_parseParams (spec : Value) (fault : Malformed)
    (failed : parseParams spec = .error fault) :
    (Failure.malformed fault).Usual := by
  rcases parseParams_cases spec with ⟨_, _, parsed, _⟩ | ⟨_, refused, ofForm⟩
  · rw [failed] at parsed
    cases parsed
  · rw [failed] at refused
    cases refused
    exact ofForm.usual

theorem usual_of_expand (form : Derived) (operands : List Value) (failure : Failure)
    (failed : form.expand operands = .error failure) : failure.Usual := by
  rcases expand_cases form operands with ⟨_, expanded, _⟩ | ⟨_, _, misplaced⟩ | ⟨_, refused, ofForm,
    _⟩
  · rw [failed] at expanded
    cases expanded
  · rw [failed] at misplaced
    cases misplaced
    exact fun _ => nofun
  · rw [failed] at refused
    cases refused
    exact ofForm.usual

end ThunkLisp
