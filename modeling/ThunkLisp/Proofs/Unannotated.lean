import Mathlib
import ThunkLisp.Proofs.DefaultAccords
import ThunkLisp.Proofs.ReadBack
import ThunkLisp.Proofs.RunRules
import ThunkLisp.Proofs.Watches

/-!
The mixed strategy without annotations. A parameter list that names no mode makes all its parameters
strict, so where no text names one the mixed strategy does what the strict one does, step by step,
and suspends nothing.
-/

namespace ThunkLisp

open Machine (effect)
open Value (Every)

/-- Words and texts that ask for a suspension. -/
def Value.isAnnotation : Value → Bool
  | .sym word | .str word => word == "lazy" || word == "lazy-memo"
  | _ => false

/-- No form of the text has such a word or text in it. -/
def Unannotated (text : String) : Prop :=
  ∀ forms, readAll text = .ok forms → ∀ form ∈ forms, Every (fun leaf => leaf.isAnnotation = false)
    form

/-! Parameters. -/

theorem ParamMode.strict_of_ofText? {word : String} {mode : ParamMode}
    (plain : (word == "lazy" || word == "lazy-memo") = false) (found : ofText? word = some mode) :
    mode = .strict := by
  unfold ofText? at found
  split at found
  · cases found
    rfl
  · cases plain
  · cases plain
  · cases found

theorem strict_of_parseParam {spec : Value} {param : Param}
    (plain : Every (fun leaf => leaf.isAnnotation = false) spec)
    (parsed : parseParam spec = .ok param) :
    param.mode = .strict := by
  unfold parseParam at parsed
  split at parsed
  · cases parsed
    rfl
  · next name mode =>
      have word := (Value.every_list _).mp plain mode (by simp)
      split at parsed
      · next found spelled =>
          cases parsed
          unfold ParamMode.ofValue? at spelled
          split at spelled
          · exact ParamMode.strict_of_ofText? ((Value.every_of_flat rfl).mp word) spelled
          · exact ParamMode.strict_of_ofText? ((Value.every_of_flat rfl).mp word) spelled
          · cases spelled
      · cases parsed
  · cases parsed

theorem strict_of_parseParamItems {specs : List Value} {params : List Param}
    (plain : ∀ spec ∈ specs, Every (fun leaf => leaf.isAnnotation = false) spec)
    (parsed : parseParamItems specs = .ok params) : ∀ param ∈ params, param.mode = .strict := by
  induction specs generalizing params with
  | nil =>
      cases parsed
      simp
  | cons spec rest ih =>
      cases first : parseParam spec with
      | error fault => simp [parseParamItems, first, bind, Except.bind] at parsed
      | ok param =>
          cases behind : parseParamItems rest with
          | error fault => simp [parseParamItems, first, behind, bind, Except.bind] at parsed
          | ok found =>
              simp only [parseParamItems, first, behind, bind, Except.bind, pure,
                Except.pure] at parsed
              cases parsed
              have others := ih (fun spec member => plain spec (.tail _ member)) behind
              exact List.forall_mem_cons.mpr
                ⟨strict_of_parseParam (plain spec List.mem_cons_self) first, others⟩

theorem strict_of_parseParams {spec : Value} {params : List Param}
    (plain : Every (fun leaf => leaf.isAnnotation = false) spec)
    (parsed : parseParams spec = .ok params) :
    ∀ param ∈ params, param.mode = .strict := by
  unfold parseParams at parsed
  split at parsed
  · next specs =>
      cases items : parseParamItems specs with
      | error fault => simp [items, bind, Except.bind] at parsed
      | ok found =>
          simp only [items, bind, Except.bind] at parsed
          split at parsed
          · cases parsed
            exact strict_of_parseParamItems ((Value.every_list _).mp plain) items
          · cases parsed
  · cases parsed

/-! Arguments. -/

section Arguments

variable {m : Type → Type} [Monad m] [Machine m] (inner : Inner m) (frame : FrameId)

theorem argumentsFor_of_strict {params : List Param} {operands : List Value}
    (strict : ∀ param ∈ params, param.mode = .strict) (fits : operands.length = params.length) :
    argumentsFor inner frame params operands = inner.evaluateAll frame operands := by
  induction params generalizing operands with
  | nil =>
      obtain rfl := List.eq_nil_of_length_eq_zero fits
      rfl
  | cons param params ih =>
      cases operands with
      | nil => cases fits
      | cons operand rest =>
          have others := ih (fun param member => strict param (.tail _ member)) (Nat.succ.inj fits)
          simp only [argumentsFor, argumentFor, Inner.evaluateAll, strict param List.mem_cons_self,
            others]

theorem mixed_arguments_of_strict {fn : Value} {operands : List Value}
    (strict : ∀ identity params body home, fn = .procedure identity params body home →
      ∀ param ∈ params, param.mode = .strict) :
    Strategy.mixed.arguments inner fn frame operands = Strategy.strict.arguments inner
      fn frame operands := by
  cases fn with
  | procedure identity params body home =>
      simp only [Strategy.arguments]
      split
      · next fits => exact argumentsFor_of_strict inner frame (strict identity params
          body home rfl) fits
      · rfl
  | _ => rfl

end Arguments

/-! The accord. -/

/-- Leaves of code without annotations. -/
def IsPlain (leaf : Value) : Prop := leaf.IsWritten ∧ leaf.isAnnotation = false

def StrictLeaf : Value → Prop := DataLeaf (fun param => param.mode = .strict) IsPlain

/-- Nothing is suspended, and the parameters of all procedures are strict. -/
structure Store.Strict (store : Store) : Prop where
  thunks : store.thunks = #[]
  bound : ∀ frame, ∀ entry ∈ (store.frame frame).bindings, Every StrictLeaf entry.2

namespace Store.Strict

variable {store : Store}

theorem of_frames {after : Store} (strict : store.Strict) (frames : after.frames = store.frames)
    (thunks : after.thunks = store.thunks) : after.Strict := by
  constructor
  · rw [thunks, strict.thunks]
  · intro frame entry member
    apply strict.bound frame entry
    simpa [Store.frame, frames] using member

theorem bind (strict : store.Strict) (frame : FrameId) (name v : Value)
    (value : Every StrictLeaf v) :
    (store.bind frame name v).Strict := by
  constructor
  · exact strict.thunks
  · intro other entry member
    rcases mem_bindings_bind member with before | ⟨same, -⟩
    · exact strict.bound other entry before
    · exact same ▸ value

theorem extend (strict : store.Strict) (frame : FrameId) (bindings : Bindings)
    (values : ∀ entry ∈ bindings, Every StrictLeaf entry.2) :
      (store.extend frame bindings).2.Strict := by
  constructor
  · exact strict.thunks
  · intro other entry member
    rcases mem_bindings_addFrame member with before | ⟨-, among⟩
    · exact strict.bound other entry before
    · exact values entry among

theorem thunk_eq (strict : store.Strict) (id : ThunkId) : store.thunk id = .settled .nil := by
  simp [Store.thunk, strict.thunks]

end Store.Strict

/-- Strict and mixed evaluation of code without annotations. -/
def unannotated (added : AddedActions) : Accord where
  added := added
  strategy := .strict
  other := .mixed
  datum := IsPlain
  leaf := StrictLeaf
  sound := Recording.Always fun past => past.store.Strict

theorem unannotated_lawful (added : AddedActions) : (unannotated added).Lawful := by
  constructor
  case words =>
    refine ⟨fun name among => ⟨.inl rfl, ?_⟩, ⟨.inl rfl, rfl⟩, fun _ => ⟨.inl rfl, rfl⟩,
      ⟨.inr rfl, rfl⟩⟩
    simp only [List.mem_cons, List.not_mem_nil, or_false] at among
    rcases among with rfl | rfl | rfl | rfl | rfl | rfl | rfl <;> rfl
  case leaf_of_datum =>
    exact fun v plain => DataLeaf.of_isWritten plain.1
  case body =>
    exact fun identity params body home leaf => leaf.2
  case procedure =>
    intro identity spec params body home parsed whole each
    exact ⟨strict_of_parseParams (whole.imp fun _ plain => plain.2) parsed, each⟩
  case agrees =>
    intro inner fn frame operands value
    apply mixed_arguments_of_strict inner frame
    rintro identity params body home rfl
    exact ((Value.every_of_flat rfl).mp value).1
  case shallower =>
    -- the strict strategy evaluates its operands itself, behind one call
    intro fn operands
    change 1 ≤ Strategy.mixed.calls fn operands
    unfold Strategy.calls
    repeat' split
    all_goals decide
  case bound =>
    intro r frame name v strict bound
    obtain ⟨owner, -, member⟩ := Store.mem_of_bound? bound
    exact .inl (strict.now.bound owner _ member)
  case waiting =>
    intro r id form frame kept strict waiting
    rw [strict.now.thunk_eq] at waiting
    cases waiting
  case settled =>
    intro r id v strict settled
    -- a suspension that is not there reads as nil
    rw [strict.now.thunk_eq] at settled
    cases settled
    exact ⟨(Value.every_of_flat rfl).mpr trivial, rfl⟩
  case begins =>
    exact fun r task strict _ => strict.note _ rfl strict.now
  case ends =>
    exact fun r task before outcome strict _ => strict.note _ rfl strict.now
  case binds =>
    exact fun r frame name v strict value => strict.withStore
      (strict.now.bind frame (.sym name) v value)
  case numbers =>
    exact fun r strict => strict.withStore (strict.now.of_frames rfl rfl)
  case suspends =>
    exact fun r form frame kept lazily => absurd rfl lazily
  case settles =>
    intro r id v strict _ _
    exact strict.withStore (strict.now.of_frames rfl (by simp [Store.settle, strict.now.thunks]))
  case performs =>
    intro r p given strict default_ values
    apply Accord.performs_default (a := unannotated added) DataLeaf.results default_
      fun v member => (values v member).1
    exact fun fresh printed => (strict.note (.applied p given r.store) rfl strict.now).withStore
      (strict.now.of_frames rfl rfl)
  case calls =>
    intro r head operands caller identity params body home outer given strict _ _ _ arguments
    refine strict.withStore (strict.now.extend home _ fun entry member => ?_)
    -- nothing is suspended under the strict strategy
    exact (arguments entry.2 (List.of_mem_zip member).2).resolve_right fun lazily => lazily.1 rfl

theorem emptyGlobals_strict (checked : Bool) : (emptyGlobals checked).Strict := by
  constructor
  · rfl
  · intro frame entry member
    cases frame with
    | zero => cases member
    | succ frame => simp [emptyGlobals, Store.addFrame, Store.frame,
        Array.getD_eq_getD_getElem?] at member

theorem unannotated_reads (added : AddedActions) {text : String} (plain : Unannotated text) :
    (unannotated added).Reads text := by
  intro forms read form member
  have fine := readAll_fine (fun _ => True) text
  rw [read] at fine
  have readable := fine form member
  exact (readable.and (plain forms read form member)).imp fun leaf holds => ⟨.inl holds.1, holds.2⟩

/-- Sessions with the default primitives whose texts name no mode reply alike under the mixed and
under the strict strategy, as long as the mixed one has room for its calls: with the same values and
failures, and the same recordings, so with the same steps, output and stores. Nothing is ever
suspended. -/
theorem mixed_replies_as_strict (setup : Setup) (texts : List String)
    (supplied : setup.supplies = defaultSupplies)
    (plain : ∀ text ∈ setup.prelude :: texts, Unannotated text) :
    let replied := (setup.under .mixed).replies texts
    (replied.1.1 ≠ .error .recursion → Session.Roomy replied.2 →
      (setup.under .strict).replies texts = replied) ∧
      (∀ store ∈ replied.1.2.moments, store.thunks = #[]) ∧
      ∀ reply ∈ replied.2, ∀ store ∈ reply.2.moments, store.thunks = #[] := by
  intro replied
  have reads : ∀ text ∈ setup.prelude :: texts, (unannotated setup.added).Reads text :=
    fun text member => unannotated_reads setup.added (plain text member)
  have nothing : ({} : Store).Strict := ⟨rfl, fun frame entry member => nomatch member⟩
  have opens : (unannotated setup.added).Opens setup :=
    Accord.opens_default rfl supplied (fun _ default_ => default_) (.nothing nothing)
      (fun checked => (Recording.Always.nothing nothing).withStore (emptyGlobals_strict checked))
      (reads _ List.mem_cons_self)
  obtain ⟨same, opened, each⟩ := Accord.setup_replies_leads (unannotated_lawful setup.added) opens
    texts
    fun text member => reads text (.tail _ member)
  exact ⟨same, fun store member => (opened.moments store member).thunks,
    fun reply among store member => ((each reply among).moments store member).thunks⟩

def countdown : String :=
  "(let loop ((n 2)) (if (= n 0) (cons n nil) (loop (- n 1))))"

theorem unannotated_countdown : Unannotated countdown := by
  have reads : readAll countdown =
      .ok [.list [.sym "let", .sym "loop", .list [.list [.sym "n", .int 2]],
      .list [.sym "if", .list [.sym "=", .sym "n", .int 0], .list [.sym "cons", .sym "n", .nil],
        .list [.sym "loop", .list [.sym "-", .sym "n", .int 1]]]]] := by cbv
  intro forms found form member
  rw [reads] at found
  cases found
  obtain rfl := List.mem_singleton.mp member
  simp only [Value.every_list, List.mem_cons, List.not_mem_nil, or_false, forall_eq_or_imp,
    forall_eq]
  and_intros <;> exact (Value.every_of_flat rfl).mpr rfl

theorem unannotated_empty : Unannotated "" := by
  have reads : readAll "" = .ok [] := by cbv
  intro forms found form member
  rw [reads] at found
  cases found
  cases member

/-- A named `let` makes procedures, and calls them. -/
theorem mixed_replies_as_strict_countdown :
    (Setup.plain "lazy" true).supplies = defaultSupplies ∧
      (∀ text ∈ [(Setup.plain "lazy" true).prelude, countdown], Unannotated text) ∧
      (((Setup.plain "lazy" true).under .mixed).replies [countdown]).2.map Prod.fst =
        [.ok (.list [.int 0])] ∧
      (((Setup.plain "lazy" true).under .strict).replies [countdown]).2.map Prod.fst =
        [.ok (.list [.int 0])] := by
  have plain : ∀ text ∈ [(Setup.plain "lazy" true).prelude, countdown], Unannotated text := by
    intro text member
    simp only [List.mem_cons, List.not_mem_nil, or_false] at member
    rcases member with rfl | rfl
    · exact unannotated_empty
    · exact unannotated_countdown
  have outcomes : (((Setup.plain "lazy" true).under .mixed).replies [countdown]).1.1 = .ok 0 ∧
      (((Setup.plain "lazy" true).under .mixed).replies [countdown]).2.map Prod.fst =
        [.ok (.list [.int 0])] := by
    constructor <;> cbv
  obtain ⟨started, mixed⟩ := outcomes
  have roomy : Session.Roomy (((Setup.plain "lazy" true).under .mixed).replies [countdown]).2 := by
    intro reply member
    have among := List.mem_map_of_mem (f := Prod.fst) member
    rw [mixed, List.mem_singleton] at among
    rw [among]
    rintro ⟨⟩
  have same := (mixed_replies_as_strict (Setup.plain "lazy" true) [countdown] rfl plain).1
    (by rw [started]; rintro ⟨⟩) roomy
  exact ⟨rfl, plain, mixed, by rw [same, mixed]⟩

/-! Where the strategies differ: under the mixed one an operand of a primitive is a call further in.
-/

def sums : Nat → Value
  | 0 => .int 1
  | depth + 1 => .list [.sym "+", .int 1, sums depth]

def sumTokens : Nat → List Token
  | 0 => [.symbol ['1']]
  | depth + 1 => .opening :: .symbol ['+'] :: .symbol ['1'] :: (sumTokens depth ++ [.closing])

def sumText (depth : Nat) : String := String.ofList (spaced (sumTokens depth))

theorem spells_sums (depth : Nat) : Spells (sums depth) (sumTokens depth) := by
  have one : Spells (.int 1) [.symbol ['1']] :=
    .word (@Word.int false [] ['1'] .none (by decide) (List.all_eq_true.mp (by decide)) (by decide))
  have plus : Spells (.sym "+") [.symbol ['+']] :=
    .word (.sym (by decide) (List.all_eq_true.mp (by decide)) (by decide) rfl)
  induction depth with
  | zero => exact one
  | succ depth ih =>
      have each : ∀ item ∈ [(Value.sym "+", [Token.symbol ['+']]), (.int 1, [.symbol ['1']]),
          (sums depth, sumTokens depth)], Spells item.1 item.2 :=
        List.forall_mem_cons.mpr ⟨plus, List.forall_mem_cons.mpr
          ⟨one, List.forall_mem_singleton.mpr ih⟩⟩
      have whole := Spells.list _ each
      simpa [sums, sumTokens] using whole

theorem nesting_sums (depth : Nat) : (sums depth).nesting = depth + 1 := by
  induction depth with
  | zero => rfl
  | succ depth ih => simp [sums, Value.nesting, Value.nestingAll, ih]

theorem readAll_sumText {depth : Nat} (shallow : depth < readLimit) :
    readAll (sumText depth) = .ok [sums depth] := by
  have read := readAllWithin_of_spells readLimit [(sums depth, sumTokens depth)]
    (by simpa using spells_sums depth) .nil (laidOut_spaced _) (sumText depth) (by simp [sumText])
  have within : (sums depth).nesting ≤ readLimit := by
    rw [nesting_sums]
    exact shallow
  simp only [List.map_cons, List.map_nil, Value.nestingAll, Nat.max_zero, if_pos within] at read
  exact read

theorem unannotated_sumText {depth : Nat} (shallow : depth < readLimit) :
    Unannotated (sumText depth) := by
  intro forms read form member
  rw [readAll_sumText shallow] at read
  cases read
  obtain rfl := List.mem_singleton.mp member
  clear shallow member
  induction depth with
  | zero => exact (Value.every_of_flat rfl).mpr rfl
  | succ depth ih =>
      simp only [sums, Value.every_list, List.mem_cons, List.not_mem_nil, or_false,
        forall_eq_or_imp, forall_eq]
      exact ⟨(Value.every_of_flat rfl).mpr rfl, (Value.every_of_flat rfl).mpr rfl, ih⟩

/-- The calls from one sum to the sum inside it, by the strategy. -/
def Strategy.sumCalls : Strategy → Nat
  | .strict => 4
  | _ => 5

theorem arguments_default (strategy : Strategy) (inner : Inner Run) (name : String)
    (operation : Operation) (frame : FrameId) (operands : List Value) :
    strategy.arguments inner (defaultPrimitive name operation) frame operands =
      inner.evaluateAll frame operands := by
  cases strategy <;> rfl

theorem apply_sum (added : AddedActions) (inner : Inner Run) (a b : Int) (store : Store) :
    (apply added inner (defaultPrimitive "+" (.arithmetic .sum)) [.int a, .int b] : Run Value).on
      store =
      (.ok (.int (a + b)), store) := by
  have total : Arithmetic.sumOf [.int a, .int b] = .ok (.int (0 + a + b)) := rfl
  rw [Int.zero_add] at total
  simp only [apply, defaultPrimitive, Inner.concreteAll, Inner.concrete, pure_bind, Operation.run,
    Arithmetic.run, total]
  rfl

theorem run_sums (evaluator : Evaluator) (full : evaluator.forms = FormTable.full) {store : Store}
    {frame : FrameId} (bound : store.bound? frame "+" =
      some (defaultPrimitive "+" (.arithmetic .sum)))
    (depth limit : Nat) :
    (evaluator.run limit (.evaluate (sums depth) frame) : Run Value).on store =
      if depth * evaluator.strategy.sumCalls < limit then (.ok (.int (depth + 1)), store)
      else (.error .recursion, store) := by
  have ordinary : ∀ name, Value.sym "+" = .sym name → evaluator.forms.find? name = none := by
    rintro name ⟨⟩
    rw [full]
    rfl
  have head (room : Nat) : (evaluator.run room (.evaluate (.sym "+") frame) : Run Value).on store =
      if 0 < room then (.ok (defaultPrimitive "+" (.arithmetic .sum)), store) else
        (.error .recursion, store) := by
    cases room with
    | zero => rfl
    | succ room =>
        change (Evaluator.evaluateVariable (evaluator.stack room 0) "+" frame : Run Value).on
          store = _
        simp only [Evaluator.evaluateVariable, Run.on_bind, Machine.effect, Scope.on_lookup, bound]
        rfl
  have one (room : Nat) : (evaluator.run room (.evaluate (.int 1) frame) : Run Value).on store =
      if 0 < room then (.ok (.int 1), store) else (.error .recursion, store) := by
    cases room <;> rfl
  have calls (operands : List Value) : evaluator.strategy.calls
      (defaultPrimitive "+" (.arithmetic .sum)) operands + 2 =
      evaluator.strategy.sumCalls - 1 := by
    cases evaluator.strategy <;> rfl
  have several : 4 ≤ evaluator.strategy.sumCalls := by cases evaluator.strategy <;> decide
  generalize evaluator.strategy.sumCalls = level at calls several ⊢
  -- on the depth: the room runs out at the operator, at the first operand, or inside the second
  induction depth generalizing limit with
  | zero => simpa [sums] using one limit
  | succ depth ih =>
      cases limit with
      | zero => rfl
      | succ limit =>
          rw [sums, Evaluator.run_combination, Evaluator.combination_application _ _ _ _ _ ordinary,
            Nat.succ_mul, Run.on_bind, Evaluator.evaluate_stack, head]
          by_cases some : 0 < limit
          · simp only [if_pos some, Run.on_bind, arguments_default, Inner.evaluateAll,
              Evaluator.evaluate_above, calls, one]
            by_cases here : 0 < limit - (level - 1)
            · by_cases inside : depth * level < limit - (level - 1)
              · have enough : depth * level + level < limit + 1 := by omega
                simp only [if_pos here, ih, if_pos inside, if_pos enough, Run.on_pure, apply_sum]
                rw [Int.add_comm]
                rfl
              · have short : ¬ depth * level + level < limit + 1 := by omega
                simp only [if_pos here, ih, if_neg inside, if_neg short]
            · have short : ¬ depth * level + level < limit + 1 := by omega
              simp only [if_neg here, if_neg short]
          · have short : ¬ depth * level + level < limit + 1 := by omega
            simp only [if_neg some, if_neg short]

theorem sum_bound (strategy : Strategy) :
    let started := (Session.start ((Setup.plain "lazy" true).under strategy) : Recorded Session).on
      {}
    started.1 = .ok ⟨⟨FormTable.full, strategy, fun _ _ => return .nil⟩, 0⟩ ∧
      started.2.store.bound? 0 "+" = some (defaultPrimitive "+" (.arithmetic .sum)) := by
  cases strategy <;> constructor <;> cbv

theorem replies_sumText (strategy : Strategy) {depth : Nat} (shallow : depth < readLimit) :
    (((Setup.plain "lazy" true).under strategy).replies [sumText depth]).2.map Prod.fst =
      [if depth * strategy.sumCalls < evaluationLimit then .ok (.int (depth + 1)) else .error
        .recursion] := by
  obtain ⟨started, bound⟩ := sum_bound strategy
  unfold Setup.replies
  generalize (Session.start ((Setup.plain "lazy" true).under strategy) : Recorded Session).on {} =
    ran at started bound ⊢
  obtain ⟨outcome, r⟩ := ran
  obtain rfl := started
  let evaluator : Evaluator := ⟨FormTable.full, strategy, fun _ _ => return .nil⟩
  -- a recorded run has the outcome of the plain one
  have value := congrArg Prod.fst (run_sums evaluator rfl bound depth evaluationLimit)
  have recorded := congrArg Prod.fst
    (evaluator.run_on_store evaluationLimit (.evaluate (sums depth) 0) r)
  have only : ((Session.evaluateTextWithin evaluationLimit ⟨evaluator, 0⟩ (sumText depth) :
      Recorded Value).on r).1 =
      ((evaluator.run evaluationLimit (.evaluate (sums depth) 0) : Recorded Value).on r).1 := by
    rw [Session.evaluateTextWithin, readAll_sumText shallow]
    change ((evaluator.run evaluationLimit (.evaluate (sums depth) 0) >>= pure : Recorded Value).on
      r).1 = _
    rw [bind_pure]
  refine congrArg (· :: []) (only.trans (recorded.symm.trans (value.trans ?_)))
  split <;> rfl

/-- Under the strict strategy the sum has a value, and under the mixed one its calls come to the end
of the room. -/
theorem mixed_has_less_room :
    (Setup.plain "lazy" true).supplies = defaultSupplies ∧ Unannotated (sumText 225) ∧
      (((Setup.plain "lazy" true).under .strict).replies [sumText 225]).2.map Prod.fst =
        [.ok (.int 226)] ∧
      (((Setup.plain "lazy" true).under .mixed).replies [sumText 225]).2.map Prod.fst =
        [.error .recursion] := by
  have shallow : 225 < readLimit := by decide
  exact ⟨rfl, unannotated_sumText shallow, replies_sumText .strict shallow,
    replies_sumText .mixed shallow⟩

end ThunkLisp
