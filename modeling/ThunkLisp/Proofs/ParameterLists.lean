import Mathlib.Data.List.Forall2
import ThunkLisp.Proofs.MalformedForms
import ThunkLisp.Proofs.ReadBack

/-!
Parameter lists, as they are accepted and as a procedure shows them. A tree is accepted if its items
declare parameters one by one and no name stands twice; besides the symbol of a mode, a text that
spells it is taken. What a procedure shows of its parameters is read as such a list, and it declares
the same parameters.
-/

namespace ThunkLisp

open Value (Every)

/-- A parameter as it is to be written: its name alone if it is strict, or a list of its name and
the symbol of its mode. -/
inductive Documented : Param → Value → Prop where
  | bare (name : String) : Documented ⟨name, .strict⟩ (.sym name)
  | moded (name : String) (mode : ParamMode) : Documented ⟨name, mode⟩
      (.list [.sym name, .sym mode.text])

/-- What is taken for a parameter: in the place of the mode, a text will do as well. -/
inductive Accepted : Param → Value → Prop where
  | documented {param : Param} {spec : Value} (written : Documented param spec) :
      Accepted param spec
  | text (name : String) (mode : ParamMode) : Accepted ⟨name, mode⟩
      (.list [.sym name, .str mode.text])

/-- The tree is a list that declares these parameters one by one, with no name twice. -/
def Lists (declares : Param → Value → Prop) (params : List Param) (tree : Value) : Prop :=
  ∃ specs, tree = .list specs ∧ List.Forall₂ declares params specs ∧ (params.map Param.name).Nodup

/-- In the tree, a parameter has a text for its mode. -/
def HasTextMode (tree : Value) : Prop :=
  ∃ specs name word, tree = .list specs ∧ .list [.sym name, .str word] ∈ specs

/-! Acceptance. -/

theorem ParamMode.ofText?_text (mode : ParamMode) : ofText? mode.text = some mode := by
  cases mode <;> rfl

theorem ParamMode.eq_text_of_ofText? {word : String} {mode : ParamMode}
    (found : ofText? word = some mode) :
    word = mode.text := by
  unfold ofText? at found
  split at found <;> cases found <;> rfl

theorem accepted_of_parseParam {spec : Value} {param : Param}
    (parsed : parseParam spec = .ok param) :
    Accepted param spec := by
  unfold parseParam at parsed
  split at parsed
  · cases parsed
    exact .documented (.bare _)
  · next name mode =>
      cases known : ParamMode.ofValue? mode with
      | none => simp [known] at parsed
      | some found =>
          simp only [known, Except.ok.injEq] at parsed
          subst parsed
          cases mode with
          | sym word => exact ParamMode.eq_text_of_ofText? known ▸ .documented (.moded name found)
          | str word => exact ParamMode.eq_text_of_ofText? known ▸ .text name found
          | _ => cases known
  · cases parsed

theorem parseParam_eq_ok_iff (spec : Value) (param : Param) :
    parseParam spec = .ok param ↔ Accepted param spec := by
  refine ⟨accepted_of_parseParam, ?_⟩
  rintro (⟨⟨name⟩ | ⟨name, mode⟩⟩ | ⟨name, mode⟩)
  · rfl
  all_goals simp only [parseParam, ParamMode.ofValue?, ParamMode.ofText?_text]

theorem exceptBind_eq_ok_iff {ε α β : Type} {first : Except ε α} {next : α → Except ε β} {b : β} :
    (first >>= next) = .ok b ↔ ∃ a, first = .ok a ∧ next a = .ok b := by
  cases first <;> simp [bind, Except.bind]

theorem parseParamItems_eq_ok_iff (specs : List Value) (params : List Param) :
    parseParamItems specs = .ok params ↔ List.Forall₂ Accepted params specs := by
  induction specs generalizing params with
  | nil => simp [parseParamItems, eq_comm]
  | cons spec rest ih =>
      simp only [parseParamItems, exceptBind_eq_ok_iff, parseParam_eq_ok_iff, ih,
        List.forall₂_cons_right_iff, pure, Except.pure, Except.ok.injEq]
      constructor
      · rintro ⟨param, here, others, behind, rfl⟩
        exact ⟨param, others, here, behind, rfl⟩
      · rintro ⟨param, others, here, behind, rfl⟩
        exact ⟨param, here, others, behind, rfl⟩

theorem parseParams_eq_ok_iff (tree : Value) (params : List Param) :
    parseParams tree = .ok params ↔ Lists Accepted params tree := by
  cases tree with
  | list specs =>
      simp only [parseParams, exceptBind_eq_ok_iff, parseParamItems_eq_ok_iff, Lists]
      constructor
      · rintro ⟨found, accepted, checked⟩
        split at checked
        · next distinct =>
            cases checked
            exact ⟨specs, rfl, accepted, distinct⟩
        · cases checked
      · rintro ⟨_, ⟨⟩, accepted, distinct⟩
        exact ⟨params, accepted, if_pos distinct⟩
  | _ => simp [parseParams, Lists]

theorem Lists.imp {declares others : Param → Value → Prop}
    (weaker : ∀ param spec, declares param spec → others param spec) {params : List Param}
    {tree : Value} (lists : Lists declares params tree) : Lists others params tree := by
  obtain ⟨specs, rfl, each, distinct⟩ := lists
  exact ⟨specs, rfl, each.imp weaker, distinct⟩

theorem Accepted.documented_iff {param : Param} {spec : Value} (accepted : Accepted param spec) :
    Documented param spec ↔ ∀ name word, spec ≠ .list [.sym name, .str word] := by
  cases accepted with
  | documented written =>
      refine ⟨fun _ name word same => ?_, fun _ => written⟩
      subst same
      cases written
  | text name mode =>
      constructor
      · intro written
        cases written
      · intro no_text
        exact absurd rfl (no_text name mode.text)

theorem forall₂_documented_iff {params : List Param} {specs : List Value}
    (accepted : List.Forall₂ Accepted params specs) :
    List.Forall₂ Documented params specs ↔ ∀ spec ∈ specs, ∀ name word,
      spec ≠ .list [.sym name, .str word] := by
  induction accepted with
  | nil => simp
  | cons here _ ih => rw [List.forall₂_cons, here.documented_iff, ih, List.forall_mem_cons]

/-- The accepted lists that are not documented are those with a text for a mode. -/
theorem lists_documented_iff {params : List Param} {tree : Value}
    (lists : Lists Accepted params tree) :
    Lists Documented params tree ↔ ¬ HasTextMode tree := by
  obtain ⟨specs, rfl, accepted, distinct⟩ := lists
  constructor
  · rintro ⟨_, ⟨⟩, documented, _⟩ ⟨_, name, word, ⟨⟩, member⟩
    exact (forall₂_documented_iff accepted).mp documented _ member name word rfl
  · intro no_text
    refine ⟨specs, rfl, (forall₂_documented_iff accepted).mpr fun spec member name word same => ?_,
      distinct⟩
    exact no_text ⟨specs, name, word, rfl, same ▸ member⟩

theorem parseParams_refuses {tree : Value} (refused : ∀ params, ¬ Lists Accepted params tree) :
    ∃ fault, parseParams tree = .error fault ∧ ∀ store,
      Every (fun leaf => leaf.isWritable = true) tree →
      tree.nesting ≤ Value.writtenLimit → (Failure.malformed fault).reported store =
        .malformed fault := by
  cases parsed : parseParams tree with
  | ok params => exact absurd ((parseParams_eq_ok_iff tree params).mp parsed) (refused params)
  | error fault =>
      have passes := (hereditary_every fun leaf => leaf.isWritable = true).and
        (hereditary_nesting Value.writtenLimit)
      refine ⟨fault, rfl, fun store writable within => ?_⟩
      exact reported_of_told store _ (parseParams_shows passes tree fault ⟨writable, within⟩ parsed)

/-- A tree is accepted as a parameter list exactly if its items declare the parameters one by one,
with no name twice, and it is as documented unless it has a text for a mode. Any other tree is
refused as malformed, if everything in it can be written and it has not too many lists inside each
other. -/
theorem parameter_lists_accepted (tree : Value) :
    (∀ params, parseParams tree = .ok params ↔ Lists Accepted params tree) ∧
      (∀ params, Lists Documented params tree ↔ parseParams tree = .ok params ∧
        ¬ HasTextMode tree) ∧
      ((∀ params, ¬ Lists Accepted params tree) →
        ∃ fault, parseParams tree = .error fault ∧ ∀ store,
          Every (fun leaf => leaf.isWritable = true) tree →
          tree.nesting ≤ Value.writtenLimit → (Failure.malformed fault).reported store =
            .malformed fault) := by
  refine ⟨parseParams_eq_ok_iff tree, fun params => ?_, parseParams_refuses⟩
  rw [parseParams_eq_ok_iff]
  constructor
  · intro documented
    have accepted : Lists Accepted params tree := documented.imp fun _ _ => .documented
    exact ⟨accepted, (lists_documented_iff accepted).mp documented⟩
  · rintro ⟨accepted, no_text⟩
    exact (lists_documented_iff accepted).mpr no_text

/-- A list with a text for a mode is accepted although it is not documented, and a name that stands
twice is refused even where the modes differ. -/
theorem parameter_lists_accepted_texts :
    let params : List Param := [⟨"a", .strict⟩, ⟨"b", .lazyMemo⟩]
    let text : Value := .list [.sym "a", .list [.sym "b", .str "lazy-memo"]]
    let doubled : Value := .list [.sym "a", .list [.sym "a", .sym "lazy"]]
    Lists Accepted params text ∧ ¬ Lists Documented params text ∧
      (∀ others, ¬ Lists Accepted others doubled) ∧ Every (fun leaf => leaf.isWritable = true)
        doubled ∧
      doubled.nesting ≤ Value.writtenLimit ∧
      ∃ fault, parseParams doubled = .error fault ∧ (Failure.malformed fault).reported {} =
        .malformed fault := by
  intro params text doubled
  obtain ⟨accepted, documented, _⟩ := parameter_lists_accepted text
  obtain ⟨accepted', _, refused⟩ := parameter_lists_accepted doubled
  have has_text : HasTextMode text := ⟨_, "b", "lazy-memo", rfl, .tail _ List.mem_cons_self⟩
  have none (others : List Param) : ¬ Lists Accepted others doubled := by
    rw [← accepted']
    exact nofun
  have writable : Every (fun leaf => leaf.isWritable = true) doubled := by
    simp [doubled, Value.every_list, Value.every_sym, Value.isWritable]
  obtain ⟨fault, failed, reported⟩ := refused none
  exact ⟨(accepted params).mp rfl, fun written => ((documented params).mp written).2 has_text, none,
    writable, by decide, fault, failed, reported {} writable (by decide)⟩

theorem written_long (store : Store) {n : Int} (long : 10 ^ Number.digitLimit ≤ n.natAbs) :
    store.written (.int n) = .error .notWritable := by
  rw [Store.written, Value.writtenWith, if_neg (Nat.not_lt.mpr long)]

/-- A text is taken for a mode, and a number that is too long to be written is not refused as a
malformed mode. -/
theorem undocumented_modes :
    let text : Value := .list [.list [.sym "a", .str "lazy"]]
    let long : Value := .int (10 ^ 4352)
    (parseParams text = .ok [⟨"a", .lazy⟩] ∧ ∀ params, ¬ Lists Documented params text) ∧
      parseParams (.list [.list [.sym "a", long]]) = .error (.paramMode long "a") ∧
      (Failure.malformed (.paramMode long "a")).reported {} = .notWritable := by
  intro text long
  refine ⟨⟨rfl, ?_⟩, rfl, ?_⟩
  · rintro params ⟨specs, same, documented, _⟩
    rw [← Value.list.inj same] at documented
    cases documented with
    | cons written _ => cases written
  · have unwritten : Store.displayed {} long = .error .notWritable :=
      written_long {} (by decide +kernel)
    simp [Failure.reported, Failure.message, Failure.phrases, Malformed.phrases, Phrase.text,
      unwritten, bind, Except.bind, Except.map]

/-! What a procedure shows. -/

def Param.form (param : Param) : Value :=
  if param.mode = .strict then .sym param.name else .list [.sym param.name, .sym param.mode.text]

def Param.tokens (param : Param) : List Token :=
  if param.mode = .strict then [.symbol param.name.toList]
  else [.opening, .symbol param.name.toList, .symbol param.mode.text.toList, .closing]

/-- The form that the text of a procedure writes down. -/
def shownForm (params : List Param) : Value :=
  .list [.sym "λ", .list (params.map Param.form), .sym "..."]

theorem documented_form (param : Param) : Documented param param.form := by
  obtain ⟨name, mode⟩ := param
  unfold Param.form
  split
  · next strict =>
      cases strict
      exact .bare name
  · exact .moded name mode

theorem parseParams_form {params : List Param} (distinct : (params.map Param.name).Nodup) :
    parseParams (.list (params.map Param.form)) = .ok params := by
  rw [parseParams_eq_ok_iff]
  refine ⟨_, rfl, ?_, distinct⟩
  rw [List.forall₂_map_right_iff, List.forall₂_same]
  exact fun param _ => .documented (documented_form param)

def isName (text : String) : Bool :=
  text.toList ≠ [] && text.toList.all Token.isSymbolChar &&
    (text ≠ "nil" ∧ text ≠ "true" ∧ text ≠ "false") &&
    (Numeral.parse? text.toList).isNone

theorem source_of_isName {text : String} (name : isName text = true) : Source (.sym text) := by
  simp only [isName, Bool.and_eq_true, decide_eq_true_eq, List.all_eq_true,
    Option.isNone_iff_eq_none] at name
  obtain ⟨⟨⟨some, among⟩, no_constant⟩, no_numeral⟩ := name
  exact .sym text some among no_constant no_numeral

theorem source_modeText (mode : ParamMode) : Source (.sym mode.text) := by
  cases mode <;> exact source_of_isName (by decide)

theorem word_of_source {name : String} (source : Source (.sym name)) :
    Word (.sym name) name.toList := by
  cases source with
  | sym _ some among no_constant no_numeral => exact .sym some among no_constant no_numeral

theorem spells_sym {name : String} (source : Source (.sym name)) :
    Spells (.sym name) [.symbol name.toList] :=
  .word (word_of_source source)

theorem spells_param {param : Param} (source : Source (.sym param.name)) :
    Spells param.form param.tokens := by
  unfold Param.form Param.tokens
  split
  · exact spells_sym source
  · refine .list [(.sym param.name, [.symbol param.name.toList]),
      (.sym param.mode.text, [.symbol param.mode.text.toList])] ?_
    simp only [List.forall_mem_cons, List.not_mem_nil, false_implies, implies_true, and_true]
    exact ⟨spells_sym source, spells_sym (source_modeText param.mode)⟩

def NoSymbolFirst (tokens : List Token) : Prop := ∀ word others, tokens ≠ .symbol word :: others

theorem noSymbolFirst_closing (tokens : List Token) : NoSymbolFirst (.closing :: tokens) :=
  fun _ _ => nofun

theorem laidOut_symbol (word : String) {gap text : List Char} {tokens : List Token}
    (isGap : Gap gap) (apart : gap ≠ [] ∨ NoSymbolFirst tokens) (behind : LaidOut tokens text) :
    LaidOut (.symbol word.toList :: tokens) (word.toList ++ (gap ++ text)) :=
  .cons isGap (fun _ next others _ same => apart.resolve_right fun no_symbol =>
    no_symbol next others same) behind

theorem laidOut_opening {tokens : List Token} {text : List Char} (behind : LaidOut tokens text) :
    LaidOut (.opening :: tokens) ('(' :: text) :=
  .cons .nil (fun _ _ _ => nofun) behind

theorem laidOut_closing {gap text : List Char} {tokens : List Token} (isGap : Gap gap)
    (behind : LaidOut tokens text) :
    LaidOut (.closing :: tokens) (')' :: (gap ++ text)) :=
  .cons isGap (fun _ _ _ => nofun) behind

theorem gap_space : Gap [' '] := .blank (by decide) .nil

theorem laidOut_param (param : Param) {gap text : List Char} {tokens : List Token} (isGap : Gap gap)
    (apart : gap ≠ [] ∨ NoSymbolFirst tokens) (behind : LaidOut tokens text) :
    LaidOut (param.tokens ++ tokens) (param.text.toList ++ (gap ++ text)) := by
  unfold Param.tokens Param.text
  split
  · exact laidOut_symbol param.name isGap apart behind
  · have inside := laidOut_symbol param.mode.text .nil (.inr
    (noSymbolFirst_closing _)) (laidOut_closing isGap behind)
    have whole := laidOut_opening (laidOut_symbol param.name gap_space (.inl (by simp)) inside)
    simpa using whole

theorem laidOut_params (params : List Param) {text : List Char} {tokens : List Token}
    (no_symbol : NoSymbolFirst tokens) (behind : LaidOut tokens text) :
    LaidOut (params.flatMap Param.tokens ++ tokens)
      ((" ".intercalate (params.map Param.text)).toList ++ text) := by
  induction params with
  | nil => exact behind
  | cons param rest ih =>
      cases rest with
      | nil => simpa using laidOut_param param .nil (.inr no_symbol) behind
      | cons next others =>
          have whole := laidOut_param param gap_space (.inl (by simp)) ih
          simpa [String.intercalate_cons_cons] using whole

def shownTokens (params : List Param) : List Token :=
  .opening :: .symbol "λ".toList :: .opening :: (params.flatMap Param.tokens ++
    .closing :: .symbol "...".toList :: [.closing])

theorem spells_shownForm {params : List Param}
    (names : ∀ param ∈ params, Source (.sym param.name)) :
    Spells (shownForm params) (shownTokens params) := by
  have lambda : Source (.sym "λ") := source_of_isName (by decide)
  have dots : Source (.sym "...") := source_of_isName (by decide)
  have inner := Spells.list (params.map fun param => (param.form, param.tokens)) (by
    intro item member
    obtain ⟨param, among, rfl⟩ := List.mem_map.mp member
    exact spells_param (names param among))
  simp only [List.map_map, List.flatMap_map, Function.comp_def] at inner
  have whole := Spells.list [(_, _), (_, _), (_, _)] (by
    simp only [List.forall_mem_cons, List.not_mem_nil, false_implies, implies_true, and_true]
    exact ⟨spells_sym lambda, inner, spells_sym dots⟩)
  simpa [shownForm, shownTokens] using whole

theorem laidOut_shown (params : List Param) : LaidOut (shownTokens params)
    (procedureText params).toList := by
  have rest : LaidOut [.symbol "...".toList, .closing]
      ("...".toList ++ ([] ++ ')' :: ([] ++ []))) :=
    laidOut_symbol "..." .nil (.inr (noSymbolFirst_closing _)) (laidOut_closing .nil .nil)
  have inner := laidOut_params params (noSymbolFirst_closing _) (laidOut_closing gap_space rest)
  have whole := laidOut_opening (laidOut_symbol "λ" gap_space (.inl (by simp))
    (laidOut_opening inner))
  simpa [procedureText, shownTokens] using whole

theorem writes_shownForm {params : List Param}
    (names : ∀ param ∈ params, Source (.sym param.name)) :
    Writes (shownForm params) (procedureText params) :=
  ⟨shownTokens params, [], (procedureText params).toList, spells_shownForm names, .nil,
    laidOut_shown params, rfl⟩

theorem nesting_form_le (param : Param) : param.form.nesting ≤ 2 := by
  unfold Param.form
  split <;> simp [Value.nesting, Value.nestingAll]

theorem nestingAll_forms_le (params : List Param) :
    Value.nestingAll (params.map Param.form) ≤ 2 :=
  Value.nestingAll_le_iff.mpr (List.forall_mem_map.mpr fun param _ => nesting_form_le param)

theorem nesting_shownForm_le (params : List Param) : (shownForm params).nesting ≤ readLimit := by
  have inside := nestingAll_forms_le params
  simp only [shownForm, Value.nesting, Value.nestingAll, readLimit]
  omega

/-- What a procedure shows is read as a list, and what stands second in it declares the parameters
of the procedure. -/
theorem shown_parameters_read_back (store : Store) (identity : Nat) (params : List Param)
    (body : List Value) (frame : FrameId) (names : ∀ param ∈ params, Source (.sym param.name))
    (distinct : (params.map Param.name).Nodup) :
    ∃ text before second after,
      store.displayed? (.procedure identity params body frame) = some text ∧
        readOne text = .ok (.list (before :: second :: after)) ∧
          parseParams second = .ok params := by
  have read := readOneWithin_of_writes readLimit (writes_shownForm names)
  rw [if_pos (nesting_shownForm_le params)] at read
  exact ⟨procedureText params, _, _, _, rfl, read, parseParams_form distinct⟩

/-- Names that look like a keyword or like a difference are read as names, and every mode is kept.
-/
theorem shown_parameters_read_back_modes :
    let params : List Param := [⟨"quote", .lazy⟩, ⟨"λ", .strict⟩, ⟨"x-1", .lazyMemo⟩]
    (∀ param ∈ params, Source (.sym param.name)) ∧ (params.map Param.name).Nodup ∧
      ∃ text before second after, Store.displayed? {} (.procedure 1 params [.sym "x-1"] 0) =
        some text ∧
        readOne text = .ok (.list (before :: second :: after)) ∧
          parseParams second = .ok params := by
  intro params
  have names : ∀ param ∈ params, Source (.sym param.name) := by
    have checked : ∀ param ∈ params, isName param.name = true := by decide
    exact fun param member => source_of_isName (checked param member)
  have distinct : (params.map Param.name).Nodup := by decide
  exact ⟨names, distinct, shown_parameters_read_back {} 1 params [.sym "x-1"] 0 names distinct⟩

end ThunkLisp
