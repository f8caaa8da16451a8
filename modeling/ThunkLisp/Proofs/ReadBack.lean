import Mathlib.Data.List.Basic
import Mathlib.Data.List.Induction
import ThunkLisp.Proofs.Spelling
import ThunkLisp.Written

/-!
Reading gives back what was written. The forms that can be written down are the trees of constants,
whole numbers with few enough digits, texts and symbols with a name of their own. Reading any text
for such a form gives the form, up to the nesting at which the reader gives up.
-/

namespace ThunkLisp

open Text

inductive Source : Value → Prop where
  | nil : Source .nil
  | bool (b : Bool) : Source (.bool b)
  | int (n : Int) (few : n.natAbs < 10 ^ Number.digitLimit) : Source (.int n)
  | str (text : String) : Source (.str text)
  | sym (name : String) (some : name.toList ≠ [])
      (among : ∀ c ∈ name.toList, Token.isSymbolChar c = true)
      (no_constant : name ≠ "nil" ∧ name ≠ "true" ∧ name ≠ "false")
      (no_numeral : Numeral.parse? name.toList = none) : Source (.sym name)
  | list (items : List Value) (each : ∀ item ∈ items, Source item) : Source (.list items)

/-! Digits -/

theorem digitValue?_of_isDigit {c : Char} (digit : c.isDigit = true) :
    digitValue? c = some (c.toNat - '0'.toNat) := by
  have low : 0x30 ≤ c.toNat ∧ c.toNat ≤ 0x30 + 9 := by
    simp only [Char.isDigit, Bool.and_eq_true, decide_eq_true_eq] at digit
    exact ⟨digit.1, digit.2⟩
  simp [digitValue?, digitZeros, List.find?_cons_of_pos, low]

theorem digitsValue_toDigits (n : Nat) : digitsValue (Nat.toDigits 10 n) = n := by
  have same : digitsValue (Nat.toDigits 10 n) = Nat.ofDigitChars 10 (Nat.toDigits 10 n) 0 := by
    apply List.foldl_ext
    intro value c member
    rw [digitValue?_of_isDigit (Nat.isDigit_of_mem_toDigits (by omega) (by omega) member)]
    rfl
  rw [same, Nat.ofDigitChars_toDigits (by omega) (by omega)]

theorem digitsValue_lt (digits : List Char) : digitsValue digits < 10 ^ digits.length := by
  induction digits using List.reverseRecOn with
  | nil => simp [digitsValue]
  | append_singleton digits c ih =>
      have last : (digitValue? c).getD 0 ≤ 9 := by
        cases found : digitValue? c with
        | none => simp
        | some value => exact digitValue?_le_nine c value found
      have step : digitsValue (digits ++ [c]) = 10 * digitsValue digits + (digitValue? c).getD
          0 := by
        simp [digitsValue]
      rw [step, List.length_append, List.length_singleton, Nat.pow_succ]
      omega

theorem natAbs_signed (negative : Bool) (magnitude : Nat) :
    (Numeral.signed negative magnitude).natAbs = magnitude := by
  cases negative <;> simp [Numeral.signed]

theorem word_intText (n : Int) (few : n.natAbs < 10 ^ Number.digitLimit) :
    Word (.int n) (intText n).toList := by
  have isSign : Sign (decide (n < 0)) (if n < 0 then ['-'] else []) := by
    by_cases negative : n < 0
    · simpa [negative] using Sign.minus
    · simpa [negative] using Sign.none
  have value : Numeral.signed (decide (n < 0)) (digitsValue (Nat.toDigits 10 n.natAbs)) = n := by
    rw [digitsValue_toDigits]
    by_cases negative : n < 0
    · simp only [Numeral.signed, negative, decide_true, ↓reduceIte]
      omega
    · simp only [Numeral.signed, negative, decide_false, Bool.false_eq_true, ↓reduceIte]
      omega
  have short := (Nat.length_toDigits_le_iff (by omega) (by decide)).mpr few
  have word := Word.int isSign Nat.toDigits_ne_nil
    (fun c member => by
      simp [isDigit, digitValue?_of_isDigit
        (Nat.isDigit_of_mem_toDigits (by omega) (by omega) member)])
    short
  rw [value] at word
  simpa only [intText, String.toList_ofList] using word

/-! What can be written -/

theorem exists_escapes (text : List Char) : ∃ body, Escapes text body := by
  induction text with
  | nil => exact ⟨[], .nil⟩
  | cons c text ih =>
      obtain ⟨body, behind⟩ := ih
      by_cases quote : c = '"'
      · exact ⟨'\\' :: '"' :: body, .marked (by simp [escapeMarks, quote]) behind⟩
      · by_cases backslash : c = '\\'
        · exact ⟨'\\' :: '\\' :: body, .marked (by simp [escapeMarks, backslash]) behind⟩
        · exact ⟨c :: body, .plain quote backslash behind⟩

theorem exists_row (forms : List Value) (each : ∀ form ∈ forms, ∃ tokens, Spells form tokens) :
    ∃ row : List (Value × List Token), row.map Prod.fst = forms ∧
      ∀ item ∈ row, Spells item.1 item.2 := by
  induction forms with
  | nil => exact ⟨[], rfl, by simp⟩
  | cons form rest ih =>
      obtain ⟨tokens, spells⟩ := each form List.mem_cons_self
      obtain ⟨row, same, others⟩ := ih fun other member => each other (.tail form member)
      have whole : ∀ item ∈ (form, tokens) :: row, Spells item.1 item.2 :=
        List.forall_mem_cons.mpr ⟨spells, others⟩
      exact ⟨(form, tokens) :: row, by simp [same], whole⟩

theorem Source.spells {form : Value} (source : Source form) : ∃ tokens, Spells form tokens := by
  induction source with
  | nil => exact ⟨_, .word .nil⟩
  | bool b =>
      cases b with
      | true => exact ⟨_, .word .true⟩
      | false => exact ⟨_, .word .false⟩
  | int n few => exact ⟨_, .word (word_intText n few)⟩
  | str text =>
      obtain ⟨body, escapes⟩ := exists_escapes text.toList
      exact ⟨_, .str escapes⟩
  | sym name some among no_constant no_numeral =>
      exact ⟨_, .word (.sym some among no_constant no_numeral)⟩
  | list items _ ih =>
      obtain ⟨row, rfl, each⟩ := exists_row items ih
      exact ⟨_, .list row each⟩

theorem source_quote : Source (.sym "quote") :=
  .sym "quote" (by decide) (List.all_eq_true.mp (by decide)) (by decide) rfl

theorem source_of_spells {form : Value} {tokens : List Token} (spells : Spells form tokens) :
    Source form := by
  induction spells with
  | word word =>
      cases word with
      | nil => exact .nil
      | true => exact .bool true
      | false => exact .bool false
      | @int negative sign digits _ _ _ few =>
          apply Source.int
          rw [natAbs_signed]
          exact Nat.lt_of_lt_of_le (digitsValue_lt digits) (Nat.pow_le_pow_right (by omega) few)
      | sym some among no_constant no_numeral => exact .sym _ some among no_constant no_numeral
  | str _ => exact .str _
  | list items _ ih =>
      apply Source.list
      intro form member
      obtain ⟨item, among, rfl⟩ := List.mem_map.mp member
      exact ih item among
  | quoted _ ih =>
      apply Source.list
      intro form member
      simp only [List.mem_cons, List.not_mem_nil, or_false] at member
      rcases member with rfl | rfl
      · exact source_quote
      · exact ih

/-- The forms of the format are those that some text writes down. -/
theorem source_iff_exists_writes (form : Value) : Source form ↔ ∃ text, Writes form text := by
  constructor
  · intro source
    obtain ⟨tokens, spells⟩ := source.spells
    exact ⟨String.ofList (spaced tokens), tokens, [], spaced tokens, spells, .nil,
      laidOut_spaced tokens, by simp⟩
  · rintro ⟨text, tokens, gap, body, spells, _⟩
    exact source_of_spells spells

/-! Reading back -/

theorem readOneWithin_of_writes (limit : Nat) {form : Value} {text : String}
    (writes : Writes form text) :
    readOneWithin limit text = if form.nesting ≤ limit then .ok form else .error .recursion := by
  obtain ⟨tokens, gap, body, spells, isGap, laidOut, layout⟩ := writes
  have read := readAllWithin_of_spells limit [(form, tokens)] (by simpa using spells) isGap
    (by simpa using laidOut) text layout
  have same : Value.nestingAll ([(form, tokens)].map Prod.fst) = form.nesting := by
    simp [Value.nestingAll]
  rw [same] at read
  simp only [readOneWithin, read]
  split <;> rfl

/-- Every form of the format can be written down, and reading any text that writes it gives exactly
that form, as long as it is nested no deeper than the limit of the reader; a form nested deeper is
refused, however it is written. -/
theorem read_written (form : Value) (source : Source form) :
    (∃ text, Writes form text) ∧
      ∀ limit text, Writes form text →
        readOneWithin limit text = if form.nesting ≤ limit then .ok form else .error .recursion :=
  ⟨(source_iff_exists_writes form).mp source, fun limit _ writes =>
    readOneWithin_of_writes limit writes⟩

def mixedForm : Value := .list [quoteForm (.sym "x"), .int (-12), .str "a\"\n"]

def mixedText : String := ";one\n('x;two\n-012\"a\\\"\\n\" )"

def mixedTokens : List Token :=
  [.opening, .quote, .symbol ['x'], .symbol ['-', '0', '1', '2'],
    .string ['a', '\\', '"', '\\', 'n'], .closing]

theorem spells_mixedForm : Spells mixedForm mixedTokens := by
  have x : Spells (.sym "x") [.symbol ['x']] :=
    .word (.sym (by decide) (List.all_eq_true.mp (by decide)) (by decide) rfl)
  have number : Spells (.int (-12)) [.symbol ['-', '0', '1', '2']] :=
    .word (@Word.int true ['-'] ['0', '1', '2'] .minus (by decide) (List.all_eq_true.mp (by decide))
      (by decide))
  have literal : Spells (.str "a\"\n") [.string ['a', '\\', '"', '\\', 'n']] :=
    .str (.plain (by decide) (by decide) (.marked (by decide) (.marked (by decide) .nil)))
  have each : ∀ item ∈ [(quoteForm (.sym "x"), [Token.quote, .symbol ['x']]),
      (.int (-12), [.symbol ['-', '0', '1', '2']]),
        (.str "a\"\n", [.string ['a', '\\', '"', '\\', 'n']])],
      Spells item.1 item.2 :=
    List.forall_mem_cons.mpr ⟨x.quoted, List.forall_mem_cons.mpr
      ⟨number, List.forall_mem_singleton.mpr literal⟩⟩
  exact .list _ each

theorem laidOut_mixedTokens : ∃ body, LaidOut mixedTokens body ∧
    mixedText.toList = ";one\n".toList ++ body := by
  have touching : Gap [] := .nil
  have isComment : Gap (';' :: (['t', 'w', 'o'] ++ '\n' :: [])) := .comment (by decide) .nil
  have isSpace : Gap [' '] := .blank (by decide) .nil
  constructor
  constructor
  · exact .cons touching (by simp) (.cons touching (by simp) (.cons isComment (by simp)
      (.cons touching (by simp) (.cons isSpace (by simp) (.cons touching (by simp) .nil)))))
  · rfl

theorem mixedForm_written : Writes mixedForm mixedText := by
  obtain ⟨body, laidOut, layout⟩ := laidOut_mixedTokens
  have isComment : Gap (';' :: (['o', 'n', 'e'] ++ '\n' :: [])) := .comment (by decide) .nil
  exact ⟨mixedTokens, _, body, spells_mixedForm, isComment, laidOut, layout⟩

theorem read_written_mixed :
    Source mixedForm ∧ Writes mixedForm mixedText ∧ readOne mixedText = .ok mixedForm := by
  have source := (source_iff_exists_writes mixedForm).mpr ⟨mixedText, mixedForm_written⟩
  have read := (read_written mixedForm source).2 readLimit mixedText mixedForm_written
  rw [if_pos (by decide)] at read
  exact ⟨source, mixedForm_written, read⟩

def nestedList : Nat → Value
  | 0 => .list []
  | depth + 1 => .list [nestedList depth]

theorem nesting_nestedList (depth : Nat) : (nestedList depth).nesting = depth + 1 := by
  induction depth with
  | zero => rfl
  | succ depth ih => simp [nestedList, Value.nesting, Value.nestingAll, ih]

theorem spells_nestedList (depth : Nat) :
    Spells (nestedList depth)
      (List.replicate (depth + 1) .opening ++ List.replicate (depth + 1) .closing) := by
  induction depth with
  | zero => exact .list [] (by simp)
  | succ depth ih =>
      have around := Spells.list [(nestedList depth, _)] (by simpa using ih)
      simp only [List.map_cons, List.map_nil, List.flatMap_cons, List.flatMap_nil, List.append_nil,
        List.append_assoc, ← List.replicate_succ'] at around
      exact around

theorem laidOut_replicate (token : Token) (no_symbol : ∀ word, token ≠ .symbol word) (count : Nat)
    {tokens : List Token} {text : List Char} (behind : LaidOut tokens text) :
    LaidOut (List.replicate count token ++ tokens)
      ((List.replicate count token.text).flatten ++ text) := by
  induction count with
  | zero => simpa using behind
  | succ count ih =>
      have around := LaidOut.cons .nil (fun word _ _ same => absurd same (no_symbol word)) ih
      simpa [List.replicate_succ] using around

/-- As many parentheses, opened and closed, as are one too many for the reader. -/
def tooManyParentheses : String :=
  String.ofList (List.replicate (readLimit + 1) '(' ++ List.replicate (readLimit + 1) ')')

/-- A list that is nested too deep for the reader, written with parentheses alone. -/
theorem too_deep_list_not_read :
    Source (nestedList readLimit) ∧ Writes (nestedList readLimit) tooManyParentheses ∧
      readOne tooManyParentheses = .error .recursion := by
  have closings := laidOut_replicate .closing (by simp) (readLimit + 1) .nil
  have laidOut := laidOut_replicate .opening (by simp) (readLimit + 1) closings
  have writes : Writes (nestedList readLimit) tooManyParentheses := by
    refine ⟨_, [], _, spells_nestedList readLimit, .nil, by simpa using laidOut, ?_⟩
    simp [tooManyParentheses, Token.text]
  have read := readOneWithin_of_writes readLimit writes
  rw [if_neg (by rw [nesting_nestedList]; omega)] at read
  exact ⟨(source_iff_exists_writes _).mpr ⟨_, writes⟩, writes, read⟩

end ThunkLisp
