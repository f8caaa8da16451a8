import Mathlib.Data.List.TakeWhile
import ThunkLisp.Proofs.Code
import ThunkLisp.Proofs.Layout
import ThunkLisp.Reader

/-!
The ways to write a form down, and that reading undoes each of them. A text may choose the digits
and the sign of a whole number, the escapes of a string, the short form of a quote, and the blanks
and comments between tokens. The form alone decides how deep it is nested, and so whether the reader
gets through it.
-/

namespace ThunkLisp

open Text

/-- Characters that are written with a backslash in front of a mark. -/
def escapeMarks : List (Char × Char) := [('"', '"'), ('\\', '\\'), ('\n', 'n'), ('\t', 't'),
    ('\r', 'r')]

/-- The body of a string literal for a text. Only a double quote and a backslash have to be escaped.
-/
inductive Escapes : List Char → List Char → Prop where
  | nil : Escapes [] []
  | plain {c : Char} {text body : List Char} (no_quote : c ≠ '"') (no_backslash : c ≠ '\\')
      (behind : Escapes text body) : Escapes (c :: text) (c :: body)
  | marked {c mark : Char} {text body : List Char} (pair : (c, mark) ∈ escapeMarks)
      (behind : Escapes text body) : Escapes (c :: text) ('\\' :: mark :: body)

inductive Sign : Bool → List Char → Prop where
  | minus : Sign true ['-']
  | plus : Sign false ['+']
  | none : Sign false []

/-- The words for constants, whole numbers and symbols. A symbol is its name, and a name is neither
the word of a constant nor a numeral. -/
inductive Word : Value → List Char → Prop where
  | nil : Word .nil ['n', 'i', 'l']
  | true : Word (.bool true) ['t', 'r', 'u', 'e']
  | false : Word (.bool false) ['f', 'a', 'l', 's', 'e']
  | int {negative : Bool} {sign digits : List Char} (isSign : Sign negative sign)
      (some : digits ≠ [])
      (allDigits : ∀ c ∈ digits, isDigit c = Bool.true) (few : digits.length ≤ Number.digitLimit) :
      Word (.int (Numeral.signed negative (digitsValue digits))) (sign ++ digits)
  | sym {name : String} (some : name.toList ≠ [])
      (among : ∀ c ∈ name.toList, Token.isSymbolChar c = Bool.true)
      (no_constant : name ≠ "nil" ∧ name ≠ "true" ∧ name ≠ "false")
      (no_numeral : Numeral.parse? name.toList = Option.none) : Word (.sym name) name.toList

/-- The tokens that a form may be written as. -/
inductive Spells : Value → List Token → Prop where
  | word {form : Value} {text : List Char} (word : Word form text) : Spells form [.symbol text]
  | str {text : String} {body : List Char} (escapes : Escapes text.toList body) :
      Spells (.str text) [.string body]
  | list (items : List (Value × List Token)) (each : ∀ item ∈ items, Spells item.1 item.2) :
      Spells (.list (items.map Prod.fst)) (.opening :: (items.flatMap Prod.snd ++ [.closing]))
  | quoted {form : Value} {tokens : List Token} (inner : Spells form tokens) :
      Spells (quoteForm form) (.quote :: tokens)

def Writes (form : Value) (text : String) : Prop :=
  ∃ tokens gap body, Spells form tokens ∧ Gap gap ∧ LaidOut tokens body ∧ text.toList = gap ++ body

namespace Value

theorem nesting_quoteForm (form : Value) : (quoteForm form).nesting = form.nesting + 1 := by
  have positive := form.nesting_pos
  simp only [quoteForm, nesting, nestingAll]
  omega

end Value

/-! String literals -/

theorem unescape_marked {c mark : Char} (pair : (c, mark) ∈ escapeMarks) (body : List Char) :
    unescape ('\\' :: mark :: body) = c :: unescape body := by
  simp only [escapeMarks, List.mem_cons, Prod.mk.injEq, List.not_mem_nil, or_false] at pair
  rcases pair with ⟨rfl, rfl⟩ | ⟨rfl, rfl⟩ | ⟨rfl, rfl⟩ | ⟨rfl, rfl⟩ | ⟨rfl, rfl⟩ <;> rfl

theorem unescape_of_escapes {text body : List Char} (escapes : Escapes text body) :
    unescape body = text := by
  induction escapes with
  | nil => rfl
  | plain _ no_backslash _ ih =>
      rw [unescape, ih]
      intro c rest same
      exact absurd same no_backslash
  | marked pair _ ih => rw [unescape_marked pair, ih]

theorem stringBody?_of_escapes {text body : List Char} (escapes : Escapes text body)
    (rest : List Char) :
    Token.stringBody? (body ++ '"' :: rest) = some (body, rest) := by
  induction escapes with
  | nil => rfl
  | plain no_quote no_backslash _ ih =>
      -- neither the rule for a quote nor those for a backslash apply
      rw [List.cons_append, Token.stringBody?, ih]
      · rfl
      · exact no_quote
      · exact fun same => absurd same no_backslash
      · intro c behind same
        exact absurd same no_backslash
  | marked _ _ ih => rw [List.cons_append, List.cons_append, Token.stringBody?, ih]; rfl

/-! Words -/

theorem isDigit_iff (c : Char) :
    isDigit c = true ↔ ∃ start ∈ digitZeros, start ≤ c.toNat ∧ c.toNat ≤ start + 9 := by
  simp [isDigit, digitValue?]

theorem blankRanges_apart_digits :
    ∀ start ∈ digitZeros, ∀ range ∈ blankRanges, range.2 < start ∨ start + 9 < range.1 := by
  decide

theorem ne_of_isDigit {c other : Char} (digit : isDigit c = true)
    (no_digit : isDigit other = false) :
    c ≠ other := by
  rintro rfl
  rw [digit] at no_digit
  cases no_digit

theorem isSymbolChar_of_isDigit {c : Char} (digit : isDigit c = true) :
    Token.isSymbolChar c = true := by
  obtain ⟨start, among, from_start, up_to⟩ := (isDigit_iff c).mp digit
  have solid : isBlank c = false := by
    rw [Bool.eq_false_iff]
    intro blank
    obtain ⟨range, member, low, high⟩ := (CodeRanges.contains_iff _ _).mp blank
    have apart := blankRanges_apart_digits start among range member
    omega
  simp [Token.isSymbolChar, solid, ne_of_isDigit digit (show isDigit '(' = false by decide),
    ne_of_isDigit digit (show isDigit ')' = false by decide),
    ne_of_isDigit digit (show isDigit '\'' = false by decide),
    ne_of_isDigit digit (show isDigit '"' = false by decide),
    ne_of_isDigit digit (show isDigit ';' = false by decide)]

theorem splitSign_append {negative : Bool} {sign digits : List Char} (isSign : Sign negative sign)
    (allDigits : ∀ c ∈ digits, isDigit c = true) :
    Numeral.splitSign (sign ++ digits) = (negative, digits) := by
  cases isSign with
  | minus => rfl
  | plus => rfl
  | none =>
      cases digits with
      | nil => rfl
      | cons c rest =>
          have digit := allDigits c List.mem_cons_self
          -- a digit is not taken for a sign
          rw [List.nil_append, Numeral.splitSign]
          · exact fun text same =>
              absurd (List.cons.inj same).1 (ne_of_isDigit digit (by decide))
          · exact fun text same =>
              absurd (List.cons.inj same).1 (ne_of_isDigit digit (by decide))

theorem parse?_append {negative : Bool} {sign digits : List Char} (isSign : Sign negative sign)
    (some : digits ≠ []) (allDigits : ∀ c ∈ digits, isDigit c = true) :
    Numeral.parse? (sign ++ digits) = .some ⟨negative, digits, none, none⟩ := by
  have taken : digits.takeWhile isDigit = digits := List.takeWhile_eq_self_iff.mpr allDigits
  have dropped : digits.dropWhile isDigit = [] := List.dropWhile_eq_nil_iff.mpr allDigits
  simp [Numeral.parse?, splitSign_append isSign allDigits, taken, dropped, some,
    Numeral.splitFraction, Numeral.parseExponent?]

theorem dropFinalLineFeed_of_symbolChars {text : List Char}
    (among : ∀ c ∈ text, Token.isSymbolChar c = true) :
    dropFinalLineFeed text = text := by
  have no_feed : text.getLast? ≠ some '\n' := by
    intro last
    have feed := among _ (List.mem_of_getLast? last)
    revert feed
    decide
  simp [dropFinalLineFeed, no_feed]

theorem Word.isWhole {form : Value} {text : List Char} (word : Word form text) :
    (Token.symbol text).IsWhole := by
  cases word with
  | nil => exact ⟨by simp, List.all_eq_true.mp (by decide)⟩
  | true => exact ⟨by simp, List.all_eq_true.mp (by decide)⟩
  | false => exact ⟨by simp, List.all_eq_true.mp (by decide)⟩
  | int isSign some allDigits few =>
      constructor
      · simp [some]
      · intro c member
        rcases List.mem_append.mp member with of_sign | of_digits
        · cases isSign <;> simp_all <;> decide
        · exact isSymbolChar_of_isDigit (allDigits c of_digits)
  | sym some among no_constant no_numeral => exact ⟨some, among⟩

theorem readAtom_of_word {form : Value} {text : List Char} (word : Word form text) :
    readAtom text = .ok form := by
  have no_feed := dropFinalLineFeed_of_symbolChars word.isWhole.2
  cases word with
  | nil => rfl
  | true => rfl
  | false => rfl
  | @int negative sign digits isSign some allDigits few =>
      have parsed := parse?_append isSign some allDigits
      -- the words of the constants are no numerals
      have no_constant : ∀ constant, Numeral.parse? constant = Option.none →
          sign ++ digits ≠ constant := by
        rintro constant no_numeral rfl
        rw [parsed] at no_numeral
        cases no_numeral
      simp [readAtom, no_constant ['n', 'i', 'l'] rfl, no_constant ['t', 'r', 'u', 'e'] rfl,
        no_constant ['f', 'a', 'l', 's', 'e'] rfl, no_feed, parsed, Numeral.isWhole, few,
          Numeral.toInt]
  | @sym name some among no_constant no_numeral =>
      obtain ⟨no_nil, no_true, no_false⟩ := no_constant
      have other : ∀ constant : String, name ≠ constant → name.toList ≠ constant.toList :=
        fun constant different same => different (String.toList_inj.mp same)
      have no_nil := other _ no_nil
      have no_true := other _ no_true
      have no_false := other _ no_false
      simp only [String.reduceToList] at no_nil no_true no_false
      simp [readAtom, no_nil, no_true, no_false, no_feed, no_numeral]

theorem Spells.whole {form : Value} {tokens : List Token} (spells : Spells form tokens) :
    ∀ token ∈ tokens, token.IsWhole := by
  induction spells with
  | word word => simpa using word.isWhole
  | str escapes =>
      intro token member
      cases List.mem_singleton.mp member
      exact stringBody?_of_escapes escapes
  | list items _ ih =>
      intro token member
      simp only [List.mem_cons, List.mem_append, List.mem_flatMap, List.not_mem_nil,
        or_false] at member
      rcases member with rfl | ⟨item, among, member⟩ | rfl
      · trivial
      · exact ih item among token member
      · trivial
  | quoted _ ih =>
      rintro token (_ | ⟨_, member⟩)
      · trivial
      · exact ih token member

/-! Reading -/

namespace Reader

def proceed (limit : Nat) (done : List Value) (rest : List Token) : Progress → Readings
  | .complete form => readForms limit (form :: done) [] rest
  | .within levels => readForms limit done levels rest

/-- Wherever the tokens stand, they are read as the form, unless it is nested too deep there. -/
def ReadsAs (limit : Nat) (form : Value) (tokens : List Token) : Prop :=
  ∀ done levels rest,
    (levels.length + form.nesting ≤ limit →
      readForms limit done levels (tokens ++ rest) = proceed limit done rest (place form levels)) ∧
    (limit < levels.length + form.nesting →
      ∃ unread, readForms limit done levels (tokens ++ rest) = .failed .recursion unread)

theorem readForms_start (limit : Nat) (done : List Value) (levels : List Level) (token : Token)
    (rest : List Token) (progress : Progress) (opens : token ≠ .closing)
    (started : start levels token = .ok progress) :
    readForms limit done levels (token :: rest) =
      if levels.length < limit then proceed limit done rest progress else .failed .recursion
        rest := by
  have taken : take limit levels token =
      if levels.length < limit then start levels token else .error .recursion := by
    cases token with
    | closing => exact absurd rfl opens
    | _ => rfl
  by_cases room : levels.length < limit
  · simp only [readForms, taken, room, ↓reduceIte, started]
    cases progress <;> rfl
  · simp only [readForms, taken, room, ↓reduceIte]

theorem readsAs_of_start (limit : Nat) (form : Value) (token : Token) (opens : token ≠ .closing)
    (atomic : form.nesting = 1) (started : ∀ levels, start levels token = .ok (place form levels)) :
    ReadsAs limit form [token] := by
  intro done levels rest
  rw [List.singleton_append, readForms_start limit done levels token rest _ opens (started levels),
    atomic]
  constructor
  · intro room
    rw [if_pos (by omega)]
  · intro full
    rw [if_neg (by omega)]
    exact ⟨rest, rfl⟩

/-- Where a row of forms is read: at the top of the text, or inside a list. -/
inductive Row where
  | top
  | list (done : List Value) (outer : List Level)

namespace Row

def done (read : List Value) : Row → List Value
  | .top => read
  | .list done _ => done

def levels (read : List Value) : Row → List Level
  | .top => []
  | .list _ outer => .list read :: outer

def depth : Row → Nat
  | .top => 0
  | .list _ outer => outer.length + 1

theorem length_levels (row : Row) (read : List Value) : (row.levels read).length = row.depth := by
  cases row <;> rfl

theorem proceed_place (limit : Nat) (row : Row) (read : List Value) (form : Value)
    (rest : List Token) :
    proceed limit (row.done read) rest (place form (row.levels read)) =
      readForms limit (row.done (form :: read)) (row.levels (form :: read)) rest := by
  cases row <;> rfl

end Row

theorem readForms_row (limit : Nat) (row : Row) (room : row.depth ≤ limit)
    (items : List (Value × List Token)) (each : ∀ item ∈ items, ReadsAs limit item.1 item.2)
    (read : List Value) (rest : List Token) :
    (row.depth + Value.nestingAll (items.map Prod.fst) ≤ limit →
      readForms limit (row.done read) (row.levels read) (items.flatMap Prod.snd ++ rest) =
        readForms limit (row.done ((items.map Prod.fst).reverse ++ read))
          (row.levels ((items.map Prod.fst).reverse ++ read)) rest) ∧
    (limit < row.depth + Value.nestingAll (items.map Prod.fst) →
      ∃ unread, readForms limit (row.done read) (row.levels read) (items.flatMap Prod.snd ++ rest) =
        .failed .recursion unread) := by
  -- on the row's forms, while those that have been read are carried along in reverse
  induction items generalizing read with
  | nil =>
      constructor
      · intro _
        rfl
      · intro full
        simp only [List.map_nil, Value.nestingAll] at full
        omega
  | cons item items ih =>
      have first := each item List.mem_cons_self (row.done read) (row.levels read)
        (items.flatMap Prod.snd ++ rest)
      have others := ih (fun other member => each other (.tail item member)) (item.1 :: read)
      rw [row.length_levels, row.proceed_place] at first
      simp only [List.map_cons, Value.nestingAll, List.flatMap_cons, List.append_assoc,
        List.reverse_cons, List.singleton_append]
      constructor
      · intro fits
        rw [first.1 (by omega), others.1 (by omega)]
      · intro full
        -- it is the first form that is too deep, or one behind it
        by_cases fits : row.depth + item.1.nesting ≤ limit
        · rw [first.1 fits]
          exact others.2 (by omega)
        · exact first.2 (by omega)

theorem readsAs_list (limit : Nat) (items : List (Value × List Token))
    (each : ∀ item ∈ items, ReadsAs limit item.1 item.2) :
    ReadsAs limit (.list (items.map Prod.fst))
      (.opening :: (items.flatMap Prod.snd ++ [.closing])) := by
  intro done levels rest
  rw [List.cons_append, List.append_assoc,
    readForms_start limit done levels .opening _ (.within (.list [] :: levels)) (by simp) rfl,
      Value.nesting]
  by_cases room : levels.length < limit
  · have inside := readForms_row limit (.list done levels) room items each [] ([.closing] ++ rest)
    rw [if_pos room]
    constructor
    · intro fits
      refine (inside.1 (by simp only [Row.depth]; omega)).trans ?_
      -- the closing parenthesis is taken at any depth
      have closed : take limit (.list ((items.map Prod.fst).reverse ++ []) :: levels) .closing =
          .ok (place (.list (items.map Prod.fst)) levels) := by
        simp [take]
      simp only [Row.done, Row.levels, List.singleton_append, readForms, closed]
      cases place (.list (items.map Prod.fst)) levels <;> rfl
    · intro full
      exact inside.2 (by simp only [Row.depth]; omega)
  · rw [if_neg room]
    constructor
    · intro fits
      omega
    · intro _
      exact ⟨_, rfl⟩

theorem readsAs_quoteForm (limit : Nat) (form : Value) (tokens : List Token)
    (inner : ReadsAs limit form tokens) : ReadsAs limit (quoteForm form) (.quote :: tokens) := by
  intro done levels rest
  have behind := inner done (.quote :: levels) rest
  rw [List.cons_append,
    readForms_start limit done levels .quote _ (.within (.quote :: levels)) (by simp) rfl,
    Value.nesting_quoteForm]
  simp only [List.length_cons] at behind
  by_cases room : levels.length < limit
  · rw [if_pos room]
    constructor
    · intro fits
      exact behind.1 (by omega)
    · intro full
      exact behind.2 (by omega)
  · rw [if_neg room]
    constructor
    · intro fits
      omega
    · intro _
      exact ⟨_, rfl⟩

/-- Reading undoes spelling, up to the limit of nesting. -/
theorem readsAs_of_spells (limit : Nat) {form : Value} {tokens : List Token}
    (spells : Spells form tokens) : ReadsAs limit form tokens := by
  induction spells with
  | @word form text word =>
      apply readsAs_of_start limit form (.symbol text) (by simp)
      · cases word <;> rfl
      · intro levels
        simp [start, readAtom_of_word word, Except.map]
  | @str text body escapes =>
      apply readsAs_of_start limit (.str text) (.string body) (by simp) rfl
      intro levels
      simp [start, unescape_of_escapes escapes]
  | list items _ ih => exact readsAs_list limit items ih
  | quoted _ ih => exact readsAs_quoteForm limit _ _ ih

end Reader

theorem readAllWithin_of_spells (limit : Nat) (items : List (Value × List Token))
    (each : ∀ item ∈ items, Spells item.1 item.2) {gap body : List Char} (isGap : Gap gap)
    (laidOut : LaidOut (items.flatMap Prod.snd) body) (source : String)
    (layout : source.toList = gap ++ body) :
    readAllWithin limit source =
      if Value.nestingAll (items.map Prod.fst) ≤ limit then .ok (items.map Prod.fst)
      else .error .recursion := by
  have whole : ∀ token ∈ items.flatMap Prod.snd, token.IsWhole := by
    intro token member
    obtain ⟨item, among, member⟩ := List.mem_flatMap.mp member
    exact (each item among).whole token member
  have lexed : lex source.toList = ⟨items.flatMap Prod.snd, []⟩ := by
    rw [layout, lex_gap isGap, lex_laidOut laidOut whole]
  have read := Reader.readForms_row limit .top (Nat.zero_le limit) items
    (fun item member => Reader.readsAs_of_spells limit (each item member)) [] []
  simp only [Reader.Row.depth, Reader.Row.done, Reader.Row.levels, Nat.zero_add,
    List.append_nil] at read
  have stream : TokenStream.ofSource source.toList = ⟨none, items.flatMap Prod.snd, none⟩ := by
    simp [TokenStream.ofSource, lexed, Lexed.fault?]
  simp only [readAllWithin, stream, TokenStream.parseAll, TokenStream.waiting, Option.toList_none,
    List.nil_append]
  by_cases fits : Value.nestingAll (items.map Prod.fst) ≤ limit
  · rw [if_pos fits, read.1 fits]
    simp [Reader.readForms]
  · obtain ⟨unread, failed⟩ := read.2 (by omega)
    rw [if_neg fits, failed]

end ThunkLisp
