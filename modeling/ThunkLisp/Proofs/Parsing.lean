import ThunkLisp.Message
import ThunkLisp.Proofs.Grammar
import ThunkLisp.Proofs.Spelling

/-!
The reader and the grammar. Reading keeps step with the places of a row of tokens, so it accepts
exactly the rows of expressions, gives the trees they denote, and fails at the first place where no
expression can go on. A place inside too many open lists and quotes ends reading before that.
-/

namespace ThunkLisp

/-- No whole number with more digits than can be read. -/
def Token.FewDigits (token : Token) : Prop :=
  ∀ text numeral, token = .symbol text → Numeral.parse? (dropFinalLineFeed text) = some numeral →
    numeral.isWhole = true → numeral.whole.length ≤ Number.digitLimit

theorem readAtom_of_fewDigits {text : List Char} (few : (Token.symbol text).FewDigits) :
    readAtom text = .ok (Expression.valueOfSymbol text) := by
  have good : ∃ value, readAtom text = .ok value := by
    unfold readAtom
    split
    · exact ⟨_, rfl⟩
    split
    · exact ⟨_, rfl⟩
    split
    · exact ⟨_, rfl⟩
    split
    · exact ⟨_, rfl⟩
    · next numeral parsed =>
        cases whole : numeral.isWhole with
        | false => exact ⟨_, rfl⟩
        | true => exact ⟨_, if_pos (few text numeral rfl parsed whole)⟩
  obtain ⟨value, read⟩ := good
  simp [Expression.valueOfSymbol, read]

/-! What a place is to the reader -/

def Enclosure.level : Enclosure → Level
  | .list items => .list (items.map Expression.value).reverse
  | .quote => .quote

def Passage.progress : Passage → Progress
  | .complete expression => .complete expression.value
  | .within around => .within (around.map Enclosure.level)

namespace Place

def done (place : Place) : List Value := (place.before.map Expression.value).reverse

def levels (place : Place) : List Level := place.around.map Enclosure.level

/-- There is no room for a form that starts with this token. A list may still be closed. -/
def Full (limit : Nat) (place : Place) (token : Token) : Prop :=
  limit ≤ place.around.length ∧ (token = .closing → ¬ place.InList)

end Place

/-- Some form starts inside as many open lists and quotes as there may be at most. -/
def TooDeep (limit : Nat) (tokens : List Token) : Prop :=
  ∃ (place : Place) (token : Token) (behind : List Token),
    tokens = place.tokens ++ token :: behind ∧ place.Full limit token

namespace Reader

open Enclosure (put)

theorem place_eq_progress (expression : Expression) (around : List Enclosure) :
    place expression.value (around.map Enclosure.level) = (put expression around).progress := by
  induction around generalizing expression with
  | nil => rfl
  | cons enclosure outer ih =>
      cases enclosure with
      | list items => simp [place, put, Enclosure.level, Passage.progress]
      | quote =>
          have outside := ih (.quoted expression)
          rw [Expression.value] at outside
          exact outside

theorem take_eq_start (limit : Nat) {place : Place} {token : Token}
    (outside : token = .closing → ¬ place.InList) :
    take limit place.levels token =
      if place.around.length < limit then start place.levels token else .error .recursion := by
  obtain ⟨before, around⟩ := place
  cases token with
  | closing =>
      rcases around with _ | ⟨items | _, outer⟩
      · rfl
      · exact absurd ⟨items, outer, rfl⟩ (outside rfl)
      · simp [take, Place.levels, Enclosure.level]
  | _ => simp [take, Place.levels]

theorem take_of_full {limit : Nat} {place : Place} {token : Token} (full : place.Full limit token) :
    take limit place.levels token = .error .recursion := by
  rw [take_eq_start limit full.2, if_neg (Nat.not_lt.mpr full.1)]

theorem start_eq (place : Place) {token : Token} (few : token.FewDigits)
    (outside : token = .closing → ¬ place.InList) :
    start place.levels token =
      match Enclosure.pass place.around token with
      | some passage => .ok passage.progress
      | none => .error (.malformed .unexpectedClosing) := by
  obtain ⟨before, around⟩ := place
  cases token with
  | quote => rfl
  | opening => rfl
  | string body =>
      have placed := place_eq_progress (.string body) around
      rw [Expression.value] at placed
      simp [start, Place.levels, placed, Enclosure.pass]
  | symbol text =>
      have placed := place_eq_progress (.symbol text) around
      rw [Expression.value] at placed
      simp [start, Place.levels, placed, Enclosure.pass, readAtom_of_fewDigits few, Except.map]
  | closing =>
      rcases around with _ | ⟨items | _, outer⟩
      · rfl
      · exact absurd ⟨items, outer, rfl⟩ (outside rfl)
      · rfl

theorem take_of_not_full (limit : Nat) (place : Place) (token : Token) (few : token.FewDigits)
    (room : ¬ place.Full limit token) :
    take limit place.levels token =
      match Enclosure.pass place.around token with
      | some passage => .ok passage.progress
      | none => .error (.malformed .unexpectedClosing) := by
  by_cases closes : token = .closing ∧ place.InList
  · obtain ⟨rfl, items, outer, same⟩ := closes
    have placed := place_eq_progress (.list items) outer
    rw [Expression.value] at placed
    simp [take, Place.levels, same, Enclosure.level, Enclosure.pass, placed]
  · have outside : token = .closing → ¬ place.InList :=
      fun closing inside => closes ⟨closing, inside⟩
    have shallow : place.around.length < limit := Nat.lt_of_not_le fun deep => room ⟨deep, outside⟩
    rw [take_eq_start limit outside, if_pos shallow, start_eq place few outside]

theorem readForms_next {limit : Nat} {place inner : Place} {token : Token} (few : token.FewDigits)
    (room : ¬ place.Full limit token) (passed : place.next token = some inner) (rest : List Token) :
    readForms limit place.done place.levels (token :: rest) =
      readForms limit inner.done inner.levels rest := by
  simp only [Place.next, Option.map_eq_some_iff] at passed
  obtain ⟨passage, passed, rfl⟩ := passed
  have taken := take_of_not_full limit place token few room
  rw [passed] at taken
  rw [readForms, taken]
  cases passage with
  | complete expression => simp [Passage.progress, Place.move, Place.done, Place.levels]
  | within around => simp [Passage.progress, Place.move, Place.done, Place.levels]

theorem readForms_full {limit : Nat} {place : Place} {token : Token} (full : place.Full limit token)
    (behind : List Token) :
    readForms limit place.done place.levels (token :: behind) = .failed .recursion behind := by
  simp [readForms, take_of_full full]

theorem readForms_unexpected {limit : Nat} {place : Place} (room : ¬ place.Full limit .closing)
    (outside : ¬ place.InList) (behind : List Token) :
    readForms limit place.done place.levels (.closing :: behind) =
      .failed (.malformed .unexpectedClosing) behind := by
  have shallow : place.around.length < limit := Nat.lt_of_not_le fun deep =>
    room ⟨deep, fun _ => outside⟩
  rw [readForms, take_eq_start limit fun _ => outside, if_pos shallow]
  rfl

/-- Reading gets to every place the tokens lead to, unless it has to stop before for the depth. -/
theorem readForms_follow (limit : Nat) {place inner : Place} {passed : List Token}
    (few : ∀ token ∈ passed, token.FewDigits) (followed : place.follow passed = some inner) :
    (∀ rest, readForms limit place.done place.levels (passed ++ rest) =
      readForms limit inner.done inner.levels rest) ∨
    ∃ middle front token behind, passed = front ++ token :: behind ∧
      place.follow front = some middle ∧
      middle.Full limit token ∧
      ∀ rest, readForms limit place.done place.levels (passed ++ rest) =
        .failed .recursion (behind ++ rest) := by
  -- on the tokens: if there is no room for the first one, reading stops right there
  induction passed generalizing place with
  | nil =>
      cases followed
      exact .inl fun rest => rfl
  | cons token others ih =>
      simp only [Place.follow, Option.bind_eq_some_iff] at followed
      obtain ⟨second, first, followed⟩ := followed
      by_cases full : place.Full limit token
      · exact .inr ⟨place, [], token, others, rfl, rfl, full, fun rest => readForms_full full _⟩
      · have step := readForms_next (few token List.mem_cons_self) full first
        rcases ih (fun other member => few other (.tail token member)) followed with
          reaches | ⟨middle, front, last, behind, rfl, reached, deep, stops⟩
        · exact .inl fun rest => (step _).trans (reaches rest)
        · refine .inr ⟨middle, token :: front, last, behind, rfl, ?_, deep, fun rest =>
          (step _).trans (stops rest)⟩
          rw [Place.follow, first, Option.bind_some, reached]

theorem readForms_place (limit : Nat) (place : Place) (rest : List Token)
    (few : ∀ token ∈ place.tokens, token.FewDigits)
    (room : ¬ TooDeep limit (place.tokens ++ rest)) :
    readForms limit [] [] (place.tokens ++ rest) = readForms limit place.done place.levels
      rest := by
  rcases readForms_follow limit few (Place.follow_start_tokens place) with
    reaches | ⟨middle, front, token, behind, split, reached, deep, -⟩
  · exact reaches rest
  · refine absurd ⟨middle, token, behind ++ rest, ?_, deep⟩ room
    rw [split, (Place.follow_start_iff front middle).mp reached, List.append_assoc,
      List.cons_append]

theorem readForms_of_tooDeep (limit : Nat) (tokens : List Token)
    (few : ∀ token ∈ tokens, token.FewDigits) (deep : TooDeep limit tokens) :
    ∃ unread, readForms limit [] [] tokens = .failed .recursion unread := by
  obtain ⟨place, token, behind, rfl, full⟩ := deep
  have few_passed : ∀ token ∈ place.tokens, token.FewDigits :=
    fun token member => few token (List.mem_append_left _ member)
  rcases readForms_follow limit few_passed (Place.follow_start_tokens place) with
    reaches | ⟨_, _, _, _, _, _, _, stops⟩
  · exact ⟨_, (reaches _).trans (readForms_full full behind)⟩
  · exact ⟨_, stops _⟩

theorem readForms_row_tokens (limit : Nat) (row : List Expression)
    (few : ∀ token ∈ rowTokens row, token.FewDigits) (room : ¬ TooDeep limit (rowTokens row)) :
    readForms limit [] [] (rowTokens row) = .ranOut (row.map Expression.value) [] := by
  have reached := readForms_place limit ⟨row, []⟩ [] (by simpa [Place.tokens] using few)
    (by simpa [Place.tokens] using room)
  simpa [Place.tokens, Place.done, Place.levels, readForms] using reached

theorem readForms_eq_readForm (limit : Nat) (done : List Value) (levels : List Level)
    (tokens : List Token) :
    readForms limit done levels tokens =
      match readForm limit levels tokens with
      | .form value rest => readForms limit (value :: done) [] rest
      | .failed failure rest => .failed failure rest
      | .ranOut levels => .ranOut done.reverse levels := by
  induction tokens generalizing levels with
  | nil => rfl
  | cons token rest ih =>
      simp only [readForms, readForm]
      split
      · rfl
      · rfl
      · exact ih _

theorem readForm_append {limit : Nat} {levels : List Level} {tokens rest : List Token}
    {value : Value} (read : readForm limit levels tokens = .form value rest) (more : List Token) :
    readForm limit levels (tokens ++ more) = .form value (rest ++ more) := by
  induction tokens generalizing levels with
  | nil => cases read
  | cons token behind ih =>
      simp only [readForm, List.cons_append] at read ⊢
      split at read
      · cases read
      · cases read
        rfl
      · exact ih read

theorem readForm_append_failed {limit : Nat} {levels : List Level} {tokens rest : List Token}
    {failure : Failure} (read : readForm limit levels tokens = .failed failure rest)
    (more : List Token) :
    readForm limit levels (tokens ++ more) = .failed failure (rest ++ more) := by
  induction tokens generalizing levels with
  | nil => cases read
  | cons token behind ih =>
      simp only [readForm, List.cons_append] at read ⊢
      split at read
      · cases read
        rfl
      · cases read
      · exact ih read

theorem readForm_sound {limit : Nat} (place : Place) {tokens rest : List Token} {value : Value}
    (few : ∀ token ∈ tokens, token.FewDigits)
    (read : readForm limit place.levels tokens = .form value rest) :
    ∃ expression passed, tokens = passed ++ rest ∧ value = expression.value ∧
      place.follow passed = some ⟨place.before ++ [expression], []⟩ := by
  -- on the tokens, each of which moves the place
  induction tokens generalizing place with
  | nil => cases read
  | cons token behind ih =>
      have few_behind : ∀ token ∈ behind, token.FewDigits :=
        fun other member => few other (.tail token member)
      by_cases full : place.Full limit token
      · rw [readForm, take_of_full full] at read
        cases read
      · rw [readForm, take_of_not_full limit place token (few token List.mem_cons_self)
        full] at read
        cases passed : Enclosure.pass place.around token with
        | none =>
            rw [passed] at read
            cases read
        | some passage =>
            rw [passed] at read
            cases passage with
            | complete expression =>
                cases read
                exact ⟨expression, [token], rfl, rfl, by
                  simp [Place.follow, Place.next, passed, Place.move]⟩
            | within around =>
                obtain ⟨expression, front, rfl, rfl, followed⟩ :=
                  ih ⟨place.before, around⟩ few_behind read
                refine ⟨expression, token :: front, rfl, rfl, ?_⟩
                simpa [Place.follow, Place.next, passed, Place.move] using followed

theorem readForm_tokens {limit : Nat} {tokens rest : List Token} {value : Value}
    (few : ∀ token ∈ tokens, token.FewDigits) (read : readForm limit [] tokens = .form value rest) :
    ∃ expression : Expression, tokens = expression.tokens ++ rest ∧ value = expression.value := by
  obtain ⟨expression, passed, rfl, rfl, followed⟩ := readForm_sound Place.start few read
  have reached := (Place.follow_start_iff _ _).mp followed
  refine ⟨expression, ?_, rfl⟩
  simp [reached, Place.tokens, Place.start]

theorem readForm_whole {limit : Nat} {expression : Expression} {rest : List Token} {value : Value}
    (few : ∀ token ∈ expression.tokens, token.FewDigits)
    (read : readForm limit [] expression.tokens = .form value rest) :
      value = expression.value ∧ rest = [] := by
  obtain ⟨other, split, rfl⟩ := readForm_tokens few read
  obtain rfl := eq_of_prefix_tokens ⟨rest, split.symm⟩
  exact ⟨rfl, by simpa using split⟩

theorem readForm_expression {limit : Nat} {expression : Expression}
    (few : ∀ token ∈ expression.tokens, token.FewDigits)
    (room : ¬ TooDeep limit expression.tokens) :
    readForm limit [] expression.tokens = .form expression.value [] := by
  -- reading all forms reads this one first, so it can not fail or run out of tokens
  have together := readForms_eq_readForm limit [] [] expression.tokens
  have all := readForms_row_tokens limit [expression] (by simpa using few) (by simpa using room)
  rw [rowTokens_cons, rowTokens_nil, List.append_nil] at all
  rw [all] at together
  cases read : readForm limit [] expression.tokens with
  | form value rest =>
      obtain ⟨rfl, rfl⟩ := readForm_whole few read
      rfl
  | failed failure rest =>
      rw [read] at together
      cases together
  | ranOut levels =>
      rw [read] at together
      cases together

theorem readForm_of_tooDeep {limit : Nat} {expression : Expression}
    (few : ∀ token ∈ expression.tokens, token.FewDigits) (deep : TooDeep limit expression.tokens) :
    ∃ unread, readForm limit [] expression.tokens = .failed .recursion unread := by
  have together := readForms_eq_readForm limit [] [] expression.tokens
  obtain ⟨unread, failed⟩ := readForms_of_tooDeep limit _ few deep
  rw [failed] at together
  cases read : readForm limit [] expression.tokens with
  | form value rest =>
      obtain ⟨rfl, rfl⟩ := readForm_whole few read
      rw [read] at together
      cases together
  | failed failure rest =>
      rw [read] at together
      cases together
      exact ⟨_, rfl⟩
  | ranOut levels =>
      rw [read] at together
      cases together

end Reader

/-! Streams -/

def IsSyntaxError (answer : Except Failure (List Value)) (text : String) : Prop :=
  ∃ fault, answer = .error (.malformed fault) ∧
    ∀ store, (Failure.malformed fault).message? store = some text

theorem IsSyntaxError.unique {answer : Except Failure (List Value)} {text other : String}
    (first : IsSyntaxError answer text) (second : IsSyntaxError answer other) : text = other := by
  obtain ⟨fault, rfl, message⟩ := first
  obtain ⟨fault', same, message'⟩ := second
  cases same
  exact Option.some.inj ((message {}).symm.trans (message' {}))

theorem IsSyntaxError.not_ok {answer : Except Failure (List Value)} {text : String}
    {forms : List Value} (error : IsSyntaxError answer text) : answer ≠ .ok forms := by
  obtain ⟨fault, rfl, -⟩ := error
  simp

def Flaw.message : Flaw → String
  | openList => "Unmatched '('"
  | bareQuote => "Unexpected end of input"
  | strayClosing => "Unexpected ')'"

theorem Flaw.message_injective {flaw other : Flaw} (same : flaw.message = other.message) :
    flaw = other := by
  cases flaw <;> cases other <;> first | rfl | exact absurd same (by decide)

structure DecidedByGrammar (tokens : List Token) (answer : Except Failure (List Value))
    (after : TokenStream) :
    Prop where
  accepted : ∀ forms, answer = .ok forms ↔ ∃ row, tokens = rowTokens row ∧
    forms = row.map Expression.value
  consumed : ∀ forms, answer = .ok forms → after.waiting = []
  flawed : ∀ flaw : Flaw, IsSyntaxError answer flaw.message ↔ flaw.In tokens
  otherwise : ∀ failure, answer = .error failure → ∃ flaw : Flaw, IsSyntaxError answer flaw.message

namespace TokenStream

open Reader

section

variable {limit : Nat} {stream : TokenStream} (no_fault : stream.fault = none)
  (few : ∀ token ∈ stream.waiting, token.FewDigits) (room : ¬ TooDeep limit stream.waiting)

include no_fault few room

theorem parseAll_place (place : Place) (reached : stream.waiting = place.tokens) :
    stream.parseAll limit =
      (match place.levels with
        | [] => .ok (place.before.map Expression.value)
        | levels => .error (ending levels), ended) := by
  have passed := readForms_place limit place [] (by rwa [reached] at few)
    (by rwa [List.append_nil, ← reached])
  rw [List.append_nil, ← reached] at passed
  rw [parseAll, passed]
  simp only [readForms, no_fault, Place.done, List.reverse_reverse]
  split <;> simp_all

theorem parseAll_row {row : List Expression} (whole : stream.waiting = rowTokens row) :
    stream.parseAll limit = (.ok (row.map Expression.value), ended) :=
  parseAll_place no_fault few room ⟨row, []⟩ (by simpa [Place.tokens] using whole)

theorem parseAll_flaw {flaw : Flaw} (found : flaw.In stream.waiting) :
    IsSyntaxError (stream.parseAll limit).1 flaw.message := by
  cases flaw with
  | openList =>
      obtain ⟨place, reached, items, outer, around⟩ := found
      refine ⟨.unmatchedOpening, ?_, fun store => rfl⟩
      simp [parseAll_place no_fault few room place reached, Place.levels, around, Enclosure.level,
        ending]
  | bareQuote =>
      obtain ⟨place, reached, outer, around⟩ := found
      refine ⟨.endOfInput, ?_, fun store => rfl⟩
      simp [parseAll_place no_fault few room place reached, Place.levels, around, Enclosure.level,
        ending]
  | strayClosing =>
      obtain ⟨place, behind, reached, outside⟩ := found
      have shallow : ¬ place.Full limit .closing := fun full =>
        room ⟨place, .closing, behind, reached, full⟩
      have passed := readForms_place limit place (.closing :: behind)
        (fun token member => few token (reached ▸ List.mem_append_left _ member))
          (by rwa [← reached])
      rw [readForms_unexpected shallow outside, ← reached] at passed
      refine ⟨.unexpectedClosing, ?_, fun store => rfl⟩
      rw [parseAll, passed]

theorem parseAll_decided :
    DecidedByGrammar stream.waiting (stream.parseAll limit).1 (stream.parseAll limit).2 := by
  -- a row of expressions is read, and each flaw has its own error
  rcases row_or_flaw stream.waiting with ⟨row, whole⟩ | ⟨flaw, found⟩
  · have read := parseAll_row no_fault few room whole
    constructor
    · intro forms
      rw [read]
      constructor
      · rintro ⟨⟩
        exact ⟨row, whole, rfl⟩
      · rintro ⟨other, whole', rfl⟩
        rw [rowTokens_injective (whole.symm.trans whole')]
    · intro forms _
      rw [read]
      rfl
    · intro flaw
      constructor
      · intro error
        exact absurd (congrArg Prod.fst read) error.not_ok
      · exact parseAll_flaw no_fault few room
    · intro failure failed
      rw [read] at failed
      cases failed
  · have error := parseAll_flaw no_fault few room found
    constructor
    · intro forms
      constructor
      · intro read
        exact absurd read error.not_ok
      · rintro ⟨row, whole, rfl⟩
        exact congrArg Prod.fst (parseAll_row no_fault few room whole)
    · intro forms read
      exact absurd read error.not_ok
    · intro other
      constructor
      · intro error'
        rwa [Flaw.message_injective (error'.unique error)]
      · exact parseAll_flaw no_fault few room
    · intro failure _
      exact ⟨flaw, error⟩

end

theorem parseAll_of_tooDeep {limit : Nat} {stream : TokenStream}
    (few : ∀ token ∈ stream.waiting, token.FewDigits) (deep : TooDeep limit stream.waiting) :
    (stream.parseAll limit).1 = .error .recursion := by
  obtain ⟨unread, failed⟩ := readForms_of_tooDeep limit _ few deep
  rw [parseAll, failed]

theorem parseForm_of_tooDeep {limit : Nat} {stream : TokenStream} {expression : Expression}
    {rest : List Token} (few : ∀ token ∈ stream.waiting, token.FewDigits)
    (split : stream.waiting = expression.tokens ++ rest) (deep : TooDeep limit expression.tokens) :
    (stream.parseForm limit).1 = .error .recursion := by
  have few_expression : ∀ token ∈ expression.tokens, token.FewDigits :=
    fun token member => few token (split ▸ List.mem_append_left _ member)
  obtain ⟨unread, failed⟩ := readForm_of_tooDeep few_expression deep
  rw [parseForm, split, readForm_append_failed failed rest]

/-- A form that is read takes the tokens of one expression away, and leaves the next one in place.
-/
theorem parseForm_eq_ok_iff {limit : Nat} {stream after : TokenStream} {value : Value}
    (few : ∀ token ∈ stream.waiting, token.FewDigits) :
    stream.parseForm limit = (.ok value, after) ↔
      ∃ (expression : Expression) (rest : List Token), stream.waiting = expression.tokens ++ rest ∧
        ¬ TooDeep limit expression.tokens ∧ value = expression.value ∧
          after = stream.withTokens rest := by
  constructor
  · intro parsed
    cases read : readForm limit [] stream.waiting with
    | form value' rest =>
        obtain ⟨expression, split, rfl⟩ := readForm_tokens few read
        have room : ¬ TooDeep limit expression.tokens := by
          intro deep
          have failed := parseForm_of_tooDeep few split deep
          rw [parsed] at failed
          cases failed
        simp only [parseForm, read, Prod.mk.injEq, Except.ok.injEq] at parsed
        obtain ⟨rfl, rfl⟩ := parsed
        exact ⟨expression, rest, split, room, rfl, rfl⟩
    | failed failure rest => simp [parseForm, read] at parsed
    | ranOut levels => simp [parseForm, read] at parsed
  · rintro ⟨expression, rest, split, room, rfl, rfl⟩
    have few_expression : ∀ token ∈ expression.tokens, token.FewDigits :=
      fun token member => few token (split ▸ List.mem_append_left _ member)
    have read := readForm_append (readForm_expression few_expression room) rest
    rw [parseForm, split, read, List.nil_append]

end TokenStream

/-- The parser accepts its grammar: all forms of a stream are read just if its tokens are a row of
expressions, which is then the only one; else the first place where they can not go on decides which
error it is. One form takes the one expression away that the tokens start with. Forms inside too
many open lists and quotes are not read. -/
theorem parser_accepts_grammar (limit : Nat) (stream : TokenStream) (no_fault : stream.fault = none)
    (few : ∀ token ∈ stream.waiting, token.FewDigits) :
    (¬ TooDeep limit stream.waiting →
      DecidedByGrammar stream.waiting (stream.parseAll limit).1 (stream.parseAll limit).2) ∧
    (TooDeep limit stream.waiting → (stream.parseAll limit).1 = .error .recursion) ∧
    (∀ row other, stream.waiting = rowTokens row → stream.waiting = rowTokens other → row = other) ∧
    (∀ value after, stream.parseForm limit = (.ok value, after) ↔
      ∃ (expression : Expression) (rest : List Token), stream.waiting = expression.tokens ++ rest ∧
        ¬ TooDeep limit expression.tokens ∧ value = expression.value ∧
          after = stream.withTokens rest) ∧
    (∀ (expression : Expression) (rest : List Token), stream.waiting = expression.tokens ++ rest →
      (TooDeep limit expression.tokens → (stream.parseForm limit).1 = .error .recursion) ∧
      ∀ other : Expression, other.tokens <+: stream.waiting → other = expression) := by
  refine ⟨fun room => TokenStream.parseAll_decided no_fault few room,
    fun deep => TokenStream.parseAll_of_tooDeep few deep, ?_, fun value after =>
      TokenStream.parseForm_eq_ok_iff few, ?_⟩
  · intro row other whole whole'
    exact rowTokens_injective (whole.symm.trans whole')
  · intro expression rest split
    constructor
    · exact TokenStream.parseForm_of_tooDeep few split
    · exact fun other starts => eq_of_prefixes starts ⟨rest, split.symm⟩

theorem Place.depth_le_length (place : Place) : place.around.length ≤ place.tokens.length := by
  obtain ⟨before, around⟩ := place
  simp only [tokens, List.length_append]
  suffices opened : around.length ≤ (around.reverse.flatMap Enclosure.tokens).length by omega
  induction around with
  | nil => simp
  | cons enclosure outer ih =>
      have positive : 0 < enclosure.tokens.length := by cases enclosure <;> simp [Enclosure.tokens]
      simp only [List.reverse_cons, List.flatMap_append, List.length_append, List.flatMap_singleton,
        List.length_cons]
      omega

/-- Tokens are not too deep if there are no more of them than there may be lists and quotes open. -/
theorem not_tooDeep_of_length {limit : Nat} {tokens : List Token} (few : tokens.length ≤ limit) :
    ¬ TooDeep limit tokens := by
  rintro ⟨place, token, behind, rfl, deep, -⟩
  have short := place.depth_le_length
  simp only [List.length_append, List.length_cons] at few
  omega

/-- The stream of `( ' x )` after a look at its first token. -/
def quotedInList : TokenStream := ⟨some .opening, [.quote, .symbol ['x'], .closing], none⟩

theorem parser_accepts_grammar_quoted :
    quotedInList.fault = none ∧ (∀ token ∈ quotedInList.waiting, token.FewDigits) ∧
      (quotedInList.parseAll readLimit).1 = .ok [.list [quoteForm (.sym "x")]] := by
  have few : ∀ token ∈ quotedInList.waiting, token.FewDigits := by
    rintro token member text numeral rfl parsed
    have word : text = ['x'] := by simpa [quotedInList, TokenStream.waiting] using member
    subst word
    cases parsed
  have room : ¬ TooDeep readLimit quotedInList.waiting := not_tooDeep_of_length (by decide)
  refine ⟨rfl, few, ?_⟩
  refine (((parser_accepts_grammar readLimit quotedInList rfl few).1 room).accepted _).mpr
    ⟨[.list [.quoted (.symbol ['x'])]], ?_, ?_⟩
  · simp [quotedInList, TokenStream.waiting, Expression.tokens]
  · have symbol : Expression.valueOfSymbol ['x'] = .sym "x" := rfl
    simp [Expression.value, symbol]

def quotedSymbol : Nat → Expression
  | 0 => .symbol ['x']
  | count + 1 => .quoted (quotedSymbol count)

theorem tokens_quotedSymbol (count : Nat) :
    (quotedSymbol count).tokens = List.replicate count .quote ++ [.symbol ['x']] := by
  induction count with
  | zero => simp [quotedSymbol, Expression.tokens]
  | succ count ih => simp [quotedSymbol, Expression.tokens, ih, List.replicate_succ]

theorem tokens_replicate_quote (count : Nat) :
    (⟨[], List.replicate count .quote⟩ : Place).tokens = List.replicate count .quote := by
  induction count with
  | zero => rfl
  | succ count ih =>
      simp only [Place.tokens, List.reverse_replicate, rowTokens_nil, List.nil_append] at ih ⊢
      rw [List.replicate_succ, List.flatMap_cons, ih, List.replicate_succ]
      rfl

/-- An expression of the grammar that is not accepted: a symbol behind as many quotes as may be
open. -/
theorem deep_quotes_not_parsed :
    (∀ token ∈ (quotedSymbol readLimit).tokens, token.FewDigits) ∧
    (TokenStream.parseAll readLimit ⟨none, (quotedSymbol readLimit).tokens, none⟩).1 =
      .error .recursion := by
  have few : ∀ token ∈ (quotedSymbol readLimit).tokens, token.FewDigits := by
    rintro token member text numeral rfl parsed
    have word : text = ['x'] := by simpa [tokens_quotedSymbol] using member
    subst word
    cases parsed
  have deep : TooDeep readLimit (quotedSymbol readLimit).tokens := by
    refine ⟨⟨[], List.replicate readLimit .quote⟩, .symbol ['x'], [], ?_, ?_, by simp⟩
    · rw [tokens_quotedSymbol, tokens_replicate_quote]
    · simp
  exact ⟨few, TokenStream.parseAll_of_tooDeep few deep⟩

end ThunkLisp
