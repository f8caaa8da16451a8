import ThunkLisp.Token

/-!
Tokens laid out in a text. Between two tokens there may be blanks and comments, and between two
symbols there has to be something. However they are laid out, lexing the text gives the tokens back.
-/

namespace ThunkLisp

open Text

/-- What may stand between tokens: blanks, and comments with the line feed that ends each. -/
inductive Gap : List Char → Prop where
  | nil : Gap []
  | blank {c : Char} {text : List Char} (blank : isBlank c = true) (behind : Gap text) :
      Gap (c :: text)
  | comment {words text : List Char} (oneLine : '\n' ∉ words) (behind : Gap text) :
      Gap (';' :: (words ++ '\n' :: text))

/-- Tokens in a text, with a gap behind each that is not empty where two symbols would meet. -/
inductive LaidOut : List Token → List Char → Prop where
  | nil : LaidOut [] []
  | cons {token : Token} {tokens : List Token} {gap text : List Char} (isGap : Gap gap)
      (apart : ∀ word next others, token = .symbol word → tokens = .symbol next :: others →
        gap ≠ [])
      (behind : LaidOut tokens text) : LaidOut (token :: tokens) (token.text ++ (gap ++ text))

/-- A token that its text fixes: the text of a symbol is not empty and holds symbol characters only,
and a string literal ends at its closing quote and not before. -/
def Token.IsWhole : Token → Prop
  | .quote | .opening | .closing => True
  | .string body => ∀ rest, Token.stringBody? (body ++ '"' :: rest) = some (body, rest)
  | .symbol text => text ≠ [] ∧ ∀ c ∈ text, Token.isSymbolChar c = true

def EndsSymbol (text : List Char) : Prop := ∀ c ∈ text.head?, Token.isSymbolChar c = false

theorem lex_blank {c : Char} (blank : isBlank c = true) (rest : List Char) :
    lex (c :: rest) = lex rest := by
  rw [lex]
  simp [blank]

theorem lex_comment {words : List Char} (oneLine : '\n' ∉ words) (rest : List Char) :
    lex (';' :: (words ++ '\n' :: rest)) = lex rest := by
  have words_dropped : (words ++ '\n' :: rest).dropWhile (· != '\n') = '\n' :: rest := by
    rw [List.dropWhile_append_of_pos]
    · simp
    · intro c member
      simp only [bne_iff_ne]
      exact fun same => oneLine (same ▸ member)
  rw [lex]
  simp only [show isBlank ';' = false by decide, Bool.false_eq_true, ↓reduceIte, words_dropped]
  exact lex_blank (by decide) rest

theorem lex_gap {gap : List Char} (isGap : Gap gap) (rest : List Char) :
    lex (gap ++ rest) = lex rest := by
  induction isGap with
  | nil => rfl
  | blank blank _ ih => rw [List.cons_append, lex_blank blank, ih]
  | comment oneLine _ ih =>
      rw [List.cons_append, List.append_assoc, List.cons_append, lex_comment oneLine, ih]

theorem lex_symbol {c : Char} {word rest : List Char}
    (among : ∀ d ∈ c :: word, Token.isSymbolChar d = true) (ends : EndsSymbol rest) :
    lex (c :: (word ++ rest)) = (lex rest).push (.symbol (c :: word)) := by
  have first := among c List.mem_cons_self
  have others : ∀ d ∈ word, Token.isSymbolChar d = true := fun d member => among d (.tail c member)
  have stops : rest.takeWhile Token.isSymbolChar = [] ∧
      rest.dropWhile Token.isSymbolChar = rest := by
    cases rest with
    | nil => exact ⟨rfl, rfl⟩
    | cons d rest => simp [ends d rfl]
  simp only [Token.isSymbolChar, Bool.and_eq_true, Bool.not_eq_true', bne_iff_ne] at first
  obtain ⟨⟨⟨⟨⟨solid, no_opening⟩, no_closing⟩, no_quote⟩, no_string⟩, no_comment⟩ := first
  rw [lex]
  simp only [solid, no_comment, no_quote, no_opening, no_closing, no_string, Bool.false_eq_true,
    ↓reduceIte]
  rw [List.takeWhile_append_of_pos others, List.dropWhile_append_of_pos others, stops.1, stops.2,
    List.append_nil]

theorem lex_string {body : List Char} (rest : List Char)
    (closed : Token.stringBody? (body ++ '"' :: rest) = some (body, rest)) :
    lex ('"' :: (body ++ '"' :: rest)) = (lex rest).push (.string body) := by
  rw [lex]
  simp only [show isBlank '"' = false by decide, Bool.false_eq_true, ↓reduceIte, Char.reduceEq]
  split
  · next open_ended => simp [closed] at open_ended
  · next found =>
      rw [closed] at found
      cases found
      rfl

theorem lex_token {token : Token} (whole : token.IsWhole) {rest : List Char}
    (ends : ∀ word, token = .symbol word → EndsSymbol rest) :
    lex (token.text ++ rest) = (lex rest).push token := by
  cases token with
  | quote => rw [Token.text, List.singleton_append, lex]; simp [show isBlank '\'' = false by decide]
  | opening => rw [Token.text, List.singleton_append, lex]; simp [show isBlank '(' = false by
      decide]
  | closing => rw [Token.text, List.singleton_append, lex]; simp [show isBlank ')' = false by
      decide]
  | string body =>
      have layout : (Token.string body).text ++ rest = '"' :: (body ++ '"' :: rest) := by
        simp [Token.text]
      rw [layout]
      exact lex_string rest (whole rest)
  | symbol word =>
      cases word with
      | nil => exact absurd rfl whole.1
      | cons c word => exact lex_symbol whole.2 (ends _ rfl)

theorem Gap.endsSymbol {gap : List Char} (isGap : Gap gap) (some : gap ≠ []) (rest : List Char) :
    EndsSymbol (gap ++ rest) := by
  cases isGap with
  | nil => exact absurd rfl some
  | blank blank _ =>
      intro c first
      cases first
      simp [Token.isSymbolChar, blank]
  | comment _ _ =>
      intro c first
      cases first
      rfl

/-- Behind a symbol no other symbol goes on, since the gap is not empty, the next token is no symbol
or the text is at its end. -/
theorem LaidOut.endsSymbol {tokens : List Token} {gap text : List Char} (isGap : Gap gap)
    (apart : ∀ next others, tokens = .symbol next :: others → gap ≠ [])
    (behind : LaidOut tokens text) :
    EndsSymbol (gap ++ text) := by
  by_cases empty : gap = []
  · subst empty
    cases behind with
    | nil =>
        intro c first
        cases first
    | @cons token others gap' text' _ _ _ =>
        cases token with
        | symbol word => exact absurd rfl (apart word others rfl)
        | _ =>
            intro c first
            cases first
            rfl
  · exact isGap.endsSymbol empty text

/-- Lexing undoes the layout. -/
theorem lex_laidOut {tokens : List Token} {text : List Char} (laidOut : LaidOut tokens text)
    (whole : ∀ token ∈ tokens, token.IsWhole) : lex text = ⟨tokens, []⟩ := by
  induction laidOut with
  | nil => rw [lex]
  | @cons token tokens gap text isGap apart behind ih =>
      have ends : ∀ word, token = .symbol word → EndsSymbol (gap ++ text) := fun word same =>
        LaidOut.endsSymbol isGap (fun next others => apart word next others same) behind
      rw [lex_token (whole token List.mem_cons_self) ends, lex_gap isGap,
        ih fun other member => whole other (.tail token member)]
      rfl

/-- The layout with one space behind every token. -/
def spaced (tokens : List Token) : List Char := tokens.flatMap fun token => token.text ++ [' ']

theorem laidOut_spaced (tokens : List Token) : LaidOut tokens (spaced tokens) := by
  induction tokens with
  | nil => exact .nil
  | cons token tokens ih =>
      have layout : spaced (token :: tokens) = token.text ++ ([' '] ++ spaced tokens) := by
        simp [spaced]
      rw [layout]
      exact .cons (.blank (by decide) .nil) (by simp) ih

end ThunkLisp
