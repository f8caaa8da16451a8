import ThunkLisp.Message
import ThunkLisp.Proofs.StringUnits

/-!
Texts and their tokens. Lexing splits a text into blanks, comments and tokens and leaves nothing
out, and any such split has the tokens that lexing finds. It stops in one case: at a double quote
outside of comments and strings that opens a string without an end. The tokens before it are those
of the text before it.
-/

namespace ThunkLisp

open Text StringUnit

/-- The texts of the kinds of tokens: a string literal is units between double quotes, a symbol is
at least one symbol character, and of the others there is one text each. -/
def Token.IsShaped : Token → Prop
  | .quote | .opening | .closing => True
  | .string body => ∃ units, rowText units = body
  | .symbol text => text ≠ [] ∧ ∀ c ∈ text, Token.isSymbolChar c = true

/-- Blanks, comments and the tokens, in this order, make up the text as far as the rest. A comment
goes on to a line feed or to the end, and behind a symbol no symbol character follows. -/
inductive Tiles (rest : List Char) : List Token → List Char → Prop where
  | done : Tiles rest [] rest
  | blank {c : Char} {tokens : List Token} {text : List Char} (blank : isBlank c = true)
      (behind : Tiles rest tokens text) : Tiles rest tokens (c :: text)
  | comment {words : List Char} {tokens : List Token} {text : List Char} (oneLine : '\n' ∉ words)
      (ended : ∀ c ∈ text.head?, c = '\n') (behind : Tiles rest tokens text) :
      Tiles rest tokens (';' :: (words ++ text))
  | token {token : Token} {tokens : List Token} {text : List Char} (shaped : token.IsShaped)
      (maximal : ∀ word, token = .symbol word → EndsSymbol text) (behind : Tiles rest tokens text) :
      Tiles rest (token :: tokens) (token.text ++ text)

inductive Region where
  | outside
  | comment
  | string
  /-- in a string, behind a backslash that takes the next character with it -/
  | escaped
  deriving DecidableEq

namespace Region

def next : Region → Char → Region
  | .outside, c => if c = ';' then .comment else if c = '"' then .string else .outside
  | .comment, c => if c = '\n' then .outside else .comment
  | .string, c => if c = '"' then .outside else if c = '\\' then .escaped else .string
  | .escaped, _ => .string

def past (region : Region) (text : List Char) : Region := text.foldl next region

end Region

/-- No double quote closes a string that this text is inside of. -/
def Unclosed (text : List Char) : Prop := ∀ units after, text ≠ rowText units ++ '"' :: after

/-- A double quote at this position, in no comment and no string, opens a string that is not closed.
-/
structure OpensUnclosed (source : List Char) (position : Nat) : Prop where
  quote : source[position]? = some '"'
  outside : Region.outside.past (source.take position) = .outside
  unclosed : Unclosed (source.drop (position + 1))

/-! Lexing -/

theorem Token.IsShaped.isWhole {token : Token} (shaped : token.IsShaped) : token.IsWhole := by
  cases token with
  | string body =>
      obtain ⟨units, rfl⟩ := shaped
      exact stringBody?_rowText units
  | symbol text => exact shaped
  | _ => trivial

theorem lex_comment_ended {words text : List Char} (oneLine : '\n' ∉ words)
    (ended : ∀ c ∈ text.head?, c = '\n') :
    lex (';' :: (words ++ text)) = lex text := by
  cases text with
  | nil =>
      have words_dropped : words.dropWhile (· != '\n') = [] := by
        rw [List.dropWhile_eq_nil_iff]
        intro c member
        exact bne_iff_ne.mpr fun same => oneLine (same ▸ member)
      rw [List.append_nil, show lex [] = ⟨[], []⟩ by rw [lex], lex]
      simp only [show isBlank ';' = false by decide, words_dropped, Bool.false_eq_true, ↓reduceIte]
      rw [lex]
  | cons c text =>
      obtain rfl : c = '\n' := ended c rfl
      rw [lex_comment oneLine, lex_blank (by decide)]

theorem Tiles.lex_eq {rest : List Char} {tokens : List Token} {text : List Char}
    (tiles : Tiles rest tokens text) :
    lex text = ⟨tokens ++ (lex rest).tokens, (lex rest).unread⟩ := by
  induction tiles with
  | done => rfl
  | blank blank _ ih => rw [lex_blank blank, ih]
  | comment oneLine ended _ ih => rw [lex_comment_ended oneLine ended, ih]
  | token shaped maximal _ ih =>
      rw [lex_token shaped.isWhole maximal, ih]
      rfl

theorem unclosed_iff (text : List Char) : Unclosed text ↔ Token.stringBody? text = none := by
  constructor
  · intro unclosed
    cases found : Token.stringBody? text with
    | none => rfl
    | some split =>
        obtain ⟨⟨units, body⟩, whole⟩ := (stringBody?_eq_some_iff text split.1 split.2).mp found
        exact absurd (body ▸ whole) (unclosed units split.2)
  · rintro open_ended units after rfl
    rw [stringBody?_rowText] at open_ended
    cases open_ended

theorem lex_unclosed {rest : List Char} (unclosed : Unclosed rest) :
    lex ('"' :: rest) = ⟨[], '"' :: rest⟩ := by
  rw [lex]
  simp only [show isBlank '"' = false by decide, Bool.false_eq_true, ↓reduceIte, Char.reduceEq]
  split
  · rfl
  · next found =>
      rw [(unclosed_iff rest).mp unclosed] at found
      cases found

theorem Tiles.apart {rest : List Char} {token : Token} {tokens : List Token} {text : List Char}
    (shaped : token.IsShaped) (no_symbol : ∀ word, token ≠ .symbol word)
    (behind : Tiles rest tokens text) :
    Tiles rest (token :: tokens) (token.text ++ text) :=
  .token shaped (fun word same => absurd same (no_symbol word)) behind

/-- Lexing tiles the text as far as it goes, and it goes to the end or to a string that is not
closed. -/
theorem lex_tiles (source : List Char) :
    Tiles (lex source).unread (lex source).tokens source ∧
      ((lex source).unread = [] ∨ ∃ rest, (lex source).unread = '"' :: rest ∧ Unclosed rest) := by
  fun_induction lex source with
  | case1 => exact ⟨.done, .inl rfl⟩
  | case2 c rest blank ih => exact ⟨.blank blank ih.1, ih.2⟩
  -- a comment ends at a line feed or with the text
  | case3 rest _ ih =>
      have words : '\n' ∉ rest.takeWhile (· != '\n') := fun member => by
        simpa using List.mem_takeWhile_imp member
      have ended : ∀ c ∈ (rest.dropWhile (· != '\n')).head?, c = '\n' := by
        intro c first
        simpa [Option.mem_def.mp first] using List.head?_dropWhile_not (· != '\n') rest
      have tiles := Tiles.comment words ended ih.1
      rw [List.takeWhile_append_dropWhile] at tiles
      exact ⟨tiles, ih.2⟩
  | case4 rest _ _ ih | case5 rest _ _ _ ih | case6 rest _ _ _ _ ih =>
      exact ⟨.apart trivial (by simp) ih.1, ih.2⟩
  | case7 rest open_ended => exact ⟨.done, .inr ⟨rest, rfl, (unclosed_iff rest).mpr open_ended⟩⟩
  | case8 rest body after found _ _ _ _ _ ih =>
      obtain ⟨shaped, rfl⟩ := (stringBody?_eq_some_iff ..).mp found
      have tiles : Tiles _ (.string body :: _) (Token.text (.string body) ++ after) :=
        .apart shaped (by simp) ih.1
      rw [Token.text, List.cons_append, List.cons_append, List.append_assoc] at tiles
      exact ⟨tiles, ih.2⟩
  -- a symbol goes on as far as it can, so none follows it at once
  | case9 c rest solid no_comment no_quote no_opening no_closing no_string ih =>
      have first : Token.isSymbolChar c = true := by
        simp [Token.isSymbolChar, solid, no_comment, no_quote, no_opening, no_closing, no_string]
      have among : ∀ d ∈ c :: rest.takeWhile Token.isSymbolChar, Token.isSymbolChar d = true := by
        intro d member
        rcases List.mem_cons.mp member with rfl | member
        · exact first
        · exact List.mem_takeWhile_imp member
      have ends : EndsSymbol (rest.dropWhile Token.isSymbolChar) := by
        intro d head
        simpa [Option.mem_def.mp head] using List.head?_dropWhile_not Token.isSymbolChar rest
      have tiles : Tiles _ (.symbol (c :: rest.takeWhile Token.isSymbolChar) :: _)
          (Token.text (.symbol (c :: rest.takeWhile Token.isSymbolChar)) ++ _) :=
        .token ⟨List.cons_ne_nil c _, among⟩ (fun _ _ => ends) ih.1
      rw [Token.text, List.cons_append, List.takeWhile_append_dropWhile] at tiles
      exact ⟨tiles, ih.2⟩

/-! Regions -/

namespace Region

theorem past_append (region : Region) (front back : List Char) :
    region.past (front ++ back) = (region.past front).past back := List.foldl_append

theorem past_blank {c : Char} (blank : isBlank c = true) (text : List Char) :
    outside.past (c :: text) = outside.past text := by
  have no_comment : c ≠ ';' := by
    rintro rfl
    exact absurd blank (by decide)
  have no_quote : c ≠ '"' := by
    rintro rfl
    exact absurd blank (by decide)
  rw [past, List.foldl_cons, next, if_neg no_comment, if_neg no_quote, past]

theorem past_words {words : List Char} (oneLine : '\n' ∉ words) :
    comment.past words = .comment := by
  induction words with
  | nil => rfl
  | cons c words ih =>
      have ordinary : c ≠ '\n' := fun same => oneLine (same ▸ List.mem_cons_self)
      have step : comment.next c = .comment := if_neg ordinary
      rw [past, List.foldl_cons, step]
      exact ih fun member => oneLine (.tail c member)

theorem past_comment {words : List Char} (oneLine : '\n' ∉ words) (text : List Char) :
    outside.past (';' :: (words ++ text)) = comment.past text := by
  have inside : outside.past (';' :: words) = .comment := past_words oneLine
  rw [← List.cons_append, past_append, inside]

theorem past_symbol {text : List Char} (among : ∀ c ∈ text, Token.isSymbolChar c = true) :
    outside.past text = .outside := by
  induction text with
  | nil => rfl
  | cons c text ih =>
      have step : outside.next c = .outside := by
        have first := among c List.mem_cons_self
        simp only [Token.isSymbolChar, Bool.and_eq_true, bne_iff_ne] at first
        simp [next, first]
      rw [past, List.foldl_cons, step]
      exact ih fun d member => among d (.tail c member)

theorem past_rowText (units : List StringUnit) : string.past (rowText units) = .string := by
  induction units with
  | nil => rfl
  | cons unit rest ih =>
      cases unit with
      | plain c no_quote no_backslash =>
          have step : string.next c = .string := by simp [next, no_quote, no_backslash]
          rw [rowText_plain, past, List.foldl_cons, step]
          exact ih
      | escape c => exact ih

theorem past_token {token : Token} (shaped : token.IsShaped) :
    outside.past token.text = .outside := by
  cases token with
  | string body =>
      obtain ⟨units, rfl⟩ := shaped
      have inside := past_rowText units
      rw [Token.text, past_append, ← List.singleton_append, past_append]
      change (string.past (rowText units)).past ['"'] = .outside
      rw [inside]
      rfl
  | symbol text => exact past_symbol shaped.2
  | _ => rfl

theorem closed_of_past (text : List Char) :
    (string.past text = .outside → ∃ units after, text = rowText units ++ '"' :: after) ∧
      (escaped.past text = .outside → ∃ c units after, text = c ::
        (rowText units ++ '"' :: after)) := by
  induction text with
  | nil => exact ⟨nofun, nofun⟩
  | cons c text ih =>
      constructor
      · intro out
        rw [past, List.foldl_cons] at out
        by_cases quote : c = '"'
        · exact ⟨[], text, by rw [quote]; rfl⟩
        · by_cases backslash : c = '\\'
          · rw [show string.next c = .escaped by simp [next, backslash]] at out
            obtain ⟨d, units, after, rfl⟩ := ih.2 out
            exact ⟨.escape d :: units, after, by rw [backslash]; rfl⟩
          · rw [show string.next c = .string by simp [next, quote, backslash]] at out
            obtain ⟨units, after, rfl⟩ := ih.1 out
            exact ⟨.plain c quote backslash :: units, after, rfl⟩
      · intro out
        obtain ⟨units, after, rfl⟩ := ih.1 out
        exact ⟨c, units, after, rfl⟩

theorem past_unclosed {text : List Char} (unclosed : Unclosed text) :
    string.past text ≠ .outside := by
  intro out
  obtain ⟨units, after, whole⟩ := (closed_of_past text).1 out
  exact unclosed units after whole

end Region

/-! Cutting a text at a double quote -/

theorem EndsSymbol.front {front back : List Char} (ends : EndsSymbol (front ++ back)) :
    EndsSymbol front := by
  cases front with
  | nil => exact nofun
  | cons c front => exact ends

/-- What is tiled up to a double quote is tiled without it, and the quote is outside of comments and
strings. -/
theorem Tiles.front {rest : List Char} {tokens : List Token} {text : List Char}
    (tiles : Tiles ('"' :: rest) tokens text) :
    ∃ front, text = front ++ '"' :: rest ∧ Tiles [] tokens front ∧
      Region.outside.past front = .outside := by
  induction tiles with
  | done => exact ⟨[], rfl, .done, rfl⟩
  | @blank c _ _ blank _ ih =>
      obtain ⟨front, rfl, tiles, outside⟩ := ih
      exact ⟨c :: front, rfl, .blank blank tiles, (Region.past_blank blank front).trans outside⟩
  | @comment words _ _ oneLine ended _ ih =>
      obtain ⟨front, rfl, tiles, outside⟩ := ih
      -- the comment ends in front of the quote, at a line feed
      cases front with
      | nil => exact absurd (ended '"' rfl) (by decide)
      | cons c front =>
          obtain rfl : c = '\n' := ended c rfl
          exact ⟨';' :: (words ++ '\n' :: front), by
            simp, .comment oneLine (fun d first => ended d first) tiles,
            (Region.past_comment oneLine _).trans outside⟩
  | @token token _ _ shaped maximal _ ih =>
      obtain ⟨front, rfl, tiles, outside⟩ := ih
      refine ⟨token.text ++ front, by simp, .token shaped (fun word same =>
        (maximal word same).front) tiles, ?_⟩
      rw [Region.past_append, Region.past_token shaped]
      exact outside

theorem Tiles.before_quote {tokens : List Token} {front : List Char} (tiles : Tiles [] tokens front)
    (outside : Region.outside.past front = .outside) (rest : List Char) :
    Tiles ('"' :: rest) tokens (front ++ '"' :: rest) := by
  induction tiles with
  | done => exact .done
  | blank blank _ ih =>
      rw [Region.past_blank blank] at outside
      exact .blank blank (ih outside)
  | @comment words _ text oneLine ended _ ih =>
      rw [Region.past_comment oneLine] at outside
      rw [List.cons_append, List.append_assoc]
      -- the comment is not open any more, so a line feed has ended it
      cases text with
      | nil => cases outside
      | cons c text =>
          obtain rfl : c = '\n' := ended c rfl
          exact .comment oneLine (fun d first => ended d first) (ih outside)
  | @token token _ text shaped maximal _ ih =>
      rw [Region.past_append, Region.past_token shaped] at outside
      rw [List.append_assoc]
      refine .token shaped (fun word same => ?_) (ih outside)
      cases text with
      | nil =>
          intro c first
          cases first
          rfl
      | cons c text => exact maximal word same

theorem tiles_of_outside {front : List Char} (outside : Region.outside.past front = .outside) :
    Tiles [] (lex front).tokens front := by
  obtain ⟨tiles, whole | ⟨rest, unread, unclosed⟩⟩ := lex_tiles front
  · rwa [whole] at tiles
  · -- the text would end in a string
    rw [unread] at tiles
    obtain ⟨before, rfl, -, until_quote⟩ := tiles.front
    rw [Region.past_append, until_quote] at outside
    exact absurd outside (Region.past_unclosed unclosed)

/-! Where lexing stops -/

theorem Tiles.lex_whole {tokens : List Token} {text : List Char} (tiles : Tiles [] tokens text) :
    lex text = ⟨tokens, []⟩ := by
  rw [tiles.lex_eq, show lex [] = ⟨[], []⟩ by rw [lex], List.append_nil]

/-- Lexing stops at a string that is not closed, and has found what is before it. -/
theorem lex_append_unclosed {front rest : List Char}
    (outside : Region.outside.past front = .outside) (unclosed : Unclosed rest) :
    lex front = ⟨(lex front).tokens, []⟩ ∧ lex (front ++ '"' :: rest) =
      ⟨(lex front).tokens, '"' :: rest⟩ := by
  have tiles := tiles_of_outside outside
  refine ⟨tiles.lex_whole, ?_⟩
  rw [(tiles.before_quote outside rest).lex_eq, lex_unclosed unclosed, List.append_nil]

theorem OpensUnclosed.split {source : List Char} {position : Nat}
    (opens : OpensUnclosed source position) :
    source = source.take position ++ '"' :: source.drop (position + 1) ∧
      (source.take position).length = position := by
  obtain ⟨inside, here⟩ := List.getElem?_eq_some_iff.mp opens.quote
  constructor
  · rw [← here, List.getElem_cons_drop, List.take_append_drop]
  · rw [List.length_take, Nat.min_eq_left (Nat.le_of_lt inside)]

theorem opensUnclosed_append {front rest : List Char}
    (outside : Region.outside.past front = .outside) (unclosed : Unclosed rest) :
    OpensUnclosed (front ++ '"' :: rest) front.length :=
  ⟨by simp, by rwa [List.take_left], by rwa [← List.drop_drop, List.drop_left]⟩

theorem exists_opensUnclosed {source : List Char} (unread : (lex source).unread ≠ []) :
    ∃ position, OpensUnclosed source position := by
  obtain ⟨tiles, whole | ⟨rest, here, unclosed⟩⟩ := lex_tiles source
  · exact absurd whole unread
  · rw [here] at tiles
    obtain ⟨front, split, -, outside⟩ := tiles.front
    exact ⟨front.length, split ▸ opensUnclosed_append outside unclosed⟩

theorem fault?_eq_none_iff (source : List Char) (lexed : Lexed) :
    lexed.fault? source = none ↔ lexed.unread = [] := by
  rw [Lexed.fault?]
  cases lexed.unread <;> simp

theorem message?_unexpectedChar_quote (store : Store) (position : Nat) :
    Failure.message? store (.malformed (.unexpectedChar position '"')) =
      some ("Unexpected char at " ++ intText position ++ ": '\"'") := by
  have quoted : Text.quoted "\"" = "'\"'" := by decide +kernel
  have parts : ": " ++ "'\"'" = ": '\"'" := rfl
  simp [Failure.message?, Failure.message, Failure.phrases, Malformed.phrases, Phrase.text, quoted,
    parts, Except.map, Except.toOption, String.append_assoc]

theorem fault?_of_unread (front : List Char) {rest : List Char} {lexed : Lexed}
    (unread : lexed.unread = '"' :: rest) :
    lexed.fault? (front ++ '"' :: rest) = some (.malformed (.unexpectedChar front.length '"')) := by
  simp [Lexed.fault?, unread]

/-- A source text is split into tokens just if it is blanks, comments and these tokens and nothing
else. It can not be split if and only if a double quote outside of comments and strings opens a
string that is not closed; the failure names the position of that quote, and what has been found
before are the tokens of the text before it. -/
theorem source_tiled_or_string_unclosed (source : List Char) :
    (∀ tokens, (lex source).fault? source = none ∧ (lex source).tokens = tokens ↔
      Tiles [] tokens source) ∧
    ((lex source).fault? source ≠ none ↔ ∃ position, OpensUnclosed source position) ∧
    ∀ position, OpensUnclosed source position →
      (lex source).fault? source = some (.malformed (.unexpectedChar position '"')) ∧
      (∀ store, Failure.message? store (.malformed (.unexpectedChar position '"')) =
        some ("Unexpected char at " ++ intText position ++ ": '\"'")) ∧
      lex (source.take position) = ⟨(lex source).tokens, []⟩ := by
  have stops (position : Nat) (opens : OpensUnclosed source position) :
      (lex source).fault? source = some (.malformed (.unexpectedChar position '"')) ∧
        lex (source.take position) = ⟨(lex source).tokens, []⟩ := by
    obtain ⟨split, length⟩ := opens.split
    obtain ⟨before, whole⟩ := lex_append_unclosed opens.outside opens.unclosed
    rw [← split] at whole
    have unread : (lex source).unread = '"' :: source.drop (position + 1) := by rw [whole]
    constructor
    · have fault := fault?_of_unread (source.take position) unread
      rwa [← split, length] at fault
    · rw [before, whole]
  refine ⟨fun tokens => ⟨?_, fun tiles => ?_⟩, ⟨fun fails => ?_, ?_⟩, fun position opens => ?_⟩
  · rintro ⟨succeeds, rfl⟩
    have tiles := (lex_tiles source).1
    rwa [(fault?_eq_none_iff ..).mp succeeds] at tiles
  · rw [fault?_eq_none_iff, tiles.lex_whole]
    exact ⟨rfl, rfl⟩
  · exact exists_opensUnclosed fun whole => fails ((fault?_eq_none_iff ..).mpr whole)
  · rintro ⟨position, opens⟩
    rw [(stops position opens).1]
    exact nofun
  · obtain ⟨fault, before⟩ := stops position opens
    exact ⟨fault, fun store => message?_unexpectedChar_quote store position, before⟩

/-- A double quote in a comment, and behind it one that opens a string with nothing but an escaped
quote. -/
def openSource : List Char := ['(', 'f', ';', '"', '\n', '"', 'x', '\\', '"']

theorem source_tiled_or_string_unclosed_commented :
    OpensUnclosed openSource 5 ∧
      (lex openSource).fault? openSource = some (.malformed (.unexpectedChar 5 '"')) ∧
      (lex openSource).tokens = [.opening, .symbol ['f']] := by
  have opens : OpensUnclosed openSource 5 := ⟨rfl, by decide, (unclosed_iff _).mpr rfl⟩
  obtain ⟨fault, _, before⟩ := (source_tiled_or_string_unclosed openSource).2.2 5 opens
  have tokens : lex (openSource.take 5) = ⟨[.opening, .symbol ['f']], []⟩ := by cbv
  rw [tokens] at before
  exact ⟨opens, fault, (Lexed.mk.inj before).1.symm⟩

end ThunkLisp
