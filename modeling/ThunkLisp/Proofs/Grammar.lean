import Mathlib.Data.List.Induction
import ThunkLisp.Reader

/-!
The grammar of forms over tokens, apart from any reader: a symbol, a string, a quote with an
expression behind it, and expressions between parentheses. A place is what stands in front of a
token that may still lead to a row of expressions, and every such sequence of tokens is that of one
place only. So a row of tokens has one derivation at most.
-/

namespace ThunkLisp

inductive Expression where
  | symbol (text : List Char)
  | string (body : List Char)
  | quoted (inner : Expression)
  | list (items : List Expression)

namespace Expression

def tokens : Expression → List Token
  | symbol text => [.symbol text]
  | string body => [.string body]
  | quoted inner => .quote :: inner.tokens
  | list items => .opening :: (items.flatMap tokens ++ [.closing])

/-- The value of a symbol's text. A numeral with too many digits has none. -/
def valueOfSymbol (text : List Char) : Value :=
  match readAtom text with
  | .ok value => value
  | .error _ => .nil

def value : Expression → Value
  | symbol text => valueOfSymbol text
  | string body => .str (String.ofList (unescape body))
  | quoted inner => quoteForm inner.value
  | list items => .list (items.map value)

end Expression

def rowTokens (row : List Expression) : List Token := row.flatMap Expression.tokens

@[simp] theorem rowTokens_nil : rowTokens [] = [] := rfl

@[simp] theorem rowTokens_cons (first : Expression) (rest : List Expression) :
    rowTokens (first :: rest) = first.tokens ++ rowTokens rest := rfl

@[simp] theorem rowTokens_append (front back : List Expression) :
    rowTokens (front ++ back) = rowTokens front ++ rowTokens back := by
  simp [rowTokens]

theorem tokens_list (items : List Expression) :
    (Expression.list items).tokens = .opening :: (rowTokens items ++ [.closing]) := by
  rw [Expression.tokens, rowTokens]

/-- What is open around a token: a list with the expressions in it so far, or a quote. -/
inductive Enclosure where
  | list (items : List Expression)
  | quote

def Enclosure.tokens : Enclosure → List Token
  | .list items => .opening :: rowTokens items
  | .quote => [.quote]

/-- A place in a row of tokens: the whole expressions before it, and what is open around it, the
innermost first. -/
structure Place where
  before : List Expression
  around : List Enclosure

/-- What an expression leads to: it is whole at the top, or the row goes on inside what is open. -/
inductive Passage where
  | complete (expression : Expression)
  | within (around : List Enclosure)

/-- An expression is put into the innermost list. Quotes in front of it are complete then. -/
def Enclosure.put (expression : Expression) : List Enclosure → Passage
  | [] => .complete expression
  | .list items :: outer => .within (.list (items ++ [expression]) :: outer)
  | .quote :: outer => put (.quoted expression) outer

/-- A token is passed. A closing parenthesis can be passed directly inside a list only. -/
def Enclosure.pass (around : List Enclosure) : Token → Option Passage
  | .symbol text => some (put (.symbol text) around)
  | .string body => some (put (.string body) around)
  | .quote => some (.within (.quote :: around))
  | .opening => some (.within (.list [] :: around))
  | .closing =>
      match around with
      | .list items :: outer => some (put (.list items) outer)
      | _ => none

namespace Place

def tokens (place : Place) : List Token :=
  rowTokens place.before ++ place.around.reverse.flatMap Enclosure.tokens

def InList (place : Place) : Prop := ∃ items outer, place.around = .list items :: outer

def AfterQuote (place : Place) : Prop := ∃ outer, place.around = .quote :: outer

def start : Place := ⟨[], []⟩

def move (place : Place) : Passage → Place
  | .complete expression => ⟨place.before ++ [expression], []⟩
  | .within around => ⟨place.before, around⟩

def next (place : Place) (token : Token) : Option Place :=
  (Enclosure.pass place.around token).map place.move

def follow (place : Place) : List Token → Option Place
  | [] => some place
  | token :: rest => (place.next token).bind fun inner => inner.follow rest

theorem follow_append (place : Place) (front back : List Token) :
    place.follow (front ++ back) = (place.follow front).bind fun inner => inner.follow back := by
  induction front generalizing place with
  | nil => rfl
  | cons token front ih => simp [follow, ih, Option.bind_assoc]

theorem follow_append_of_eq {place inner : Place} {front : List Token}
    (behind : place.follow front = some inner) (back : List Token) :
    place.follow (front ++ back) = inner.follow back := by
  rw [follow_append, behind, Option.bind_some]

/-! Every place is reached by its own tokens. -/

theorem tokens_move_put (before : List Expression) (around : List Enclosure)
    (expression : Expression) :
    ((⟨before, around⟩ : Place).move (Enclosure.put expression around)).tokens =
      (⟨before, around⟩ : Place).tokens ++ expression.tokens := by
  -- on what is open, since quotes are taken off one by one
  induction around generalizing expression with
  | nil => simp [move, Enclosure.put, tokens]
  | cons enclosure outer ih =>
      cases enclosure with
      | list items => simp [move, Enclosure.put, tokens, Enclosure.tokens, List.append_assoc]
      | quote =>
          have outside := ih (.quoted expression)
          simp only [move, tokens] at outside ⊢
          simp [Enclosure.put, Enclosure.tokens, outside, Expression.tokens]

theorem tokens_next {place inner : Place} {token : Token} (passed : place.next token = some inner) :
    inner.tokens = place.tokens ++ [token] := by
  obtain ⟨before, around⟩ := place
  simp only [next, Option.map_eq_some_iff] at passed
  obtain ⟨passage, passed, rfl⟩ := passed
  cases token with
  | symbol text =>
      cases passed
      simp [tokens_move_put, Expression.tokens]
  | string body =>
      cases passed
      simp [tokens_move_put, Expression.tokens]
  | quote =>
      cases passed
      simp [move, tokens, Enclosure.tokens]
  | opening =>
      cases passed
      simp [move, tokens, Enclosure.tokens]
  | closing =>
      rcases around with _ | ⟨items | _, outer⟩
      · cases passed
      · cases passed
        have outside := tokens_move_put before outer (.list items)
        simp only [move, tokens] at outside ⊢
        simp [outside, tokens_list, Enclosure.tokens]
      · cases passed

theorem tokens_follow {place inner : Place} {passed : List Token}
    (followed : place.follow passed = some inner) :
    inner.tokens = place.tokens ++ passed := by
  induction passed generalizing place with
  | nil =>
      cases followed
      simp
  | cons token rest ih =>
      simp only [follow, Option.bind_eq_some_iff] at followed
      obtain ⟨middle, first, others⟩ := followed
      rw [ih others, tokens_next first]
      simp

/-! An expression leads to the place that has it one expression further on. -/

theorem follow_row (items : List Expression)
    (each : ∀ item ∈ items, ∀ place : Place,
      place.follow item.tokens = some (place.move (Enclosure.put item place.around)))
    (before done : List Expression) (outer : List Enclosure) :
    (⟨before, .list done :: outer⟩ : Place).follow (rowTokens items) =
      some ⟨before, .list (done ++ items) :: outer⟩ := by
  induction items generalizing done with
  | nil => simp [follow]
  | cons item items ih =>
      have first := each item List.mem_cons_self ⟨before, .list done :: outer⟩
      rw [rowTokens_cons, follow_append_of_eq first]
      have others := ih (fun other member => each other (.tail item member)) (done ++ [item])
      simpa [move, Enclosure.put] using others

theorem follow_tokens (expression : Expression) (place : Place) :
    place.follow expression.tokens = some (place.move (Enclosure.put expression place.around)) := by
  obtain ⟨before, around⟩ := place
  cases expression with
  | symbol text => simp [Expression.tokens, follow, next, Enclosure.pass]
  | string body => simp [Expression.tokens, follow, next, Enclosure.pass]
  | quoted inner =>
      have behind := follow_tokens inner ⟨before, .quote :: around⟩
      simpa [Expression.tokens, follow, next, Enclosure.pass, move, Enclosure.put] using behind
  | list items =>
      have inside := follow_row items (fun item _ => follow_tokens item) before [] around
      rw [tokens_list, follow]
      simp only [next, Enclosure.pass, Option.map_some, move, Option.bind_some]
      rw [follow_append_of_eq inside]
      simp [follow, next, Enclosure.pass, move]
termination_by sizeOf expression
decreasing_by
  · simp
  · have smaller := List.sizeOf_lt_of_mem ‹item ∈ items›
    simp only [Expression.list.sizeOf_spec]
    omega

theorem follow_start_rowTokens (row : List Expression) :
    start.follow (rowTokens row) = some ⟨row, []⟩ := by
  induction row using List.reverseRecOn with
  | nil => rfl
  | append_singleton row expression ih =>
      rw [rowTokens_append, follow_append_of_eq ih, rowTokens_cons, rowTokens_nil, List.append_nil,
        follow_tokens]
      rfl

theorem follow_enclosures (before : List Expression) (around : List Enclosure) :
    (⟨before, []⟩ : Place).follow (around.reverse.flatMap Enclosure.tokens) =
      some ⟨before, around⟩ := by
  induction around with
  | nil => rfl
  | cons enclosure outer ih =>
      rw [List.reverse_cons, List.flatMap_append, follow_append_of_eq ih]
      cases enclosure with
      | quote => rfl
      | list items =>
          have inside := follow_row items (fun item _ => follow_tokens item) before [] outer
          simpa [Enclosure.tokens, follow, next, Enclosure.pass, move] using inside

theorem follow_start_tokens (place : Place) : start.follow place.tokens = some place := by
  rw [tokens, follow_append_of_eq (follow_start_rowTokens place.before), follow_enclosures]

theorem follow_start_iff (passed : List Token) (place : Place) :
    start.follow passed = some place ↔ passed = place.tokens := by
  constructor
  · intro followed
    simpa [start, tokens] using (tokens_follow followed).symm
  · rintro rfl
    exact follow_start_tokens place

theorem tokens_injective {place other : Place} (same : place.tokens = other.tokens) :
    place = other := by
  have reached := follow_start_tokens place
  rw [same, follow_start_tokens] at reached
  exact (Option.some.inj reached).symm

/-! Rows of tokens that are a place's to their end, and those that have an unexpected parenthesis.
-/

theorem before_prefix_next {place inner : Place} {token : Token}
    (passed : place.next token = some inner) :
    place.before <+: inner.before := by
  simp only [next, Option.map_eq_some_iff] at passed
  obtain ⟨passage, -, rfl⟩ := passed
  cases passage with
  | complete expression => exact List.prefix_append _ _
  | within around => exact List.prefix_rfl

theorem before_prefix_follow {place inner : Place} {passed : List Token}
    (followed : place.follow passed = some inner) : place.before <+: inner.before := by
  induction passed generalizing place with
  | nil =>
      cases followed
      exact List.prefix_rfl
  | cons token rest ih =>
      simp only [follow, Option.bind_eq_some_iff] at followed
      obtain ⟨middle, first, others⟩ := followed
      exact (before_prefix_next first).trans (ih others)

theorem next_eq_none {place : Place} {token : Token} (stuck : place.next token = none) :
    token = .closing ∧ ¬ place.InList := by
  obtain ⟨before, around⟩ := place
  simp only [next, Option.map_eq_none_iff] at stuck
  cases token with
  | closing =>
      constructor
      · rfl
      · rintro ⟨items, outer, rfl⟩
        cases stuck
  | _ => cases stuck

/-- Tokens can be passed to their end, or there is a first closing parenthesis that can not. -/
theorem follow_or_unexpected (place : Place) (coming : List Token) :
    (∃ inner, place.follow coming = some inner) ∨
    ∃ inner passed behind, coming = passed ++ .closing :: behind ∧
      place.follow passed = some inner ∧
      ¬ inner.InList := by
  induction coming generalizing place with
  | nil => exact .inl ⟨place, rfl⟩
  | cons token rest ih =>
      cases passed : place.next token with
      | none =>
          obtain ⟨rfl, outside⟩ := next_eq_none passed
          exact .inr ⟨place, [], rest, rfl, rfl, outside⟩
      | some middle =>
          rcases ih middle with ⟨inner, followed⟩ | ⟨inner, front, behind, rfl, followed, outside⟩
          · exact .inl ⟨inner, by simp [follow, passed, followed]⟩
          · exact .inr ⟨inner, token :: front, behind, rfl, by
              simp [follow, passed, followed], outside⟩

end Place

/-- Why tokens are no row of expressions: they run out directly inside a list or directly behind a
quote, or a closing parenthesis stands at the top or directly behind a quote. -/
inductive Flaw where
  | openList
  | bareQuote
  | strayClosing

/-- The tokens have the flaw, and can go on as a row of expressions up to there. -/
def Flaw.In (tokens : List Token) : Flaw → Prop
  | openList => ∃ place : Place, tokens = place.tokens ∧ place.InList
  | bareQuote => ∃ place : Place, tokens = place.tokens ∧ place.AfterQuote
  | strayClosing =>
      ∃ (place : Place) (behind : List Token), tokens = place.tokens ++ .closing :: behind ∧
        ¬ place.InList

theorem row_or_flaw (tokens : List Token) : (∃ row, tokens = rowTokens row) ∨
    ∃ flaw : Flaw, flaw.In tokens := by
  rcases Place.follow_or_unexpected Place.start tokens with
    ⟨place, followed⟩ | ⟨place, passed, behind, rfl, followed, outside⟩
  · have reached := (Place.follow_start_iff tokens place).mp followed
    obtain ⟨before, around⟩ := place
    rcases around with _ | ⟨items | _, outer⟩
    · exact .inl ⟨before, by simpa [Place.tokens] using reached⟩
    · exact .inr ⟨.openList, _, reached, items, outer, rfl⟩
    · exact .inr ⟨.bareQuote, _, reached, outer, rfl⟩
  · have reached := (Place.follow_start_iff passed place).mp followed
    exact .inr ⟨.strayClosing, place, behind, by rw [reached], outside⟩

/-! Unique derivations -/

theorem rowTokens_injective {row other : List Expression} (same : rowTokens row = rowTokens other) :
    row = other := by
  have place : (⟨row, []⟩ : Place) = ⟨other, []⟩ :=
    Place.tokens_injective (by simpa [Place.tokens] using same)
  exact congrArg Place.before place

theorem eq_of_prefix_tokens {expression other : Expression}
    (within : expression.tokens <+: other.tokens) :
    expression = other := by
  obtain ⟨more, whole⟩ := within
  have reached := Place.follow_start_rowTokens [expression]
  have reached_other := Place.follow_start_rowTokens [other]
  rw [rowTokens_cons, rowTokens_nil, List.append_nil] at reached reached_other
  rw [← whole, Place.follow_append_of_eq reached] at reached_other
  -- the first expression stays the first one
  simpa using Place.before_prefix_follow reached_other

theorem eq_of_prefixes {expression other : Expression} {tokens : List Token}
    (starts : expression.tokens <+: tokens) (starts_other : other.tokens <+: tokens) :
      expression = other := by
  rcases List.prefix_or_prefix_of_prefix starts starts_other with shorter | longer
  · exact eq_of_prefix_tokens shorter
  · exact (eq_of_prefix_tokens longer).symm

end ThunkLisp
