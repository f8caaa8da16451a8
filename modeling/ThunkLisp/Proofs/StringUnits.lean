import Mathlib
import ThunkLisp.Proofs.Spelling

/-!
The units of string literals. The body of a literal is a row of units, each an escape or a character
on its own, and it is no other row. What is read goes by the same units: a character for each of
them, but for a backslash in front of a line feed, where both characters stay.
-/

namespace ThunkLisp

/-- A unit of a string literal: a backslash with the character behind it, or one character that is
neither a backslash nor a double quote. -/
inductive StringUnit where
  | plain (c : Char) (no_quote : c ≠ '"') (no_backslash : c ≠ '\\')
  | escape (c : Char)
  deriving DecidableEq

namespace StringUnit

def text : StringUnit → List Char
  | .plain c _ _ => [c]
  | .escape c => ['\\', c]

def rowText (units : List StringUnit) : List Char := units.flatMap text

/-- The character that a unit stands for. An escape stands for the character that it marks, and for
its own if it marks none. -/
def meaning : StringUnit → Char
  | .plain c _ _ => c
  | .escape c => ((escapeMarks.find? fun pair => pair.2 = c).map Prod.fst).getD c

def reading (unit : StringUnit) : List Char :=
  if unit = .escape '\n' then unit.text else [unit.meaning]

@[simp] theorem rowText_nil : rowText [] = [] := rfl

@[simp] theorem rowText_plain (c : Char) (no_quote : c ≠ '"') (no_backslash : c ≠ '\\')
    (rest : List StringUnit) :
    rowText (.plain c no_quote no_backslash :: rest) = c :: rowText rest := rfl

@[simp] theorem rowText_escape (c : Char) (rest : List StringUnit) :
    rowText (.escape c :: rest) = '\\' :: c :: rowText rest := rfl

theorem rowText_injective {units others : List StringUnit} (same : rowText units = rowText others) :
    units = others := by
  induction units generalizing others with
  | nil =>
      cases others with
      | nil => rfl
      | cons other _ => cases other <;> simp at same
  | cons unit rest ih =>
      cases others with
      | nil => cases unit <;> simp at same
      | cons other behind =>
          -- the first character tells the two kinds of units apart
          cases unit with
          | plain c no_quote no_backslash =>
              cases other with
              | plain d _ _ =>
                  obtain ⟨rfl, rests⟩ := List.cons.inj same
                  rw [ih rests]
              | escape d => exact absurd (List.cons.inj same).1 no_backslash
          | escape c =>
              cases other with
              | plain d _ no_backslash => exact absurd (List.cons.inj same).1.symm no_backslash
              | escape d =>
                  obtain ⟨rfl, rests⟩ := List.cons.inj (List.cons.inj same).2
                  rw [ih rests]

/-! Bodies of literals -/

theorem stringBody?_rowText (units : List StringUnit) (after : List Char) :
    Token.stringBody? (rowText units ++ '"' :: after) = some (rowText units, after) := by
  induction units with
  | nil => rfl
  | cons unit rest ih =>
      cases unit with
      | plain c no_quote no_backslash =>
          -- neither the rule for a quote nor those for a backslash apply
          rw [rowText_plain, List.cons_append, Token.stringBody?, ih]
          · rfl
          · exact no_quote
          · exact fun same => absurd same no_backslash
          · exact fun d others same => absurd same no_backslash
      | escape c => rw [rowText_escape, List.cons_append, List.cons_append,
          Token.stringBody?, ih]; rfl

theorem exists_rowText_of_stringBody? {text body after : List Char}
    (found : Token.stringBody? text = some (body, after)) : ∃ units, rowText units = body := by
  fun_induction Token.stringBody? text generalizing body with
  | case1 => cases found
  | case2 =>
      cases found
      exact ⟨[], rfl⟩
  | case3 => cases found
  | case4 c rest ih =>
      simp only [Option.map_eq_some_iff, Prod.exists, Prod.mk.injEq] at found
      obtain ⟨inner, behind, found, rfl, rfl⟩ := found
      obtain ⟨units, rfl⟩ := ih found
      exact ⟨.escape c :: units, rfl⟩
  | case5 c rest no_quote no_end no_escape ih =>
      simp only [Option.map_eq_some_iff, Prod.exists, Prod.mk.injEq] at found
      obtain ⟨inner, behind, found, rfl, rfl⟩ := found
      obtain ⟨units, rfl⟩ := ih found
      -- a backslash would be the end of the text or take the next character with it
      have no_backslash : c ≠ '\\' := by
        intro backslash
        cases rest with
        | nil => exact no_end backslash rfl
        | cons d rest => exact no_escape d rest backslash rfl
      exact ⟨.plain c no_quote no_backslash :: units, rfl⟩

/-- The body of a literal is a row of units with the closing quote behind it. -/
theorem stringBody?_eq_some_iff (text body after : List Char) :
    Token.stringBody? text = some (body, after) ↔ (∃ units, rowText units = body) ∧
      text = body ++ '"' :: after := by
  constructor
  · intro found
    exact ⟨exists_rowText_of_stringBody? found, Token.append_of_stringBody? text body after found⟩
  · rintro ⟨⟨units, rfl⟩, rfl⟩
    exact stringBody?_rowText units after

/-- The string literals that a source text is split into are rows of units, also where the text can
not be split to its end. -/
theorem exists_rowText_of_lexed {source body : List Char}
    (lexed : Token.string body ∈ (lex source).tokens) :
    ∃ units, rowText units = body := by
  fun_induction lex source with
  | case1 => cases lexed
  | case2 c rest blank ih => exact ih lexed
  | case3 rest _ ih => exact ih lexed
  | case4 rest _ _ ih | case5 rest _ _ _ ih | case6 rest _ _ _ _ ih | case9 c rest _ _ _ _ _ _ ih =>
      exact ih (by simpa [Lexed.push] using lexed)
  | case7 => cases lexed
  | case8 rest inner after found _ _ _ _ _ ih =>
      rcases List.mem_cons.mp lexed with same | behind
      · cases same
        exact exists_rowText_of_stringBody? found
      · exact ih behind

/-! Reading -/

theorem escapedChar_eq_reading (c : Char) : escapedChar c = (escape c).reading := by
  unfold escapedChar
  split
  · rfl
  · rfl
  · rfl
  · rfl
  · next no_n no_t no_r no_line =>
      by_cases quote : c = '"'
      · subst quote
        rfl
      · by_cases backslash : c = '\\'
        · subst backslash
          rfl
        · have marks_none : escapeMarks.find? (fun pair => pair.2 = c) = none := by
            simp [escapeMarks, Ne.symm quote, Ne.symm backslash, Ne.symm no_n, Ne.symm no_t,
              Ne.symm no_r]
          have no_feed : escape c ≠ .escape '\n' := fun same => no_line (escape.inj same)
          rw [reading, if_neg no_feed, meaning, marks_none]
          rfl

theorem unescape_rowText (units : List StringUnit) : unescape (rowText units) =
    units.flatMap reading := by
  induction units with
  | nil => rfl
  | cons unit rest ih =>
      cases unit with
      | plain c no_quote no_backslash =>
          rw [rowText_plain, unescape, ih]
          · rfl
          · exact fun d others same => absurd same no_backslash
      | escape c => rw [rowText_escape, unescape, ih, escapedChar_eq_reading, List.flatMap_cons]

theorem length_reading (units : List StringUnit) :
    (units.flatMap reading).length = units.length + units.count (.escape '\n') := by
  induction units with
  | nil => rfl
  | cons unit rest ih =>
      rw [List.flatMap_cons, List.length_append, ih, List.length_cons]
      by_cases feed : unit = .escape '\n'
      · subst feed
        simp [reading, text]
        omega
      · simp [reading, feed, List.count_cons_of_ne feed]
        omega

theorem reading_eq_meaning_iff (units : List StringUnit) :
    units.flatMap reading = units.map meaning ↔ .escape '\n' ∉ units := by
  constructor
  · intro same
    -- with such a unit there are more characters than units
    have longer := length_reading units
    rw [same, List.length_map] at longer
    rw [← List.count_eq_zero]
    omega
  · intro without
    rw [← List.flatMap_pure_eq_map]
    refine List.flatMap_congr fun unit member => ?_
    have no_feed : unit ≠ .escape '\n' := fun same => without (same ▸ member)
    rw [reading, if_neg no_feed]
    rfl

end StringUnit

open StringUnit

/-- The body of a string literal in a source text splits into units in one way only, and reading
goes by these units. It gives the character that each unit stands for if and only if no unit is a
backslash in front of a line feed; each of those gives one character more. -/
theorem literal_read_by_units (source body : List Char)
    (lexed : Token.string body ∈ (lex source).tokens) :
    ∃ units, rowText units = body ∧ (∀ others, rowText others = body → others = units) ∧
      unescape body = units.flatMap reading ∧
      (unescape body = units.map meaning ↔ .escape '\n' ∉ units) ∧
      (unescape body).length = units.length + units.count (.escape '\n') := by
  obtain ⟨units, rfl⟩ := exists_rowText_of_lexed lexed
  refine ⟨units, rfl, fun others same => rowText_injective same, unescape_rowText units, ?_, ?_⟩
  · rw [unescape_rowText]
    exact reading_eq_meaning_iff units
  · rw [unescape_rowText]
    exact length_reading units

def feedUnits : List StringUnit := [.escape 'x', .escape '\n']

def feedSource : List Char := '"' :: rowText feedUnits ++ ['"']

theorem lex_feedSource : lex feedSource = ⟨[.string (rowText feedUnits)], []⟩ := by
  rw [feedSource, List.cons_append, lex_string [] (stringBody?_rowText feedUnits []), lex]
  rfl

theorem literal_read_by_units_feed :
    Token.string (rowText feedUnits) ∈ (lex feedSource).tokens ∧
      (unescape (rowText feedUnits)).length = 3 ∧
      unescape (rowText feedUnits) ≠ feedUnits.map meaning := by
  have lexed : Token.string (rowText feedUnits) ∈ (lex feedSource).tokens := by
    simp [lex_feedSource]
  obtain ⟨units, _, unique, _, by_meanings, length⟩ :=
    literal_read_by_units feedSource (rowText feedUnits) lexed
  obtain rfl := unique feedUnits rfl
  refine ⟨lexed, length, fun same => ?_⟩
  exact by_meanings.mp same (by simp [feedUnits])

/-- A literal that is one escape, of a line feed. Two characters are read. -/
theorem escaped_line_feed_keeps_backslash :
    lex ['"', '\\', '\n', '"'] = ⟨[.string ['\\', '\n']], []⟩ ∧
      rowText [.escape '\n'] = ['\\', '\n'] ∧ [StringUnit.escape '\n'].map meaning = ['\n'] ∧
      unescape ['\\', '\n'] = ['\\', '\n'] ∧ readOne "\"\\\n\"" = .ok (.str "\\\n") := by
  refine ⟨?_, rfl, rfl, rfl, ?_⟩
  · exact (lex_string [] (stringBody?_rowText [.escape '\n'] [])).trans (by rw [lex]; rfl)
  · cbv

end ThunkLisp
