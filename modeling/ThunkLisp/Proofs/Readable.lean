import ThunkLisp.Reader
import ThunkLisp.Proofs.Operations

/-!
What can be read. The forms of a source text are trees of constants, numbers, texts and symbols, and
the messages of texts that can not be read show no values.
-/

namespace ThunkLisp

open Value (Every)

/-- Leaves of source text. -/
def Value.isReadable : Value → Bool
  | .nil | .bool _ | .int _ | .float _ | .str _ | .sym _ => true
  | _ => false

abbrev Readable (form : Value) : Prop := Every (fun leaf => leaf.isReadable = true) form

theorem readable_leaf {v : Value} (flat : v.isList = false) (readable : v.isReadable = true) :
    Readable v :=
  (Value.every_of_flat flat).mpr readable

theorem readable_basics : HasBasics fun leaf => leaf.isReadable = true :=
  ⟨fun _ => rfl, rfl, fun _ => rfl⟩

variable (shown : Value → Prop)

theorem readAtom_fine (text : List Char) : Fine shown Readable (readAtom text) := by
  unfold readAtom
  split
  · exact readable_leaf rfl rfl
  · split
    · exact readable_leaf rfl rfl
    · split
      · exact readable_leaf rfl rfl
      · split
        · exact readable_leaf rfl rfl
        · split
          · exact readable_leaf rfl rfl
          · split
            · exact readable_leaf rfl rfl
            · exact Fine.of_words (by simp [Failure.phrases])

theorem readable_quoteForm {form : Value} (readable : Readable form) : Readable (quoteForm form) :=
  (Value.every_cons _ _).mpr ⟨(Value.every_sym _).mpr rfl,
    (Value.every_cons _ _).mpr ⟨readable, Value.every_nil_list⟩⟩

namespace Reader

def LevelReadable : Level → Prop
  | .list items => ∀ form ∈ items, Readable form
  | .quote => True

def ProgressReadable : Progress → Prop
  | .complete form => Readable form
  | .within levels => ∀ level ∈ levels, LevelReadable level

theorem place_readable (form : Value) (levels : List Level) (readable : Readable form)
    (each : ∀ level ∈ levels, LevelReadable level) : ProgressReadable (place form levels) := by
  induction levels generalizing form with
  | nil => exact readable
  | cons level outer ih =>
      have behind : ∀ level ∈ outer, LevelReadable level := fun level member =>
        each level (by simp [member])
      cases level with
      | quote => exact ih (quoteForm form) (readable_quoteForm readable) behind
      | list items =>
          have inside : ∀ found ∈ items, Readable found := each (.list items) (by simp)
          intro level member
          rcases List.mem_cons.mp member with rfl | member
          · intro found among
            rcases List.mem_cons.mp among with rfl | among
            · exact readable
            · exact inside found among
          · exact behind level member

theorem start_fine (levels : List Level) (token : Token)
    (each : ∀ level ∈ levels, LevelReadable level) :
    Fine shown ProgressReadable (start levels token) := by
  cases token with
  | quote =>
      intro level member
      rcases List.mem_cons.mp member with rfl | member
      · trivial
      · exact each level member
  | opening =>
      intro level member
      rcases List.mem_cons.mp member with rfl | member
      · simp [LevelReadable]
      · exact each level member
  | closing => exact Fine.of_words (by simp [Failure.phrases, Malformed.phrases])
  | string body => exact place_readable _ levels (readable_leaf rfl rfl) each
  | symbol text =>
      have atom := readAtom_fine shown text
      change Fine shown ProgressReadable ((readAtom text).map fun value => place value levels)
      cases read : readAtom text with
      | error failure =>
          rw [read] at atom
          exact atom
      | ok form =>
          rw [read] at atom
          exact place_readable form levels atom each

theorem take_fine (limit : Nat) (levels : List Level) (token : Token)
    (each : ∀ level ∈ levels, LevelReadable level) :
    Fine shown ProgressReadable (take limit levels token) := by
  unfold take
  split
  · next items outer =>
      have inside : ∀ form ∈ items, Readable form := each (.list items) (by simp)
      refine place_readable _ outer (.list _ fun form member => inside form ?_) fun level member =>
        each level (by simp [member])
      simpa using member
  · split
    · exact start_fine shown _ _ each
    · exact Fine.of_words (by simp [Failure.phrases])

def ReadingsFine (shown : Value → Prop) : Readings → Prop
  | .failed failure _ => failure.Shows shown
  | .ranOut forms _ => ∀ form ∈ forms, Readable form

theorem readForms_fine (limit : Nat) (done : List Value) (levels : List Level) (tokens : List Token)
    (finished : ∀ form ∈ done, Readable form) (each : ∀ level ∈ levels, LevelReadable level) :
    ReadingsFine shown (readForms limit done levels tokens) := by
  induction tokens generalizing done levels with
  | nil => simpa [readForms, ReadingsFine] using finished
  | cons token rest ih =>
      have taking := take_fine shown limit levels token each
      unfold readForms
      split
      · next failure taken =>
          rw [taken] at taking
          exact taking
      · next form taken =>
          rw [taken] at taking
          refine ih (form :: done) [] (fun found member => ?_) (by simp)
          rcases List.mem_cons.mp member with rfl | member
          · exact taking
          · exact finished found member
      · next inner taken =>
          rw [taken] at taking
          exact ih done inner finished taking

theorem ending_shows (levels : List Level) : (ending levels).Shows shown := by
  unfold ending
  split <;> simp [Failure.Shows, Failure.phrases, Malformed.phrases, Phrase.Shows]

end Reader

/-- The forms of a source text are readable, or the text fails with a message that shows nothing. -/
theorem readAll_fine (source : String) :
    Fine shown (fun forms => ∀ form ∈ forms, Readable form) (readAll source) := by
  have reading := Reader.readForms_fine shown readLimit [] []
    (TokenStream.ofSource source.toList).waiting (by simp) (by simp)
  unfold readAll readAllWithin TokenStream.parseAll
  split
  · next failure rest found =>
      rw [found] at reading
      exact reading
  · next forms levels found =>
      rw [found] at reading
      simp only
      split
      · next failure _ fault =>
          simp only [TokenStream.ofSource, Lexed.fault?] at fault
          split at fault <;> cases fault
          exact Fine.of_words (by simp [Failure.phrases, Malformed.phrases])
      · exact reading
      · exact Reader.ending_shows shown _

end ThunkLisp
