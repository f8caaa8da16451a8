import Mathlib
import ThunkLisp.Proofs.Layout
import ThunkLisp.Session

/-!
Source texts with a line feed between them. A line feed ends a comment and a symbol, and no text
that is tokens to its end stops inside a string, so the two texts are read as they are alone. Their
forms are evaluated one behind the other, up to the first that fails, and none is evaluated if the
text can not be read.
-/

namespace ThunkLisp

open Text

/-! Tokens -/

theorem takeWhile_append_stop {p : Char → Bool} {stop : Char} (stops : p stop = false)
    (front back : List Char) :
    (front ++ stop :: back).takeWhile p = front.takeWhile p := by
  induction front with
  | nil => simp [stops]
  | cons c front ih => simp only [List.cons_append, List.takeWhile_cons, ih]

theorem dropWhile_append_stop {p : Char → Bool} {stop : Char} (stops : p stop = false)
    (front back : List Char) :
    (front ++ stop :: back).dropWhile p = front.dropWhile p ++ stop :: back := by
  induction front with
  | nil => simp [stops]
  | cons c front ih =>
      simp only [List.cons_append, List.dropWhile_cons, ih]
      split <;> rfl

theorem stringBody?_append {text body after : List Char}
    (found : Token.stringBody? text = some (body, after)) (more : List Char) :
    Token.stringBody? (text ++ more) = some (body, after ++ more) := by
  fun_induction Token.stringBody? text generalizing body with
  | case1 => cases found
  | case2 rest =>
      cases found
      rfl
  | case3 => cases found
  | case4 c rest ih =>
      simp only [Option.map_eq_some_iff, Prod.exists, Prod.mk.injEq] at found
      obtain ⟨inner, behind, found, rfl, rfl⟩ := found
      simp [Token.stringBody?, ih found]
  | case5 c rest no_quote no_end no_escape ih =>
      simp only [Option.map_eq_some_iff, Prod.exists, Prod.mk.injEq] at found
      obtain ⟨inner, behind, found, rfl, rfl⟩ := found
      -- with an escape, one of the cases before would apply
      have no_backslash : c ≠ '\\' := by
        intro backslash
        cases rest with
        | nil => exact no_end backslash rfl
        | cons d rest => exact no_escape d rest backslash rfl
      rw [List.cons_append, Token.stringBody?, ih found]
      · rfl
      · exact no_quote
      · exact fun same => absurd same no_backslash
      · exact fun d others same => absurd same no_backslash

theorem lex_append_newline {front : List Char} (whole : (lex front).unread = [])
    (back : List Char) :
    lex (front ++ '\n' :: back) = ⟨(lex front).tokens ++ (lex back).tokens, (lex back).unread⟩ := by
  fun_induction lex front with
  | case1 => exact lex_blank (by decide) back
  | case2 c rest blank ih => rw [List.cons_append, lex_blank blank, ih whole]
  | case3 rest solid ih =>
      -- the line feed ends the comment, if nothing else does
      have behind := ih whole
      have symbol := takeWhile_append_stop (by decide : Token.isSymbolChar '\n' = false) rest back
      rw [← dropWhile_append_stop (by decide) rest back] at behind
      rw [List.cons_append, lex]
      simp [solid, behind]
  | case4 rest solid _ ih | case5 rest solid _ _ ih | case6 rest solid _ _ _ ih =>
      rw [List.cons_append, lex]
      simp [solid, ih whole, Lexed.push]
  | case7 rest => cases whole
  | case8 rest body after found _ _ _ _ _ ih =>
      obtain rfl := Token.append_of_stringBody? rest body after found
      have longer := stringBody?_append found ('\n' :: back)
      rw [List.append_assoc, List.cons_append] at longer
      rw [List.cons_append, List.append_assoc, List.cons_append, lex_string _ longer, ih whole]
      rfl
  | case9 c rest solid no_comment no_quote no_opening no_closing no_string ih =>
      have behind := ih whole
      have symbol := takeWhile_append_stop (by decide : Token.isSymbolChar '\n' = false) rest back
      rw [← dropWhile_append_stop (by decide) rest back] at behind
      rw [List.cons_append, lex]
      simp [solid, no_comment, no_quote, no_opening, no_closing, no_string, behind, Lexed.push,
        symbol]

/-! Forms -/

namespace Reader

theorem readForms_append {limit : Nat} {done forms : List Value} {levels inner : List Level}
    {tokens : List Token} (read : readForms limit done levels tokens = .ranOut forms inner)
    (more : List Token) :
    readForms limit done levels (tokens ++ more) = readForms limit forms.reverse inner more := by
  induction tokens generalizing done levels with
  | nil =>
      cases read
      simp
  | cons token rest ih =>
      simp only [readForms, List.cons_append] at read ⊢
      split at read
      · cases read
      · exact ih read
      · exact ih read

def Readings.behind (before : List Value) : Readings → Readings
  | .failed failure rest => .failed failure rest
  | .ranOut forms levels => .ranOut (before ++ forms) levels

theorem readForms_behind (limit : Nat) (before done : List Value) (levels : List Level)
    (tokens : List Token) :
    readForms limit (done ++ before.reverse) levels tokens =
      (readForms limit done levels tokens).behind before := by
  induction tokens generalizing done levels with
  | nil => simp [readForms, Readings.behind]
  | cons token rest ih =>
      simp only [readForms]
      split
      · rfl
      · next form taken => exact ih (form :: done) []
      · exact ih done _

end Reader

theorem readAll_eq_ok_iff (source : String) (forms : List Value) :
    readAll source = .ok forms ↔ (lex source.toList).unread = [] ∧
      Reader.readForms readLimit [] [] (lex source.toList).tokens = .ranOut forms [] := by
  have tokens : (TokenStream.ofSource source.toList).waiting = (lex source.toList).tokens := rfl
  have fault : (TokenStream.ofSource source.toList).fault =
    (lex source.toList).fault? source.toList := rfl
  simp only [readAll, readAllWithin, TokenStream.parseAll, tokens, fault, Lexed.fault?]
  cases read : Reader.readForms readLimit [] [] (lex source.toList).tokens with
  | failed failure rest => simp
  | ranOut found levels =>
      cases unread : (lex source.toList).unread with
      | cons c rest => simp
      | nil => cases levels <;> simp

/-- Two texts with a line feed between them can be read if both can, and then have the forms of one
and the other. -/
theorem readAll_append_newline {front : String} {first : List Value}
    (read_front : readAll front = .ok first) (back : String) (forms : List Value) :
    readAll (front ++ "\n" ++ back) = .ok forms ↔ ∃ second, readAll back = .ok second ∧
      forms = first ++ second := by
  obtain ⟨whole, read⟩ := (readAll_eq_ok_iff _ _).mp read_front
  have characters : (front ++ "\n" ++ back).toList = front.toList ++ '\n' :: back.toList := by simp
  have behind := Reader.readForms_behind readLimit first [] [] (lex back.toList).tokens
  rw [List.nil_append] at behind
  simp only [readAll_eq_ok_iff, characters, lex_append_newline whole, Reader.readForms_append read,
    behind]
  cases Reader.readForms readLimit [] [] (lex back.toList).tokens with
  | failed failure rest => simp [Reader.Readings.behind]
  | ranOut second levels =>
      simp only [Reader.Readings.behind, Reader.Readings.ranOut.injEq]
      constructor
      · rintro ⟨unread, rfl, rfl⟩
        exact ⟨second, ⟨unread, rfl, rfl⟩, rfl⟩
      · rintro ⟨other, ⟨unread, rfl, rfl⟩, rfl⟩
        exact ⟨unread, rfl, rfl⟩

/-! Evaluation -/

namespace Session

variable (session : Session) (limit : Nat)

theorem evaluateText_of_readAll {source : String} {forms : List Value}
    (read : readAll source = .ok forms) :
    (session.evaluateTextWithin limit source : Run Value) =
      session.evaluateForms limit .nil forms := by
  rw [evaluateTextWithin, read]
  rfl

theorem evaluateForms_append (last : Value) (front back : List Value) :
    (session.evaluateForms limit last (front ++ back) : Run Value) =
      session.evaluateForms limit last front >>= fun last =>
        session.evaluateForms limit last back := by
  induction front generalizing last with
  | nil => simp [evaluateForms]
  | cons form front ih => simp [evaluateForms, ih]

theorem evaluateForms_last {forms : List Value} (some : forms ≠ []) (last other : Value) :
    (session.evaluateForms limit last forms : Run Value) =
      session.evaluateForms limit other forms := by
  cases forms with
  | nil => exact absurd rfl some
  | cons form rest => rfl

theorem evaluateForms_concat (last : Value) (front : List Value) (form : Value) :
    (session.evaluateForms limit last (front ++ [form]) : Run Value) =
      session.evaluateForms limit last front >>= fun _ => session.evaluateWithin limit form := by
  rw [evaluateForms_append]
  simp [evaluateForms]

/-- Forms are evaluated in order: the first that fails ends the evaluation, in the store that it and
the forms before it have left, and without a failure the last form gives the value. -/
structure InOrder (store : Store) (forms : List Value) (outcome : Except Failure Value × Store) :
    Prop where
  fails : ∀ failure after, outcome = (.error failure, after) ↔
    ∃ earlier form later last before, forms = earlier ++ form :: later ∧
      (session.evaluateForms limit .nil earlier : Run Value).on store = (.ok last, before) ∧
      (session.evaluateWithin limit form : Run Value).on before = (.error failure, after)
  returns : ∀ value after, outcome = (.ok value, after) ↔
    (forms = [] ∧ value = .nil ∧ after = store) ∨
    ∃ earlier form last before, forms = earlier ++ [form] ∧
      (session.evaluateForms limit .nil earlier : Run Value).on store = (.ok last, before) ∧
      (session.evaluateWithin limit form : Run Value).on before = (.ok value, after)

theorem evaluateForms_fails {store after : Store} {forms : List Value} {failure : Failure}
    (failed : (session.evaluateForms limit .nil forms : Run Value).on store =
      (.error failure, after)) :
    ∃ earlier form later last before, forms = earlier ++ form :: later ∧
      (session.evaluateForms limit .nil earlier : Run Value).on store = (.ok last, before) ∧
      (session.evaluateWithin limit form : Run Value).on before = (.error failure, after) := by
  -- on the forms from the last one on: it has failed itself, or one before it
  induction forms using List.reverseRecOn with
  | nil => cases failed
  | append_singleton front form ih =>
      rw [evaluateForms_concat, Run.on_bind] at failed
      cases ran : (session.evaluateForms limit .nil front : Run Value).on store with
      | mk outcome before =>
          rw [ran] at failed
          cases outcome with
          | ok last => exact ⟨front, form, [], last, before, rfl, ran, failed⟩
          | error failure' =>
              cases failed
              obtain ⟨earlier, first, later, last, middle, rfl, came, stops⟩ := ih ran
              exact ⟨earlier, first, later ++ [form], last, middle, by simp, came, stops⟩

theorem evaluateForms_inOrder (store : Store) (forms : List Value) :
    session.InOrder limit store forms ((session.evaluateForms limit .nil forms : Run Value).on
      store) := by
  constructor
  · intro failure after
    constructor
    · exact session.evaluateForms_fails limit
    · rintro ⟨earlier, form, later, last, before, rfl, came, stops⟩
      rw [evaluateForms_append, Run.on_bind, came]
      simp only [evaluateForms]
      rw [Run.on_bind, stops]
  · intro value after
    constructor
    · intro returned
      rcases List.eq_nil_or_concat forms with rfl | ⟨earlier, form, rfl⟩
      · cases returned
        exact .inl ⟨rfl, rfl, rfl⟩
      · rw [List.concat_eq_append, evaluateForms_concat, Run.on_bind] at returned
        split at returned
        · next last before came => exact .inr ⟨earlier, form, last, before, by simp, came, returned⟩
        · cases returned
    · rintro (⟨rfl, rfl, rfl⟩ | ⟨earlier, form, last, before, rfl, came, gives⟩)
      · rfl
      · rw [evaluateForms_concat, Run.on_bind, came]
        exact gives

theorem evaluateText_of_unreadable {source : String} {failure : Failure}
    (unreadable : readAll source = .error failure) (store : Store) :
    (session.evaluateTextWithin limit source : Run Value).on store = (.error failure, store) := by
  rw [evaluateTextWithin, unreadable]
  rfl

/-- The forms of a text that goes on behind a line feed are evaluated after those before it. -/
theorem evaluateText_append_newline {front back : String} {first second : List Value}
    (read_front : readAll front = .ok first) (read_back : readAll back = .ok second)
    (store : Store) :
    (session.evaluateTextWithin limit (front ++ "\n" ++ back) : Run Value).on store =
      match (session.evaluateTextWithin limit front : Run Value).on store with
      | (.error failure, after) => (.error failure, after)
      | (.ok last, after) =>
          if second.isEmpty then (.ok last, after) else
            (session.evaluateTextWithin limit back : Run Value).on after := by
  have read := (readAll_append_newline read_front back _).mpr ⟨second, read_back, rfl⟩
  rw [evaluateText_of_readAll session limit read, evaluateText_of_readAll session limit read_front,
    evaluateText_of_readAll session limit read_back, evaluateForms_append, Run.on_bind]
  split
  · next last after ran =>
      rw [ran]
      cases second with
      | nil => rfl
      | cons form rest => rw [session.evaluateForms_last limit (by simp) last .nil]; rfl
  · next failure after ran => rw [ran]

end Session

/-- A line feed may stand between any two readable texts: the forms are those of both, and
evaluating them is evaluating the first text and, if it has not failed, the second. A text that can
not be read does nothing but fail, also where it starts with a readable one. -/
theorem source_split_at_newline (session : Session) (limit : Nat) (store : Store) :
    (∀ front back first second, readAll front = .ok first → readAll back = .ok second →
      readAll (front ++ "\n" ++ back) = .ok (first ++ second) ∧
      session.InOrder limit store (first ++ second)
        ((session.evaluateTextWithin limit (front ++ "\n" ++ back) : Run Value).on store) ∧
      (session.evaluateTextWithin limit (front ++ "\n" ++ back) : Run Value).on store =
        match (session.evaluateTextWithin limit front : Run Value).on store with
        | (.error failure, after) => (.error failure, after)
        | (.ok last, after) =>
            if second.isEmpty then (.ok last, after) else
              (session.evaluateTextWithin limit back : Run Value).on after) ∧
    (∀ source failure, readAll source = .error failure →
      (session.evaluateTextWithin limit source : Run Value).on store = (.error failure, store)) ∧
    (∀ front back first failure, readAll front = .ok first → readAll back = .error failure →
      ∃ other, (session.evaluateTextWithin limit (front ++ "\n" ++ back) : Run Value).on store =
        (.error other, store)) := by
  refine ⟨?_, fun source failure unreadable => session.evaluateText_of_unreadable limit unreadable
    store, ?_⟩
  · intro front back first second read_front read_back
    have read := (readAll_append_newline read_front back _).mpr ⟨second, read_back, rfl⟩
    refine ⟨read, ?_, session.evaluateText_append_newline limit read_front read_back store⟩
    rw [session.evaluateText_of_readAll limit read]
    exact session.evaluateForms_inOrder limit store _
  · intro front back first failure read_front unreadable
    cases read : readAll (front ++ "\n" ++ back) with
    | error other => exact ⟨other, session.evaluateText_of_unreadable limit read store⟩
    | ok forms =>
        -- the second text would have been readable
        obtain ⟨second, readable, -⟩ := (readAll_append_newline read_front back forms).mp read
        rw [unreadable] at readable
        cases readable

def bareSession : Session := ⟨⟨FormTable.full, .strict, fun _ _ => return .nil⟩, 0⟩

/-- The store of a global frame alone. -/
def bareStore (globals : Bindings) : Store := { frames := #[{ bindings := globals }] }

def bareRun (source : String) (globals : Bindings) : Except Failure Value × Store :=
  (bareSession.evaluateTextWithin 50 source : Run Value).on (bareStore globals)

/-- A text that ends in a comment and defines a name, with one behind it that assigns to the name,
and with one that fails before it does. -/
theorem source_split_at_newline_comment :
    readAll "(define a 1);x" = .ok [.list [.sym "define", .sym "a", .int 1]] ∧
    readAll "(set! a 2) a" = .ok [.list [.sym "set!", .sym "a", .int 2], .sym "a"] ∧
    bareRun "(define a 1);x" [] = (.ok (.sym "a"), bareStore [(.sym "a", .int 1)]) ∧
    bareRun "(set! a 2) a" [(.sym "a", .int 1)] =
      (.ok (.int 2), bareStore [(.sym "a", .int 2)]) ∧
    readAll ("(define a 1);x" ++ "\n" ++ "(set! a 2) a") =
      .ok ([.list [.sym "define", .sym "a", .int 1]] ++
        [.list [.sym "set!", .sym "a", .int 2], .sym "a"]) ∧
    bareRun ("(define a 1);x" ++ "\n" ++ "(set! a 2) a") [] =
      (.ok (.int 2), bareStore [(.sym "a", .int 2)]) ∧
    bareRun ("(define a 1);x" ++ "\n" ++ "b (set! a 2)") [] =
      (.error (.unbound (.sym "b")), bareStore [(.sym "a", .int 1)]) ∧
    readAll "(set! a 2) )" = .error (.malformed .unexpectedClosing) ∧
    bareRun "(set! a 2) )" [(.sym "a", .int 1)] =
      (.error (.malformed .unexpectedClosing), bareStore [(.sym "a", .int 1)]) ∧
    ∃ failure, bareRun ("(define a 1);x" ++ "\n" ++ "(set! a 2) )") [] =
      (.error failure, bareStore []) := by
  have front : readAll "(define a 1);x" = .ok [.list [.sym "define", .sym "a", .int 1]] := by cbv
  have back : readAll "(set! a 2) a" =
    .ok [.list [.sym "set!", .sym "a", .int 2], .sym "a"] := by cbv
  have failing : readAll "b (set! a 2)" =
    .ok [.sym "b", .list [.sym "set!", .sym "a", .int 2]] := by cbv
  have stray : readAll "(set! a 2) )" = .error (.malformed .unexpectedClosing) := by cbv
  have defines : bareRun "(define a 1);x" [] =
    (.ok (.sym "a"), bareStore [(.sym "a", .int 1)]) := by cbv
  have assigns : bareRun "(set! a 2) a" [(.sym "a", .int 1)] =
    (.ok (.int 2), bareStore [(.sym "a", .int 2)]) := by cbv
  have fails : bareRun "b (set! a 2)" [(.sym "a", .int 1)] =
    (.error (.unbound (.sym "b")), bareStore [(.sym "a", .int 1)]) := by cbv
  obtain ⟨joined, -, alone⟩ := source_split_at_newline bareSession 50 (bareStore [])
  refine ⟨front, back, defines, assigns, (joined _ _ _ _ front back).1, ?_, ?_, stray,
    (source_split_at_newline bareSession 50 _).2.1 _ _ stray, alone _ _ _ _ front stray⟩
  · obtain ⟨-, -, run⟩ := joined _ _ _ _ front back
    rw [bareRun] at defines ⊢
    rw [run, defines]
    exact assigns
  · obtain ⟨-, -, run⟩ := joined _ _ _ _ front failing
    rw [bareRun] at defines ⊢
    rw [run, defines]
    exact fails

end ThunkLisp
