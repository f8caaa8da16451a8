import Mathlib
import ThunkLisp.TokenStream

/-!
What a stream of tokens answers to any sequence of requests. A request is answered from what is
still waiting, so the answers depend only on how many requests before it took a token: tokens come
once and in order, looking ahead changes nothing, and the failure of a source that is not tokens to
its end comes once. The stream is compared with a queue that fills a list from its source, and that
list never holds two tokens.
-/

namespace ThunkLisp

inductive Request where
  | peek
  | advance
  deriving DecidableEq, Repr

abbrev Answer := Except Failure (Option Token)

/-- One of the requests looks for a token after all of them have been taken. -/
def PastLast (tokens : Nat) (requests : List Request) : Prop :=
  ∃ front request back, requests = front ++ request :: back ∧ tokens ≤ front.count .advance

theorem not_pastLast_nil (tokens : Nat) : ¬ PastLast tokens [] := by
  rintro ⟨front, request, back, same, _⟩
  simp at same

theorem pastLast_concat {tokens : Nat} {requests : List Request} {request : Request} :
    PastLast tokens (requests ++ [request]) ↔ tokens ≤ requests.count .advance := by
  constructor
  · rintro ⟨front, other, back, same, taken⟩
    have among : front <+: requests := by
      rcases List.eq_nil_or_concat' back with rfl | ⟨inner, last, rfl⟩
      · obtain ⟨rfl, _⟩ := List.append_inj' same rfl
        exact List.prefix_rfl
      · rw [← List.cons_append, ← List.append_assoc] at same
        obtain ⟨rfl, _⟩ := List.append_inj' same rfl
        exact List.prefix_append _ _
    exact taken.trans (among.sublist.count_le _)
  · intro taken
    exact ⟨requests, request, [], rfl, taken⟩

theorem PastLast.count_le {tokens : Nat} {requests : List Request}
    (past : PastLast tokens requests) :
    tokens ≤ requests.count .advance := by
  obtain ⟨front, request, back, rfl, taken⟩ := past
  rw [List.count_append]
  omega

namespace TokenStream

def serve (stream : TokenStream) : Request → Answer × TokenStream
  | .peek => stream.peek
  | .advance => stream.advance

def after (stream : TokenStream) (requests : List Request) : TokenStream :=
  requests.foldl (fun stream request => (stream.serve request).2) stream

def answers (stream : TokenStream) : List Request → List Answer
  | [] => []
  | request :: rest => (stream.serve request).1 :: (stream.serve request).2.answers rest

def taken (stream : TokenStream) (requests : List Request) : List Token :=
  (requests.zip (stream.answers requests)).filterMap fun
    | (.advance, .ok (some token)) => some token
    | _ => none

def raised (stream : TokenStream) (requests : List Request) : List Failure :=
  (stream.answers requests).filterMap fun
    | .error failure => some failure
    | .ok _ => none

def next (stream : TokenStream) : Answer :=
  match stream.waiting, stream.fault with
  | token :: _, _ => .ok (some token)
  | [], some failure => .error failure
  | [], none => .ok none

theorem serve_answer (stream : TokenStream) (request : Request) :
    (stream.serve request).1 = stream.next := by
  rcases stream with ⟨_ | token, _ | ⟨first, rest⟩, _ | failure⟩ <;> cases request <;> rfl

theorem serve_fault (stream : TokenStream) (request : Request) :
    (stream.serve request).2.fault = if stream.waiting = [] then none else stream.fault := by
  rcases stream with ⟨_ | token, _ | ⟨first, rest⟩, _ | failure⟩ <;> cases request <;> rfl

theorem serve_waiting (stream : TokenStream) (request : Request) :
    (stream.serve request).2.waiting = stream.waiting.drop ([request].count .advance) := by
  cases request with
  | peek => exact stream.waiting_peek
  | advance => rw [List.count_singleton_self, List.drop_one]; exact stream.waiting_advance

theorem after_append (stream : TokenStream) (front back : List Request) :
    stream.after (front ++ back) = (stream.after front).after back := List.foldl_append

theorem after_concat (stream : TokenStream) (front : List Request) (request : Request) :
    stream.after (front ++ [request]) = ((stream.after front).serve request).2 :=
      stream.after_append front [request]

theorem answers_append (stream : TokenStream) (front back : List Request) :
    stream.answers (front ++ back) = stream.answers front ++ (stream.after front).answers back := by
  induction front generalizing stream with
  | nil => rfl
  | cons request rest ih => exact congrArg _ (ih (stream.serve request).2)

theorem answers_length (stream : TokenStream) (requests : List Request) :
    (stream.answers requests).length = requests.length := by
  induction requests generalizing stream with
  | nil => rfl
  | cons request rest ih => exact congrArg (· + 1) (ih (stream.serve request).2)

theorem after_waiting (stream : TokenStream) (requests : List Request) :
    (stream.after requests).waiting = stream.waiting.drop (requests.count .advance) := by
  induction requests using List.reverseRecOn with
  | nil => rfl
  | append_singleton front request ih =>
      rw [after_concat, serve_waiting, ih, List.drop_drop, List.count_append]

theorem after_waiting_eq_nil (stream : TokenStream) (requests : List Request) :
    (stream.after requests).waiting = [] ↔ stream.waiting.length ≤ requests.count .advance := by
  rw [after_waiting, List.drop_eq_nil_iff]

theorem after_fault (stream : TokenStream) (requests : List Request) :
    (PastLast stream.waiting.length requests → (stream.after requests).fault = none) ∧
      (¬ PastLast stream.waiting.length requests → (stream.after requests).fault =
        stream.fault) := by
  induction requests using List.reverseRecOn with
  | nil => exact ⟨fun past => absurd past (not_pastLast_nil _), fun _ => rfl⟩
  | append_singleton front request ih =>
      rw [after_concat, serve_fault, pastLast_concat, ← after_waiting_eq_nil]
      refine ⟨fun past => if_pos past, fun before => ?_⟩
      rw [if_neg before]
      exact ih.2 fun past => before ((stream.after_waiting_eq_nil front).mpr past.count_le)

theorem next_after_of_token (stream : TokenStream) (front : List Request) (token : Token)
    (left : stream.waiting[front.count .advance]? = some token) :
      (stream.after front).next = .ok (some token) := by
  have waits : (stream.after front).waiting.head? = some token := by
    rw [after_waiting, List.head?_drop, left]
  obtain ⟨rest, same⟩ := List.head?_eq_some_iff.mp waits
  simp only [next, same]

theorem next_after_of_first (stream : TokenStream) (front : List Request)
    (needs : stream.waiting.length ≤ front.count .advance)
    (first : ¬ PastLast stream.waiting.length front) :
    (stream.after front).next = match stream.fault with
      | some failure => .error failure
      | none => .ok none := by
  have none_left := (stream.after_waiting_eq_nil front).mpr needs
  have fault := (stream.after_fault front).2 first
  simp only [next, none_left, fault]
  split <;> simp_all

theorem next_after_of_pastLast (stream : TokenStream) (front : List Request)
    (past : PastLast stream.waiting.length front) : (stream.after front).next = .ok none := by
  have none_left := (stream.after_waiting_eq_nil front).mpr past.count_le
  have fault := (stream.after_fault front).1 past
  simp only [next, none_left, fault]

/-- Streams with the same tokens waiting and the same failure behind them can not be told apart. -/
theorem answers_of_alike {stream other : TokenStream} (waiting : stream.waiting = other.waiting)
    (fault : stream.fault = other.fault) (requests : List Request) :
    stream.answers requests = other.answers requests := by
  induction requests generalizing stream other with
  | nil => rfl
  | cons request rest ih =>
      simp only [answers]
      congr 1
      · simp only [serve_answer, next, waiting, fault]
      · exact ih (by simp only [serve_waiting, waiting])
          (by simp only [serve_fault, waiting, fault])

/-- A look ahead that does not fail leaves nothing to be told by. -/
theorem answers_peek {stream : TokenStream} {answer : Option Token}
    (looked : stream.peek.1 = .ok answer) (requests : List Request) :
    stream.peek.2.answers requests = stream.answers requests := by
  apply answers_of_alike stream.waiting_peek
  rw [show stream.peek.2 = (stream.serve .peek).2 from rfl, serve_fault]
  split
  · next none_left =>
      have answered : stream.next = .ok answer := looked ▸ (stream.serve_answer .peek).symm
      rcases fault : stream.fault with _ | failure
      · rfl
      · simp [next, none_left, fault] at answered
  · rfl

theorem next_after_peeks {stream : TokenStream} {answer : Option Token}
    (looked : stream.peek.1 = .ok answer) (more : Nat) :
    (stream.after (List.replicate more .peek)).next = .ok answer := by
  induction more generalizing stream with
  | zero => rw [← looked]; exact (stream.serve_answer .peek).symm
  | succ more ih =>
      have same := List.cons.inj (answers_peek looked [.peek])
      exact ih (same.1.trans looked)

theorem taken_concat (stream : TokenStream) (front : List Request) (request : Request) :
    stream.taken (front ++ [request]) = stream.taken front ++
      match request, (stream.after front).next with
      | .advance, .ok (some token) => [token]
      | _, _ => [] := by
  have zipped : (front ++ [request]).zip (stream.answers (front ++ [request])) =
      front.zip (stream.answers front) ++ [(request, (stream.after front).next)] := by
    rw [answers_append, List.zip_append (stream.answers_length front).symm]
    simp only [answers, serve_answer, List.zip_cons_cons, List.zip_nil_left]
  rw [taken, zipped, List.filterMap_append, taken]
  congr 1
  rcases request with _ | _ <;> rcases (stream.after front).next with _ | _ | _ <;> rfl

theorem raised_concat (stream : TokenStream) (front : List Request) (request : Request) :
    stream.raised (front ++ [request]) = stream.raised front ++
      match (stream.after front).next with
      | .error failure => [failure]
      | .ok _ => [] := by
  rw [raised, answers_append, List.filterMap_append, raised]
  congr 1
  simp only [answers, serve_answer]
  rcases (stream.after front).next with _ | _ <;> rfl

theorem taken_eq_take (stream : TokenStream) (requests : List Request) :
    stream.taken requests = stream.waiting.take (requests.count .advance) := by
  induction requests using List.reverseRecOn with
  | nil => rfl
  | append_singleton front request ih =>
      rw [taken_concat, ih, List.count_append]
      cases request with
      | peek => simp
      | advance =>
          rw [List.count_singleton_self, List.take_add_one]
          congr 1
          rcases left : stream.waiting[front.count .advance]? with _ | token
          · have needs := List.getElem?_eq_none_iff.mp left
            have none_left := (stream.after_waiting_eq_nil front).mpr needs
            rcases fault : (stream.after front).fault with _ | failure <;>
              simp [next, none_left, fault, needs]
          · simp [stream.next_after_of_token front token left, left]

theorem raised_of_not_pastLast (stream : TokenStream) (requests : List Request)
    (before : ¬ PastLast stream.waiting.length requests) : stream.raised requests = [] := by
  induction requests using List.reverseRecOn with
  | nil => rfl
  | append_singleton front request ih =>
      rw [pastLast_concat, Nat.not_le] at before
      rw [raised_concat, ih fun past => absurd past.count_le (by omega),
        stream.next_after_of_token front _ (List.getElem?_eq_getElem before)]
      rfl

theorem raised_of_pastLast (stream : TokenStream) (requests : List Request)
    (past : PastLast stream.waiting.length requests) : stream.raised requests =
      stream.fault.toList := by
  induction requests using List.reverseRecOn with
  | nil => exact absurd past (not_pastLast_nil _)
  | append_singleton front request ih =>
      rw [raised_concat]
      by_cases again : PastLast stream.waiting.length front
      · rw [ih again, stream.next_after_of_pastLast front again]
        exact List.append_nil _
      · rw [stream.raised_of_not_pastLast front again,
          stream.next_after_of_first front (pastLast_concat.mp past) again]
        cases stream.fault <;> rfl

end TokenStream

/-! The list in front of the source. -/

structure TokenSource where
  coming : List Token
  fault : Option Failure

/-- One more token of the source, which is at its end once it has failed. -/
def TokenSource.next : TokenSource → Answer × TokenSource
  | ⟨token :: rest, fault⟩ => (.ok (some token), ⟨rest, fault⟩)
  | ⟨[], some failure⟩ => (.error failure, ⟨[], none⟩)
  | ⟨[], none⟩ => (.ok none, ⟨[], none⟩)

structure TokenQueue where
  buffer : List Token
  source : TokenSource

namespace TokenQueue

def peek (queue : TokenQueue) : Answer × TokenQueue :=
  match queue.buffer with
  | token :: _ => (.ok (some token), queue)
  | [] =>
      match queue.source.next with
      | (.ok (some token), source) => (.ok (some token), ⟨queue.buffer ++ [token], source⟩)
      | (answer, source) => (answer, ⟨queue.buffer, source⟩)

def advance (queue : TokenQueue) : Answer × TokenQueue :=
  match queue.buffer with
  | token :: rest => (.ok (some token), ⟨rest, queue.source⟩)
  | [] => (queue.source.next.1, ⟨queue.buffer, queue.source.next.2⟩)

def serve (queue : TokenQueue) : Request → Answer × TokenQueue
  | .peek => queue.peek
  | .advance => queue.advance

def after (queue : TokenQueue) (requests : List Request) : TokenQueue :=
  requests.foldl (fun queue request => (queue.serve request).2) queue

def answers (queue : TokenQueue) : List Request → List Answer
  | [] => []
  | request :: rest => (queue.serve request).1 :: (queue.serve request).2.answers rest

def ofSource (source : List Char) : TokenQueue :=
  ⟨[], (lex source).tokens, (lex source).fault? source⟩

end TokenQueue

namespace TokenStream

def queue (stream : TokenStream) : TokenQueue :=
  ⟨stream.buffered.toList, stream.coming, stream.fault⟩

theorem queue_serve (stream : TokenStream) (request : Request) :
    stream.queue.serve request = ((stream.serve request).1, (stream.serve request).2.queue) := by
  rcases stream with ⟨_ | token, _ | ⟨first, rest⟩, _ | failure⟩ <;> cases request <;> rfl

theorem queue_answers (stream : TokenStream) (requests : List Request) :
    stream.queue.answers requests = stream.answers requests := by
  induction requests generalizing stream with
  | nil => rfl
  | cons request rest ih => simp only [TokenQueue.answers, answers, queue_serve, ih]

theorem queue_after (stream : TokenStream) (requests : List Request) :
    stream.queue.after requests = (stream.after requests).queue := by
  induction requests generalizing stream with
  | nil => rfl
  | cons request rest ih =>
      simp only [TokenQueue.after, after, List.foldl_cons, queue_serve]
      exact ih (stream.serve request).2

theorem queue_buffer_length (stream : TokenStream) : stream.queue.buffer.length ≤ 1 := by
  rcases stream with ⟨_ | token, _, _⟩
  · exact Nat.zero_le 1
  · exact Nat.le_refl 1

end TokenStream

/-- What the stream of a source answers to requests, the calls of a parser or any others. -/
structure Delivers (source : List Char) (requests : List Request) : Prop where
  inOrder : (TokenStream.ofSource source).taken requests =
    (lex source).tokens.take (requests.count .advance)
  given : ∀ front request back, requests = front ++ request :: back →
    ∀ token, (lex source).tokens[front.count .advance]? = some token →
      (((TokenStream.ofSource source).after front).serve request).1 = .ok (some token)
  /-- A look ahead that does not fail finds what is taken next, and later answers are as without it.
  -/
  looked : ∀ front back answer, requests = front ++ .peek :: back →
    ((TokenStream.ofSource source).after front).peek.1 = .ok answer →
      (∀ more, ((TokenStream.ofSource source).after
        (front ++ .peek :: List.replicate more .peek)).advance.1 =
        .ok answer) ∧
      ((TokenStream.ofSource source).after (front ++ [.peek])).answers back =
        ((TokenStream.ofSource source).after front).answers back
  /-- A list in front of the source would do, and holds one token at most. -/
  buffer : (TokenQueue.ofSource source).answers requests =
    (TokenStream.ofSource source).answers requests ∧
    ∀ front, front <+: requests → ((TokenQueue.ofSource source).after front).buffer.length ≤ 1
  /-- The first request past the last token. -/
  first : ∀ front request back, requests = front ++ request :: back →
    (lex source).tokens.length ≤ front.count .advance →
      ¬ PastLast (lex source).tokens.length front →
      (TokenStream.ofSource source).raised front = [] ∧
      (((TokenStream.ofSource source).after front).serve request).1 =
        match (lex source).fault? source with
        | some failure => .error failure
        | none => .ok none
  /-- All requests after that one. -/
  ended : ∀ front request back, requests = front ++ request :: back →
    PastLast (lex source).tokens.length front →
      (((TokenStream.ofSource source).after front).serve request).1 = .ok none
  once : (PastLast (lex source).tokens.length requests →
      (TokenStream.ofSource source).raised requests = ((lex source).fault? source).toList) ∧
    (¬ PastLast (lex source).tokens.length requests → (TokenStream.ofSource source).raised
      requests = [])

/-- Whatever is asked of the stream of a source, in whatever order, it takes the tokens of the
source once and in order, looking ahead changes nothing but for a failure, and a failure of the
source comes once, after the last token. -/
theorem tokens_delivered_once_in_order (source : List Char) (requests : List Request) :
    Delivers source requests := by
  let stream := TokenStream.ofSource source
  constructor
  case inOrder => exact stream.taken_eq_take requests
  case given =>
    rintro front request back - token left
    rw [TokenStream.serve_answer]
    exact stream.next_after_of_token front token left
  case looked =>
    rintro front back answer - looked
    constructor
    · intro more
      rw [show front ++ .peek :: List.replicate more .peek = front ++
        List.replicate (more + 1) .peek from rfl, TokenStream.after_append]
      exact (TokenStream.serve_answer _ .advance).trans
        (TokenStream.next_after_peeks looked (more + 1))
    · rw [TokenStream.after_concat]
      exact TokenStream.answers_peek looked back
  case buffer =>
    have same : TokenQueue.ofSource source = stream.queue := rfl
    rw [same]
    refine ⟨stream.queue_answers requests, fun front _ => ?_⟩
    rw [stream.queue_after]
    exact (stream.after front).queue_buffer_length
  case first =>
    rintro front request back - needs first
    rw [TokenStream.serve_answer]
    exact ⟨stream.raised_of_not_pastLast front first, stream.next_after_of_first front needs first⟩
  case ended =>
    rintro front request back - past
    rw [TokenStream.serve_answer]
    exact stream.next_after_of_pastLast front past
  case once => exact ⟨stream.raised_of_pastLast requests, stream.raised_of_not_pastLast requests⟩

/-- An opening parenthesis before a string literal without an end. -/
example : (TokenStream.ofSource ['(', '"']).answers [.peek, .peek, .advance, .peek, .advance] =
    [.ok (some .opening), .ok (some .opening), .ok (some .opening),
      .error (.malformed (.unexpectedChar 1 '"')), .ok none] := by cbv

end ThunkLisp
