import ThunkLisp.Failure
import ThunkLisp.Token

/-!
A stream of tokens with one token of look-ahead. If the source can not be split into tokens to its
end, the failure is raised once, by the first request past the last good token; after that the
stream is at its end.
-/

namespace ThunkLisp

/-- The failure of a source that is not tokens to its end. -/
def Lexed.fault? (source : List Char) (lexed : Lexed) : Option Failure :=
  match lexed.unread with
  | [] => none
  | c :: _ => some (.malformed (.unexpectedChar (source.length - lexed.unread.length) c))

structure TokenStream where
  buffered : Option Token
  coming : List Token
  fault : Option Failure

namespace TokenStream

def ofSource (source : List Char) : TokenStream :=
  let lexed := lex source
  ⟨none, lexed.tokens, lexed.fault? source⟩

def waiting (stream : TokenStream) : List Token := stream.buffered.toList ++ stream.coming

def withTokens (stream : TokenStream) (tokens : List Token) : TokenStream :=
  ⟨none, tokens, stream.fault⟩

def ended : TokenStream := ⟨none, [], none⟩

def fetch (stream : TokenStream) : Except Failure (Option Token) × TokenStream :=
  match stream.coming, stream.fault with
  | token :: rest, _ => (.ok (some token), ⟨some token, rest, stream.fault⟩)
  | [], some failure => (.error failure, ended)
  | [], none => (.ok none, ended)

/-- The next token, which stays. -/
def peek (stream : TokenStream) : Except Failure (Option Token) × TokenStream :=
  match stream.buffered with
  | some token => (.ok (some token), stream)
  | none => stream.fetch

/-- The next token, which is taken. -/
def advance (stream : TokenStream) : Except Failure (Option Token) × TokenStream :=
  let (answer, after) := stream.peek
  (answer, { after with buffered := none })

theorem waiting_peek (stream : TokenStream) : stream.peek.2.waiting = stream.waiting := by
  rcases stream with ⟨_ | token, _ | ⟨next, rest⟩, _ | failure⟩ <;>
    simp [peek, fetch, waiting, ended]

theorem waiting_advance (stream : TokenStream) :
    stream.advance.2.waiting = stream.waiting.tail := by
  rcases stream with ⟨_ | token, _ | ⟨next, rest⟩, _ | failure⟩ <;>
    simp [advance, peek, fetch, waiting, ended]

end TokenStream

end ThunkLisp
