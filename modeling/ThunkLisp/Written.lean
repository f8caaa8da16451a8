import ThunkLisp.Decimal.Layout
import ThunkLisp.Failure
import ThunkLisp.Store
import ThunkLisp.Text.Quoted

/-!
The text of values, in two ways: written, with quoted texts and marked symbols, as messages show
them; and displayed, where a text or a symbol on its own stands for itself. A value that holds a
whole number with too many digits has no text, nor has one with too many lists inside each other.
-/

namespace ThunkLisp

def ParamMode.text : ParamMode → String
  | .strict => "strict"
  | .lazy => "lazy"
  | .lazyMemo => "lazy-memo"

/-- A strict parameter is its name alone. -/
def Param.text (param : Param) : String :=
  if param.mode = .strict then param.name else "(" ++ param.name ++ " " ++ param.mode.text ++ ")"

/-- A procedure shows its parameters and hides its body. -/
def procedureText (params : List Param) : String :=
  "(λ (" ++ " ".intercalate (params.map Param.text) ++ ") ...)"

def intText (n : Int) : String :=
  String.ofList ((if n < 0 then ['-'] else []) ++ Nat.toDigits 10 n.natAbs)

namespace Value

mutual

/-- Whether two values count as one in texts: when they are the same, and doubles when they agree
in every bit. -/
def alike : Value → Value → Bool
  | .float x, .float y => x.toBits == y.toBits
  | .list xs, .list ys => alikeItems xs ys
  | a, b => a.same b

def alikeItems : List Value → List Value → Bool
  | [], [] => true
  | x :: xs, y :: ys => x.alike y && alikeItems xs ys
  | _, _ => false

end

/-- How many lists inside each other are written. -/
def writtenLimit : Nat := 1000

mutual

/-- The written form of a value, given the texts of suspensions inside lists. By way of a kept
suspension a list can stand inside itself, where it is not written again: `near` are the lists
around the value up to the innermost suspension, `far` those around that one. -/
def writtenWith (thunkText : List Value → ThunkId → Except Failure String) (far near : List Value) :
    Value → Except Failure String
  | .nil => .ok "nil"
  | .absent => .ok "None"
  | .bool true => .ok "True"
  | .bool false => .ok "False"
  | .int n => if n.natAbs < 10 ^ Number.digitLimit then .ok (intText n) else .error .notWritable
  | .float x => .ok (Decimal.standard.text x)
  | .nan _ => .ok "nan"
  | .str text => .ok (Text.quoted text)
  | .sym name => .ok ("Symbol(" ++ Text.quoted name ++ ")")
  | .list items =>
      if writtenLimit ≤ near.length + far.length then .error .recursion
      else if far.any (Value.alike (.list items)) then .ok "[...]"
      else (writtenItems thunkText far (.list items :: near) items).map fun texts =>
        "[" ++ ", ".intercalate texts ++ "]"
  | .unassigned => .ok "<unassigned>"
  | .foreign object => .ok object.text
  | .primitive p => .ok ("<primitive " ++ p.name ++ ">")
  | .procedure _ params _ _ => .ok (procedureText params)
  | .thunk id => thunkText (near ++ far) id

def writtenItems (thunkText : List Value → ThunkId → Except Failure String)
    (far near : List Value) : List Value → Except Failure (List String)
  | [] => .ok []
  | item :: rest => do
      let text ← writtenWith thunkText far near item
      return text :: (← writtenItems thunkText far near rest)

end

end Value

namespace Store

/-- The text of a suspension inside lists: its code, or its value once it is kept. Suspensions are
opened to the given depth. -/
def thunkTextWithin (store : Store) : Nat → List Value → ThunkId → Except Failure String
  | 0, _, _ => .ok "<thunk ...>"
  | depth + 1, around, id =>
      match store.thunk id with
      | .waiting code _ _ =>
          (code.writtenWith (store.thunkTextWithin depth) around []).map fun text =>
            "<thunk " ++ text ++ ">"
      | .settled value =>
          (value.writtenWith (store.thunkTextWithin depth) around []).map fun text =>
            "<thunk = " ++ text ++ ">"

/-- No suspension is opened inside itself more than once, so twice their number is deep enough. -/
def written (store : Store) (value : Value) : Except Failure String :=
  value.writtenWith (store.thunkTextWithin (2 * store.thunks.size)) [] []

def written? (store : Store) (value : Value) : Option String := (store.written value).toOption

def displayed (store : Store) : Value → Except Failure String
  | .str text => .ok text
  | .sym name => .ok name
  | value => store.written value

def displayed? (store : Store) (value : Value) : Option String := (store.displayed value).toOption

def entryText? (store : Store) (entry : Value × Value) : Option String := do
  return (← store.displayed? entry.1) ++ ": " ++ (← store.written? entry.2)

/-- The bindings of a frame, and whether there are frames around it. -/
def frameText? (store : Store) (id : FrameId) : Option String := do
  let entries ← (store.frame id).bindings.mapM store.entryText?
  let around := if (store.frame id).outer.isSome then " -> ..." else ""
  return "\x7b" ++ ", ".intercalate entries ++ "\x7d" ++ around

/-- A frame in short: how many frames are around it and how many names it binds. -/
def frameSummary (store : Store) (id : FrameId) : String :=
  "<Environment depth=" ++ intText (store.depth id) ++ " vars=" ++
    intText (store.frame id).bindings.length ++ ">"

end Store

end ThunkLisp
