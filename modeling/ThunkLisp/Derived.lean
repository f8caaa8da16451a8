import ThunkLisp.Failure

/-!
Derived forms, as expansions of their operands into simpler forms. Nothing is evaluated here, so a
malformed form fails before anything has happened.
-/

namespace ThunkLisp

/-- The derived forms. A named `let` without a name is a plain one. -/
inductive Derived where
  | cond
  | conjunction
  | disjunction
  | unless
  | plainLet
  | namedLet
  | letStar
  | letrec
  deriving DecidableEq, Repr

namespace Derived

/-- A body as one expression: nil, its only form, or a sequence. -/
def body : List Value → Value
  | [] => .nil
  | [form] => form
  | forms => .list (.sym "begin" :: forms)

def isElse : Value → Bool
  | .sym name => name == "else"
  | _ => false

/-- Clauses are lists that are not empty, and `else` starts none but the last. -/
def checkClauses (all : List Value) : List Value → Except Failure Unit
  | [] => .ok ()
  | .list (test :: _) :: rest =>
      if isElse test && !rest.isEmpty then .error (.misplacedElse all) else checkClauses all rest
  | clause :: _ => .error (.malformed (.condClause clause))

def condTree : List Value → Value
  | .list (test :: actions) :: rest =>
      if isElse test then body actions
      else .list [.sym "if", test, body actions, condTree rest]
  | _ => .bool false

def expandCond (clauses : List Value) : Except Failure Value := do
  checkClauses clauses clauses
  return condTree clauses

/-- An operand that decides the outcome is written twice, as the test and as the result. -/
def expandConjunction : List Value → Value
  | [] => .bool true
  | [form] => form
  | form :: rest => .list [.sym "if", form, expandConjunction rest, form]

def expandDisjunction : List Value → Value
  | [] => .nil
  | [form] => form
  | form :: rest => .list [.sym "if", form, form, expandDisjunction rest]

def expandUnless : List Value → Except Failure Value
  | [test, usual] => .ok (.list [.sym "if", test, .nil, usual])
  | [test, usual, exceptional] => .ok (.list [.sym "if", test, exceptional, usual])
  | _ => .error (.malformed .unlessOperands)

def splitBindings : List Value → Except Failure (List (String × Value))
  | [] => .ok []
  | .list [.sym name, value] :: rest => do return (name, value) :: (← splitBindings rest)
  | entry :: _ => .error (.malformed (.binding entry))

/-- The binding list in front of a body, with its entries, and the body. -/
def splitOperands (form : String) :
    List Value → Except Failure (List Value × List (String × Value) × List Value)
  | [] => .error (.malformed (.missingBindings form))
  | .list bindings :: forms => do return (bindings, ← splitBindings bindings, forms)
  | bindings :: _ => .error (.malformed (.bindingList bindings))

def symbols (entries : List (String × Value)) : List Value := entries.map fun entry => .sym entry.1

def values (entries : List (String × Value)) : List Value := entries.map (·.2)

/-- A procedure of the names, applied to the values. -/
def expandLet (operands : List Value) : Except Failure Value := do
  let (_, entries, forms) ← splitOperands "let" operands
  return .list (.list (.sym "lambda" :: .list (symbols entries) :: forms) :: values entries)

/-- One `let` inside the other for each binding; at least one. -/
def nestLets (forms : List Value) : List Value → Value
  | entry :: next :: rest => .list [.sym "let", .list [entry], nestLets forms (next :: rest)]
  | bindings => .list (.sym "let" :: .list bindings :: forms)

def expandLetStar (operands : List Value) : Except Failure Value := do
  let (bindings, _, forms) ← splitOperands "let*" operands
  return nestLets forms bindings

/-- The loop is defined in a frame of its own, where the initial values do not see it. -/
def expandNamedLet : List Value → Except Failure Value
  | .sym name :: operands => do
      let (_, entries, forms) ← splitOperands "named let" operands
      let loop := .list (.sym "define" :: .list (.sym name :: symbols entries) :: forms)
      return .list (.list [.list [.sym "lambda", .list [], loop, .sym name]] :: values entries)
  | operands => expandLet operands

/-- All names are bound, unassigned, before any value is computed; then they are assigned in
order. -/
def expandLetrec (operands : List Value) : Except Failure Value := do
  let (_, entries, forms) ← splitOperands "letrec" operands
  let placeholders := entries.map fun entry =>
    .list [.sym entry.1, .list [.sym "quote", .unassigned]]
  let assignments := entries.map fun entry => .list [.sym "set!", .sym entry.1, entry.2]
  return .list (.sym "let" :: .list placeholders :: (assignments ++ forms))

def expand : Derived → List Value → Except Failure Value
  | .cond, operands => expandCond operands
  | .conjunction, operands => .ok (expandConjunction operands)
  | .disjunction, operands => .ok (expandDisjunction operands)
  | .unless, operands => expandUnless operands
  | .plainLet, operands => expandLet operands
  | .namedLet, operands => expandNamedLet operands
  | .letStar, operands => expandLetStar operands
  | .letrec, operands => expandLetrec operands

end Derived

end ThunkLisp
