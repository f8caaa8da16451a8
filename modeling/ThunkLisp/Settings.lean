import ThunkLisp.Failure
import ThunkLisp.Strategy
import ThunkLisp.Text.Blank
import ThunkLisp.Text.Lowercase

/-!
Settings taken from variables outside the program. Blanks around a setting and its letter case do
not matter, and a blank setting counts as none.
-/

namespace ThunkLisp

abbrev Outside := List (String × String)

/-- The outside variables that choose a session's strategy and its check for unassigned
variables. -/
structure SettingNames where
  strategy : String
  checked : String

namespace Settings

def normalize (text : String) : String :=
  String.ofList (Text.lowercase (Text.strip text.toList))

def given? (outside : Outside) (name : String) : Option String :=
  match outside.lookup name with
  | none => none
  | some raw => if (Text.strip raw.toList).isEmpty then none else some (normalize raw)

def value (outside : Outside) (name fallback : String) : String :=
  (given? outside name).getD fallback

def trueWords : List String := ["1", "true", "yes", "on"]
def falseWords : List String := ["0", "false", "no", "off"]

def flag? (outside : Outside) (name : String) : Except Failure (Option Bool) :=
  match given? outside name with
  | none => .ok none
  | some word =>
      if trueWords.contains word then .ok (some true)
      else if falseWords.contains word then .ok (some false)
      else .error (.notAFlag name word)

def flag (outside : Outside) (name : String) (fallback : Bool) : Except Failure Bool := do
  return (← flag? outside name).getD fallback

def parseStrategy (name : String) : Except Failure Strategy :=
  match Strategy.ofText? (normalize name) with
  | some strategy => .ok strategy
  | none => .error (.unknownStrategy name)

/-- The strategy of sessions that name none: strict if it is not set. -/
def defaultStrategy (names : SettingNames) (outside : Outside) : Except Failure Strategy :=
  parseStrategy (value outside names.strategy "strict")

/-- Whether sessions that do not decide it check for unassigned variables: they do if it is not
set. -/
def defaultChecked (names : SettingNames) (outside : Outside) : Except Failure Bool :=
  flag outside names.checked true

end Settings

end ThunkLisp
