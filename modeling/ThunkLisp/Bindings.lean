import ThunkLisp.Equality

/-!
Ordered bindings of names to values. A name that is bound again keeps its place and takes the new
value. Names are compared like the elements of lists, which for symbols is equality.
-/

namespace ThunkLisp

abbrev Bindings := List (Value × Value)

namespace Bindings

def find? (bindings : Bindings) (name : Value) : Option Value :=
  (List.find? (fun entry => entry.1.same name) bindings).map (·.2)

def binds (bindings : Bindings) (name : Value) : Bool := (bindings.find? name).isSome

def put (bindings : Bindings) (name value : Value) : Bindings :=
  match bindings with
  | [] => [(name, value)]
  | entry :: rest =>
      if entry.1.same name then (entry.1, value) :: rest else entry :: put rest name value

def ofList (entries : List (Value × Value)) : Bindings :=
  entries.foldl (fun bindings entry => bindings.put entry.1 entry.2) []

theorem find?_put_self (bindings : Bindings) (name : String) (value : Value) :
    (bindings.put (.sym name) value).find? (.sym name) = some value := by
  induction bindings with
  | nil => simp [put, find?, Value.same_sym_right]
  | cons entry rest ih =>
      by_cases here : entry.1.same (.sym name) = true
      · simp [put, find?, here]
      · simp only [find?] at ih
        simp [put, find?, here, ih]

theorem find?_put_of_ne (bindings : Bindings) (name other : String) (value : Value)
    (different : other ≠ name) :
    (bindings.put (.sym name) value).find? (.sym other) = bindings.find? (.sym other) := by
  induction bindings with
  | nil => simp [put, find?, Value.same_sym_right, Ne.symm different]
  | cons entry rest ih =>
      by_cases here : entry.1.same (.sym name) = true
      · have key := (Value.same_sym_right name entry.1).mp here
        have apart : ¬ entry.1.same (.sym other) = true := by
          simp [Value.same_sym_right, key, Ne.symm different]
        simp [put, find?, here, apart]
      · simp only [find?] at ih
        by_cases there : entry.1.same (.sym other) = true
        · simp [put, find?, here, there]
        · simp [put, find?, here, there, ih]

end Bindings

end ThunkLisp
