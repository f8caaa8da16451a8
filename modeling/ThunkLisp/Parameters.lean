import ThunkLisp.Failure

/-!
Parameter lists: a parameter is its name, or a list of its name and its mode. No name stands twice.
-/

namespace ThunkLisp

def ParamMode.ofText? : String → Option ParamMode
  | "strict" => some .strict
  | "lazy" => some .lazy
  | "lazy-memo" => some .lazyMemo
  | _ => none

def ParamMode.ofValue? : Value → Option ParamMode
  | .sym word | .str word => ofText? word
  | _ => none

def parseParam : Value → Except Malformed Param
  | .sym name => .ok ⟨name, .strict⟩
  | .list [.sym name, mode] =>
      match ParamMode.ofValue? mode with
      | some found => .ok ⟨name, found⟩
      | none => .error (.paramMode mode name)
  | spec => .error (.param spec)

def parseParamItems : List Value → Except Malformed (List Param)
  | [] => .ok []
  | spec :: rest => do return (← parseParam spec) :: (← parseParamItems rest)

def parseParams : Value → Except Malformed (List Param)
  | .list specs => do
      let params ← parseParamItems specs
      if (params.map Param.name).Nodup then return params
      else throw (.duplicateParam (.list specs))
  | spec => .error (.paramList spec)

end ThunkLisp
