import Workflow.Check.Diagnostic

/-!
# Dynamic fields

Inside a payload template a key that ends in `.$` has a dynamic value: a path, which starts with
`$`, or a call of an intrinsic function such as `States.Format('…', $.name)`.  The two path fields
of a Fail state must yield a string, so only some functions are allowed there.
-/

namespace Workflow

namespace Expression

/-- The intrinsic functions. -/
def functions : List Text :=
  ["Array", "ArrayPartition", "ArrayContains", "ArrayRange", "ArrayGetItem", "ArrayLength",
    "ArrayUnique", "Base64Encode", "Base64Decode", "Hash", "JsonMerge", "StringToJson",
    "JsonToString", "MathRandom", "MathAdd", "StringSplit", "UUID", "Format"]

/-- The intrinsic functions that yield a string. -/
def stringFunctions : List Text :=
  ["Format", "JsonToString", "ArrayGetItem", "Base64Encode", "Base64Decode", "Hash", "UUID"]

/-- A path starts with a dollar sign. -/
def isPath (t : Text) : Bool := t.head? == some '$'

/-- A call of one of some functions, trailing blanks aside. -/
def isCallOf (names : List Text) (t : Text) : Bool :=
  let body := t.trimEnd
  names.any fun name =>
    let opening := "States." ++ name ++ "("
    opening.isPrefixOf body && (body.drop opening.length).getLast? == some ')'

/-- A call of an intrinsic function. -/
def isCall (t : Text) : Bool := isCallOf functions t

/-- A call of an intrinsic function that yields a string. -/
def isStringCall (t : Text) : Bool := isCallOf stringFunctions t

/-- Whether a value is a text that is a path or passes a further test. -/
def isDynamic (isCall : Text → Bool) (v : Value) : Bool := v.text?.any fun t => isPath t || isCall t

end Expression

/-- The end of a key that marks a dynamic value. -/
def dynamicSuffix : Text := ".$"

mutual

/-- The dynamic values of a template that are neither a path nor a call. -/
def templateFindings : Tree → List Finding
  | .object _ properties => templateFieldFindings properties
  | _ => []

/-- The findings in the properties of a template.  Below a dynamic key nothing is looked at, and
arrays are not entered. -/
def templateFieldFindings : List (Property Tree) → List Finding
  | [] => []
  | ⟨_, key, _, some t⟩ :: properties =>
    let here :=
      if dynamicSuffix.isSuffixOf key.name then
        if Expression.isDynamic Expression.isCall t.toValue then []
        else [⟨t.span, .invalidExpression⟩]
      else templateFindings t
    here ++ templateFieldFindings properties
  | ⟨_, _, _, none⟩ :: properties => templateFieldFindings properties

end

/-- The findings in the template that a property holds, if it is there. -/
def propertyFindings (p : Option (Property Tree)) : List Finding :=
  match p.bind Property.value with
  | some t => templateFindings t
  | none => []

/-- The findings in the path fields of a Fail state. -/
def failPathFindings (state : Tree) : List Finding :=
  ["ErrorPath", "CausePath"].flatMap fun (name : String) =>
    match (state.property? name).bind Property.value with
    | some t =>
      if Expression.isDynamic Expression.isStringCall t.toValue then []
      else [⟨t.span, .invalidStringExpression⟩]
    | none => []

end Workflow
