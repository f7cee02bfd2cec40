import Workflow.Document.Focus
import Workflow.Scope.Resolve

/-!
# Completing variables

The variables that can be typed in a field: those in scope at the enclosing state, and the
reserved tree `states` with the parts that the field allows.  What has been typed up to its last
point is a path into that tree; the names found there are the candidates.
-/

namespace Workflow

namespace Completion

/-- Names without known structure. -/
def leaves (names : List String) : Value :=
  .obj (names.map fun name => (Text.ofString name, .null))

/-- A tree with one name. -/
def branch (name : String) (v : Value) : Value := .obj [(Text.ofString name, v)]

/-- The tree of the context object. -/
def contextTree : Value :=
  .obj
    [("Execution",
        leaves ["Id", "Input", "Name", "RoleArn", "StartTime", "RedriveCount", "RedriveTime"]),
      ("State", leaves ["EnteredTime", "Name", "RetryCount"]),
      ("StateMachine", leaves ["Id", "Name"]),
      ("Task", leaves ["Token"])]

/-- What the context object holds besides while items are selected. -/
def itemTree : Value := branch "Map" (branch "Item" (leaves ["Index", "Value"]))

/-- The use of a field, as far as reserved variables depend on it. -/
structure FieldUse where
  inCatch : Bool
  onSuccess : Bool
  selectsItems : Bool
  /-- The type of the enclosing state. -/
  stateType : Value

/-- The types of states that have a result. -/
def hasResult (type : Value) : Bool :=
  type.text?.any fun t =>
    [StateKind.map, .task, .parallel].any fun kind => kind.word == t

/-- The reserved variables in a field. -/
def reserved (use : FieldUse) : Value :=
  let context := if use.selectsItems then KeyTree.merge contextTree itemTree else contextTree
  let base : Value := branch "states" (.obj [("input", .null), ("context", context)])
  if use.inCatch then KeyTree.merge base (branch "states" (leaves ["errorOutput"]))
  else if use.onSuccess && hasResult use.stateType then
    KeyTree.merge base (branch "states" (leaves ["result"]))
  else base

/-- The use that is assumed when nothing is known about a field. -/
def plainUse : FieldUse := ⟨false, false, false, .str StateKind.task.word⟩

/-! ## Paths into a tree -/

/-- A step of a typed path: a name, or the digits of an index. -/
inductive Step where
  | name (t : Text)
  | index (digits : Text)
  deriving DecidableEq, Repr

/-- A code point of a name. -/
def isNamePoint (c : CodePoint) : Bool := !(c == '.' || c == '[' || c == ']')

/-- The digits of an index in brackets at the start of a text, and what follows. -/
def bracketed? (t : Text) : Option (Text × Text) :=
  match t with
  | c :: rest =>
    let digits := rest.takeWhile CodePoint.isDecimal
    match rest.dropWhile CodePoint.isDecimal with
    | d :: after => if c == '[' && !digits.isEmpty && d == ']' then some (digits, after) else none
    | [] => none
  | [] => none

/-- The steps of a typed path.  Points, and brackets that hold no index, only divide. -/
def stepsFrom : Nat → Text → List Step
  | 0, _ => []
  | _ + 1, [] => []
  | fuel + 1, c :: rest =>
    if isNamePoint c then
      .name ((c :: rest).takeWhile isNamePoint) ::
        stepsFrom fuel ((c :: rest).dropWhile isNamePoint)
    else
      match bracketed? (c :: rest) with
      | some (digits, after) => .index digits :: stepsFrom fuel after
      | none => stepsFrom fuel rest

/-- The steps of a typed path. -/
def steps (t : Text) : List Step := stepsFrom t.length t

/-- What a list of steps leads to; null when it leads nowhere. -/
def followSteps : Value → List Step → Except Fault Value
  | v, [] => .ok v
  | v, .name t :: rest =>
    match v.get? t with
    | some w => followSteps w rest
    | none => .ok .null
  | v, .index digits :: rest =>
    match v.items? with
    | none => .ok .null
    | some items =>
      match Numeral.integer 10 digits with
      | .error fault => .error fault
      | .ok n =>
        match items[n.toNat]? with
        | some w => followSteps w rest
        | none => .ok .null

/-- Candidates for what is being typed. -/
structure Candidates where
  /-- The path of the object whose names are offered; empty at the top. -/
  parentPath : Text
  items : List Text

/-- The text before the last point, and whether there is a point. -/
def parentOf (typed : Text) : Text × Bool :=
  let pieces := Text.splitOn '.' typed
  (Text.joinWith "." pieces.dropLast, decide (1 < pieces.length))

/-- A tree that counts as present, or the empty one. -/
def orEmpty (v : Value) : Value := if v.truthy then v else KeyTree.empty

/-- All variables that can be typed. -/
def allVariables (scope : VariableScope) (reserved : Value) : Value :=
  KeyTree.merge (KeyTree.merge (orEmpty scope.outer) (orEmpty scope.own)) reserved

/-- The candidates for a typed text.  Names at the top are offered with a dollar sign, and the mark
of a dynamic value at the end of a name is dropped. -/
def candidates (typed : Text) (scope : VariableScope) (reserved : Value) :
    Except Fault Candidates := do
  let (parent, hasParent) := parentOf (Text.replaceFirst "$" "" typed)
  let all := allVariables scope reserved
  let found ← if parent.isEmpty then pure all else followSteps all (steps parent)
  let sign : Text := if hasParent then "" else "$"
  let names := (found.fields?.getD []).names
  pure ⟨parent, names.map fun name => sign ++ Text.replaceFirst ".$" "" name⟩

/-- The candidates for a typed value, which has to be a text. -/
def candidates? (typed : Value) (scope : VariableScope) (reserved : Value) :
    Except Fault Candidates :=
  match typed with
  | .str t => candidates t scope reserved
  | v => .error (.noFields v.kind)

/-! ## Fields -/

/-- The fields that make up the input of a state. -/
def inputFields : List Text := ["Parameters", "InputPath", "Arguments"]

/-- The fields that are evaluated after a state succeeded. -/
def successFields : List Text := ["Output", "Assign", "ResultSelector", "OutputPath"]

/-- The fields that hold rules for errors. -/
def errorFields : List Text := ["Catch"]

/-- The fields that select items. -/
def itemFields : List Text := ["ItemSelector"]

/-- All fields that accept variables. -/
def variableFields : List Text :=
  inputFields ++ successFields ++ errorFields ++ itemFields

/-- The use of the field around a place; nothing outside of every field that accepts variables. -/
def useAt? (f : Focus) (info : Focus.StateInfo) : Option FieldUse :=
  (f.closest? variableFields).map fun fieldFocus =>
    let name := fieldFocus.part.propertyName?.getD []
    let inCatch := (f.closest? errorFields).isSome
    { inCatch := inCatch
      onSuccess := !inCatch && successFields.contains name
      selectsItems := itemFields.contains name
      stateType := if info.type.text?.isSome then info.type else .str StateKind.task.word }

/-- The candidates at a place of a document that describes a workflow.  `typed` replaces the text of
the place. -/
def at? (f : Focus) (workflow : Value) (entries : Predecessors) (typed : Option Value) :
    Except Fault (Option Candidates) :=
  match f.stateInfo? with
  | none => .ok none
  | some info =>
    match useAt? f info with
    | none => .ok none
    | some use => do
      let path := Reference.path info.path
      let scope ← variableScope workflow entries path (some path)
      let value := typed.getD (.str (f.part.toValue.text?.getD []))
      let found ← candidates? value scope (reserved use)
      pure (some found)

end Completion

end Workflow
