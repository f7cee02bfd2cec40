import Workflow.Report.Style
import Workflow.Scope.Resolve

/-!
# Drawings of scopes

A scope is drawn as a tree of its names and indexes, one to a line.  Each level below the first is
indented by four columns: a bar where siblings follow further down, blanks where none do.  Then
comes the connector of the entry, a blank, and its label.
-/

namespace Workflow

namespace Drawing

/-- The connector of an entry. -/
def connector (isLast : Bool) : Text := if isLast then "└──" else "├──"

/-- What stands below the connector of an entry. -/
def continuation (isLast : Bool) : Text := if isLast then "   " else "│  "

/-- The line of an entry. -/
def entry (margin : Text) (isLast : Bool) (label : Text) : Text :=
  margin ++ connector isLast ++ " " ++ label

/-- The margin of the entries below an entry. -/
def inner (margin : Text) (isLast : Bool) : Text := margin ++ continuation isLast ++ " "

/-- The label of the item at a position of an array. -/
def itemLabel (i : Nat) : Text := "[" ++ Text.ofNat i ++ "]"

mutual

/-- The lines below an entry. -/
def lines (margin : Text) : Value → List Text
  | .arr items => itemLines margin 0 items
  | .obj fields => fieldLines margin fields
  | _ => []

/-- The lines of the items of an array from a position on. -/
def itemLines (margin : Text) (i : Nat) : List Value → List Text
  | [] => []
  | v :: items =>
    entry margin items.isEmpty (itemLabel i) ::
      (lines (inner margin items.isEmpty) v ++ itemLines margin (i + 1) items)

/-- The lines of the fields of an object. -/
def fieldLines (margin : Text) : List (Text × Value) → List Text
  | [] => []
  | (name, v) :: fields =>
    entry margin fields.isEmpty name ::
      (lines (inner margin fields.isEmpty) v ++ fieldLines margin fields)

end

/-- A line with its variable painted: everything from the first dollar sign on. -/
def paintVariable (style : ReportStyle) (line : Text) : Text :=
  match line.positionOf? '$' with
  | none => line
  | some i => line.take i ++ style.paint Terminal.yellow (line.drop i)

/-- The drawing of one scope.  The names at the top are variables and get their dollar sign. -/
def scope (style : ReportStyle) (icon title color : Text) (tree : Value) :
    Except Fault (List Text) :=
  let heading := style.icon icon ++ style.paint color title
  if tree.truthy then
    match tree.fields? with
    | some fields =>
      let named := fields.map fun (name, v) => ('$' :: name, v)
      .ok (heading :: (fieldLines [] named).map (paintVariable style))
    | none => .error (.noFields tree.kind)
  else
    .ok [heading, style.margin ++ style.icon "📭" ++ style.paint Terminal.dim "(no variables)"]

/-- The drawing of the variables in scope at a state, which may be named in front. -/
def text (style : ReportStyle) (state : Option Text) (bound : VariableScope) :
    Except Fault Text := do
  let heading :=
    match state with
    | none | some [] => []
    | some t => [style.icon "📍" ++ style.paint Terminal.boldCyan t]
  let own ← scope style "📦" "Local scope" Terminal.brightGreen bound.own
  let outer ← scope style "🌐" "Outer scope" Terminal.brightCyan bound.outer
  pure (Text.joinWith "\n" (heading ++ own ++ outer))

end Drawing

end Workflow
