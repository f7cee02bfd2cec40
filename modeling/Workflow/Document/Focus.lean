import Workflow.Document.Tree
import Workflow.Fault
import Workflow.State.Path

/-!
# Places in a document

A focus is a part of a document tree together with everything around it: the parts that enclose
it, innermost first, each with the position of the part below.  Looking upward answers which
state a place belongs to and what the path of that state is.
-/

namespace Workflow

/-- A part of a document tree. -/
inductive Part where
  | tree (t : Tree)
  | property (p : Property Tree)
  | key (k : Key)

namespace Part

/-- The span of a part. -/
def span : Part → Span
  | .tree t => t.span
  | .property p => p.span
  | .key k => k.span

/-- The value of a part. -/
def toValue : Part → Value
  | .tree t => t.toValue
  | .property p => p.toValue
  | .key k => .str k.name

/-- The parts directly inside a part. -/
def children : Part → List Part
  | .tree (.array _ items) => items.map .tree
  | .tree (.object _ properties) => properties.map .property
  | .tree _ => []
  | .property p => .key p.key :: (p.value.map .tree).toList
  | .key _ => []

/-- The property that a part is, if it is one. -/
def property? : Part → Option (Property Tree)
  | .property p => some p
  | _ => none

/-- The tree that a part is, if it is one. -/
def tree? : Part → Option Tree
  | .tree t => some t
  | _ => none

/-- The name of a property. -/
def propertyName? (part : Part) : Option Text := part.property?.map fun p => p.key.name

/-- Whether a part is a property of a given name. -/
def isNamed (part : Part) (name : Text) : Bool := part.propertyName? == some name

/-- Whether a part is an object. -/
def isObject (part : Part) : Bool := part.tree?.any Tree.isObject

/-- Whether a part is an array. -/
def isArray (part : Part) : Bool := part.tree?.any fun t => t.items?.isSome

/-- The word for the kind of a part. -/
def kindWord : Part → Text
  | .tree (.null _) => "null"
  | .tree (.boolean _ _) => "boolean"
  | .tree (.number _ _) => "number"
  | .tree (.string _ _) => "string"
  | .tree (.array _ _) => "array"
  | .tree (.object _ _) => "object"
  | .property _ => "property"
  | .key _ => "string"

/-- A one-line description of a part. -/
def describe (part : Part) : Text :=
  let kind : Text :=
    match part.kindWord with
    | [] => []
    | c :: rest => CodePoint.ofNatD (c.val - 32) :: rest
  kind ++ "Node(offset=" ++ Text.ofNat part.span.offset ++ ", length=" ++
    Text.ofInt part.span.length ++ ")"

end Part

/-- A part together with the parts around it, innermost first.  The numbers are the positions of
the parts below. -/
structure Focus where
  part : Part
  above : List (Part × Nat)

namespace Focus

/-- The focus on a whole document. -/
def root (t : Tree) : Focus := ⟨.tree t, []⟩

/-- The focus on what directly encloses a part. -/
def parent? (f : Focus) : Option Focus :=
  match f.above with
  | [] => none
  | (part, _) :: above => some ⟨part, above⟩

/-- The focus some levels further up. -/
def up? (f : Focus) : Nat → Option Focus
  | 0 => some f
  | n + 1 => f.parent?.bind fun g => g.up? n

/-- The foci on the parts directly inside. -/
def children (f : Focus) : List Focus :=
  f.part.children.zipIdx.map fun (part, i) => ⟨part, (f.part, i) :: f.above⟩

/-- The focus on the value of a property; any other focus stays. -/
def value? (f : Focus) : Option Focus :=
  match f.part with
  | .property p => p.value.map fun t => ⟨.tree t, (f.part, 1) :: f.above⟩
  | _ => some f

/-- The focus on the first property with a name. -/
def property? (f : Focus) (name : Text) : Option Focus :=
  f.children.find? fun g => g.part.isNamed name

/-- The focus on an item of an array. -/
def item? (f : Focus) (i : Nat) : Option Focus := if f.part.isArray then f.children[i]? else none

/-- The focus that a list of names and indexes leads to.  A name takes the first property of that
name; a step after a property goes on from its value. -/
def follow? : Focus → Path → Option Focus
  | f, [] => some f
  | f, step :: path =>
    match f.value? with
    | none => none
    | some g =>
      let next := match step with
        | .name name => g.property? name
        | .index i => if i < 0 then none else g.item? i.toNat
        | .other _ => none
      match next with
      | none => none
      | some h => follow? h path

/-! ## Looking down -/

mutual

/-- The innermost focus at a location within a tree that contains it. -/
def innermost (location : Int) (above : List (Part × Nat)) : Tree → Focus
  | .array span items =>
    let part := Part.tree (.array span items)
    (innermostItem location part above 0 items).getD ⟨part, above⟩
  | .object span properties =>
    let part := Part.tree (.object span properties)
    (innermostProperty location part above 0 properties).getD ⟨part, above⟩
  | t => ⟨.tree t, above⟩

/-- The innermost focus within the first item that contains a location. -/
def innermostItem (location : Int) (part : Part) (above : List (Part × Nat)) :
    Nat → List Tree → Option Focus
  | _, [] => none
  | i, t :: items =>
    if t.span.contains location then some (innermost location ((part, i) :: above) t)
    else innermostItem location part above (i + 1) items

/-- The innermost focus within the first property that contains a location. -/
def innermostProperty (location : Int) (part : Part) (above : List (Part × Nat)) :
    Nat → List (Property Tree) → Option Focus
  | _, [] => none
  | i, ⟨span, key, colon, value⟩ :: properties =>
    if span.contains location then
      let here := Part.property ⟨span, key, colon, value⟩
      let around := (part, i) :: above
      if key.span.contains location then some ⟨.key key, (here, 0) :: around⟩
      else
        match value with
        | some t =>
          if t.span.contains location then some (innermost location ((here, 1) :: around) t)
          else some ⟨here, around⟩
        | none => some ⟨here, around⟩
    else innermostProperty location part above (i + 1) properties

end

/-- The innermost part of a document at a location. -/
def at? (root : Option Tree) (location : Int) : Option Focus :=
  match root with
  | some t => if t.span.contains location then some (innermost location [] t) else none
  | none => none

/-! ## Looking up -/

/-- The nearest enclosing property, the place itself included, with one of some names. -/
def closestFrom (names : List Text) : Part → List (Part × Nat) → Option Focus
  | part, above =>
    if part.propertyName?.any names.contains then some ⟨part, above⟩
    else
      match above with
      | [] => none
      | (outer, _) :: rest => closestFrom names outer rest
termination_by structural _ above => above

/-- The nearest enclosing property with one of some names. -/
def closest? (f : Focus) (names : List Text) : Option Focus := closestFrom names f.part f.above

/-- The object that holds the state declarations of a scope. -/
def holdsStates (f : Focus) : Bool := f.parent?.any fun g => g.part.isNamed statesKey

/-- The value of a state declaration: state, its property, the states object, its property. -/
def isStateValue (f : Focus) : Bool := (f.up? 3).any fun g => g.part.isNamed statesKey

/-- A property that declares a state. -/
def declaresState (f : Focus) : Bool :=
  f.part.property?.isSome && f.parent?.any fun g => g.part.isObject && g.holdsStates

/-- The names of the properties that hold the nested scope of a Map state. -/
def processorKeys : List Text := ["ItemProcessor", "Iterator"]

/-- One step outward from the object of a scope: the segment for the branch, if the scope is one,
and the object of the state that owns it. -/
def ownerOf? (scope : Focus) : Option (Path × Option Focus) :=
  match scope.above with
  | [] => none
  | (container, i) :: above =>
    if container.propertyName?.any processorKeys.contains then
      some ([], (Focus.mk container above).parent?)
    else if container.isArray && (above.head?.any fun a => a.1.isNamed "Branches") then
      some ([.index i], (Focus.mk container above).up? 2)
    else none

/-- The segments in front of a state, read outward from the object of its scope.  The first
argument bounds the number of enclosing scopes. -/
def outerPath : Nat → Focus → Path
  | 0, _ => []
  | fuel + 1, scope =>
    match ownerOf? scope with
    | none => []
    | some (branch, owner) =>
      match owner.bind parent? with
      | some declaration =>
        if declaration.declaresState then
          let id := declaration.part.propertyName?.getD []
          let outer := match declaration.up? 3 with
            | some scope => outerPath fuel scope
            | none => []
          outer ++ [.name id] ++ branch
        else branch
      | none => branch

/-- The path of the state that a property declares. -/
def statePath (declaration : Focus) : Path :=
  let id := declaration.part.propertyName?.getD []
  let outer := match declaration.up? 3 with
    | some scope => outerPath scope.above.length scope
    | none => []
  outer ++ [.name id]

/-- What is known about the state around a place. -/
structure StateInfo where
  name : Text
  /-- The value of the state's `Type`, null when it has none. -/
  type : Value
  path : Path
  declaration : Focus

/-- The nearest enclosing state declaration, the place itself included. -/
def declarationFrom : Part → List (Part × Nat) → Option Focus
  | part, above =>
    let here : Focus := ⟨part, above⟩
    if here.declaresState then some here
    else
      match above with
      | [] => none
      | (outer, _) :: rest => declarationFrom outer rest
termination_by structural _ above => above

/-- The state that a place belongs to. -/
def stateInfo? (f : Focus) : Option StateInfo :=
  (declarationFrom f.part f.above).map fun declaration =>
    { name := declaration.part.propertyName?.getD []
      type := ((declaration.part.property?.bind (Property.property? · "Type")).map
        Property.toValue).getD .null
      path := declaration.statePath
      declaration := declaration }

end Focus

/-- The names of the states that a part declares; it has to be a `States` property. -/
def Part.declaredNames? (lenient : Bool) (part : Part) : Except Fault (List Text) :=
  match part.property? with
  | some p =>
    if p.key.name == statesKey then .ok (declaredNames lenient p) else .error .notStatesProperty
  | none => .error .notStatesProperty

end Workflow
