import Workflow.State.Kind
import Workflow.State.Path

/-!
# Visiting states

The states of a workflow in depth-first preorder: each state of a scope in declaration order,
directly followed by the states of the scopes it owns.

`preorder` lists the calls.  `visit` runs a visitor that may ask to stop; it stops everywhere at
once.  Scopes nested deeper than `maxNesting` owners are treated as absent, so both recurse on
the number of levels that are left.
-/

namespace Workflow

/-- Scopes nested deeper than this are treated as absent. -/
def maxNesting : Nat := 64

/-- The number of levels that a traversal from the top may enter. -/
def allLevels : Nat := maxNesting + 1

namespace State

/-- The scopes that a state directly owns, with their paths: the processor of a Map state, the
object-valued branches of a Parallel state with their positions. -/
def nestedScopes (state : Value) (path : Path) : List (Value × Path) :=
  match kind? state with
  | some .map =>
    let scope := processor state
    if scope.isObject then [(scope, path)] else []
  | some .parallel =>
    match branches? state with
    | some scopes =>
      scopes.zipIdx.filterMap fun (scope, i) =>
        if scope.isObject then some (scope, path ++ [.index i]) else none
    | none => []
  | _ => []

end State

/-- One call of a visitor: the id of a state, the state, the scope that declares it, its path. -/
structure Visit where
  id : Text
  state : Value
  parent : Value
  path : Path

/-- The states of a scope and of all scopes nested in it, down to a number of levels. -/
def preorder : Nat → Value → Path → List Visit
  | 0, _, _ => []
  | levels + 1, scope, path =>
    match State.declared? scope with
    | none => []
    | some states =>
      states.flatMap fun (id, state) =>
        let here := path ++ [.name id]
        ⟨id, state, scope, here⟩ ::
          (State.nestedScopes state here).flatMap fun (inner, innerPath) =>
            preorder levels inner innerPath

/-- All states of a workflow. -/
def allStates (root : Value) : List Visit := preorder allLevels root []

/-- The ids of all states of a workflow, in visiting order. -/
def allStateIds (root : Value) : List Text := (allStates root).map Visit.id

/-- A visitor with a memory: it answers a new memory and whether to go on. -/
abbrev Visitor (σ : Type) := σ → Visit → σ × Bool

/-- Runs a step over a list for as long as the steps say to go on. -/
def runWhile {σ α : Type} (step : σ → α → σ × Bool) : σ → List α → σ × Bool
  | memory, [] => (memory, true)
  | memory, x :: rest =>
    match step memory x with
    | (memory, true) => runWhile step memory rest
    | (memory, false) => (memory, false)

/-- Visits the states of a scope and of all scopes nested in it, until the visitor stops. -/
def visitScope {σ : Type} (visitor : Visitor σ) : Nat → σ → Value → Path → σ × Bool
  | 0, memory, _, _ => (memory, true)
  | levels + 1, memory, scope, path =>
    match State.declared? scope with
    | none => (memory, true)
    | some states =>
      runWhile
        (fun memory (id, state) =>
          let here := path ++ [.name id]
          match visitor memory ⟨id, state, scope, here⟩ with
          | (memory, false) => (memory, false)
          | (memory, true) =>
            runWhile
              (fun memory (inner, innerPath) => visitScope visitor levels memory inner innerPath)
              memory (State.nestedScopes state here))
        memory states

/-- Visits every state of a workflow until the visitor stops, and answers its memory. -/
def visit {σ : Type} (visitor : Visitor σ) (memory : σ) (root : Value) : σ :=
  (visitScope visitor allLevels memory root []).1

/-- The answers that a visitor may give. -/
inductive VisitAnswer where
  | stop
  | goOn
  | truth (b : Bool)
  | nothing
  | number (n : Int)
  deriving DecidableEq, Repr

/-- Only an explicit stop and the truth value false end a visit. -/
def VisitAnswer.stops : VisitAnswer → Bool
  | .stop => true
  | .truth b => !b
  | _ => false

/-- The calls made by a visit whose answers depend on the call. -/
def callsOf (answer : Visit → VisitAnswer) (root : Value) : List Visit :=
  (visit (fun calls call => (call :: calls, !(answer call).stops)) [] root).reverse

end Workflow
