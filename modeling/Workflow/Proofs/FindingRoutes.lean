import Workflow.Proofs.CheckedScopes

/-!
# The routes to the findings of a check

A check goes from scope to scope and puts everything that it finds into one list.  Here each finding
is kept together with the route on which the check came to the scope of the finding.  Without the
routes the list is the outcome of the check.  The findings behind one route stand together in the
list, and they are what the check of the scope at its end finds, as long as no level of nesting is
cut off.
-/

namespace Workflow

namespace Check

/-- The way from a scope into a scope nested in one of its states. -/
structure Step where
  /-- The position of the state among those that the scope declares with objects. -/
  position : Nat
  name : Text
  /-- The position among the branches of a Parallel state. -/
  branch : Option Nat
  deriving DecidableEq, Repr

/-- The way from the scope where a check starts to a scope that it enters. -/
abbrev Route := List Step

/-- The scopes nested in a state; those of a Parallel state with their positions. -/
def nestedAt (kind : Option StateKind) (state : Tree) : List (Option Nat × ScopeKind × Tree) :=
  match kind with
  | some .parallel =>
    match ((state.property? "Branches").bind Property.value).bind Tree.items? with
    | some scopes =>
      scopes.zipIdx.filterMap fun (scope, i) =>
        if scope.isObject then some (some i, .parallel, scope) else none
    | none => []
  | kind => (nested kind state).map fun inner => (none, inner)

/-- The steps into the scopes nested in a declared state. -/
def stepsInto (field : Key × Tree) (position : Nat) : List (Step × ScopeKind × Tree) :=
  (nestedAt (kindOf field.2) field.2).map fun inner =>
    (⟨position, field.1.name, inner.1⟩, inner.2)

/-- A scope that a check enters, and how it came there. -/
structure Entry where
  route : Route
  kind : ScopeKind
  scope : Tree

/-- An entry, seen from one step further outside. -/
def Entry.behind (step : Step) (e : Entry) : Entry := { e with route := step :: e.route }

/-- The scopes that a check enters, in the order in which it comes to them. -/
def entries : Nat → ScopeKind → Tree → List Entry
  | 0, _, _ => []
  | levels + 1, kind, scope =>
    ⟨[], kind, scope⟩ :: (declaredIn scope).zipIdx.flatMap fun (field, i) =>
      (stepsInto field i).flatMap fun (step, k, inner) =>
        (entries levels k inner).map (Entry.behind step)

/-- Whether the scopes below a scope are nested in each other at most so many levels deep. -/
def nestsWithin : Nat → Tree → Bool
  | 0, scope => (declaredIn scope).all fun field => (nested (kindOf field.2) field.2).isEmpty
  | depth + 1, scope =>
    (declaredIn scope).all fun field =>
      (nested (kindOf field.2) field.2).all fun inner => nestsWithin depth inner.2

/-! ## Findings with their routes -/

/-- Something together with the route to its scope. -/
abbrev Routed (α : Type) := Route × α

/-- What is found in the scope where a check starts. -/
def here {α : Type} (found : List α) : List (Routed α) := found.map fun x => ([], x)

/-- What is found behind a route. -/
def behind {α : Type} (route : Route) (found : List (Routed α)) : List (Routed α) :=
  found.map fun x => (route ++ x.1, x.2)

/-- The findings that a part of a check delivers. -/
def found (x : Except Fault (List Finding)) : List Finding := x.toOption.getD []

/-- The names that references in a scope may have. -/
def namesIn (lenient : Bool) (scope : Tree) : List Text :=
  ((scope.property? statesKey).map (declaredNames lenient)).getD []

/-- The findings in a scope that stand in front of those in its states. -/
def opening (schema : Value) (lenient : Bool) (kind : ScopeKind) (scope : Tree) : List Finding :=
  found (scopeFields schema kind (scope.properties?.getD [])) ++
    if (scope.property? statesKey).isSome then
      reference (namesIn lenient scope) .invalidStartAt (scope.property? "StartAt")
    else []

/-- The findings at a state that stand in front of those in its nested scopes. -/
def stateOpening (schema : Value) (names : List Text) (state : Tree) : List Finding :=
  found (Tables.stateFindings schema (some state)) ++ (templates state).1 ++
    (caught names state).1 ++ (templates state).2 ++ kindFindings [] state

/-- The findings at a state that stand behind those in its nested scopes. -/
def stateClosing (names : List Text) (state : Tree) : List Finding :=
  (chosen names state).1 ++ reference names .invalidNext (state.property? "Next")

/-- The findings in a scope that stand behind those in its states. -/
def closing (lenient : Bool) (scope : Tree) : List Finding :=
  match scope.property? statesKey, mapping? scope with
  | some states, some properties =>
    let reports := (declared properties).map fun field =>
      report (namesIn lenient scope) [] [] field.2
    missingEnd states.key reports ++
      unreached (textIn (scope.property? "StartAt")).toList (declared properties) reports
  | _, _ => []

/-- What a check finds, with the routes. -/
def trace (schema : Value) (lenient : Bool) : Nat → ScopeKind → Tree → List (Routed Finding)
  | 0, _, _ => []
  | levels + 1, kind, scope =>
    here (opening schema lenient kind scope) ++
      (declaredIn scope).zipIdx.flatMap (fun (field, i) =>
        here (stateOpening schema (namesIn lenient scope) field.2) ++
          (stepsInto field i).flatMap (fun (step, k, inner) =>
            behind [step] (trace schema lenient levels k inner)) ++
          here (stateClosing (namesIn lenient scope) field.2)) ++
      here (closing lenient scope)

section Nested

variable {kind : Option StateKind} {state : Tree}

/-- Without the positions, the scopes nested in a state are those that a check enters. -/
theorem nestedAt_map_snd :
    (nestedAt kind state).map Prod.snd = nested kind state := by
  unfold nestedAt
  split
  · unfold nested
    cases ((state.property? "Branches").bind Property.value).bind Tree.items? with
    | none => rfl
    | some scopes =>
        dsimp only
        have hfst : scopes = scopes.zipIdx.map Prod.fst := List.zipIdx_map_fst 0 scopes |>.symm
        conv_rhs => rw [hfst]
        induction scopes.zipIdx with
        | nil => rfl
        | cons branch rest ih =>
            cases hobject : branch.1.isObject <;> simp_all
  · rw [List.map_map]
    exact List.map_id _

/-- The positions tell the scopes nested in a state apart. -/
theorem nestedAt_nodup :
    ((nestedAt kind state).map Prod.fst).Nodup := by
  unfold nestedAt
  split
  · cases ((state.property? "Branches").bind Property.value).bind Tree.items? with
    | none => exact List.nodup_nil
    | some scopes =>
        dsimp only
        have hpositions := positions_nodup scopes
        rw [List.Nodup, List.pairwise_map] at hpositions
        rw [List.Nodup, List.pairwise_map, List.pairwise_filterMap]
        refine hpositions.imp fun {branch other} hne inner hinner inner' hinner' => ?_
        split at hinner
        · split at hinner'
          · cases hinner
            cases hinner'
            intro heq
            exact hne (Option.some.inj heq)
          · cases hinner'
        · cases hinner
  · next hparallel =>
      -- only a Parallel state nests more than one scope
      unfold nested
      split
      · split
        · split
          · simp
          · simp
        · simp
      · exact absurd rfl hparallel
      · simp

end Nested

/-- A step leads into a scope nested in the state. -/
theorem mem_nested_of_mem_stepsInto
    {field : Key × Tree} {i : Nat} {x : Step × ScopeKind × Tree} (hx : x ∈ stepsInto field i) :
    x.2 ∈ nested (kindOf field.2) field.2 := by
  obtain ⟨inner, hinner, rfl⟩ := List.mem_map.mp hx
  rw [← nestedAt_map_snd]
  exact List.mem_map_of_mem hinner

/-- The steps into the scopes nested in a state are different. -/
theorem stepsInto_nodup
    (field : Key × Tree) (i : Nat) :
    ((stepsInto field i).map Prod.fst).Nodup := by
  have hsteps : (stepsInto field i).map Prod.fst =
      ((nestedAt (kindOf field.2) field.2).map Prod.fst).map fun branch =>
        ⟨i, field.1.name, branch⟩ := by
    simp [stepsInto]
  rw [hsteps]
  refine nestedAt_nodup.map fun branch branch' heq => ?_
  cases heq
  rfl

theorem position_of_mem_stepsInto
    {field : Key × Tree} {i : Nat} {x : Step × ScopeKind × Tree} (hx : x ∈ stepsInto field i) :
    x.1.position = i := by
  obtain ⟨inner, -, rfl⟩ := List.mem_map.mp hx
  rfl

/-- A check enters a scope itself and, behind one step, what it enters from the scopes nested in the
states declared there. -/
theorem mem_entries_iff
    {levels : Nat} {kind : ScopeKind} {tree : Tree} {e : Entry} :
    e ∈ entries (levels + 1) kind tree ↔ e = ⟨[], kind, tree⟩ ∨
      ∃ field ∈ (declaredIn tree).zipIdx, ∃ x ∈ stepsInto field.1 field.2,
        ∃ inner ∈ entries levels x.2.1 x.2.2, inner.behind x.1 = e := by
  rw [entries, List.mem_cons]
  simp only [List.mem_flatMap, List.mem_map]

/-- The scopes nested in a state are objects. -/
theorem isObject_of_mem_nested
    {kind : Option StateKind} {state : Tree} {x : ScopeKind × Tree} (hx : x ∈ nested kind state) :
    x.2.isObject = true := by
  unfold nested at hx
  split at hx
  · split at hx
    · split at hx
      · next hobject =>
          cases List.mem_singleton.mp hx
          exact hobject
      · cases hx
    · cases hx
  · split at hx
    · obtain ⟨scope, hscope, rfl⟩ := List.mem_map.mp hx
      exact (List.mem_filter.mp hscope).2
    · cases hx
  · cases hx

/-- Nothing but the tree itself is entered where it is no object. -/
theorem entries_of_not_object
    {tree : Tree} (h : tree.isObject = false) (levels : Nat) (kind : ScopeKind) :
    entries (levels + 1) kind tree = [⟨[], kind, tree⟩] := by
  rw [entries, declaredIn, mapping?_of_not_object h]
  rfl

/-- From an object, only objects are entered. -/
theorem isObject_of_mem_entries
    {kind : ScopeKind} {tree : Tree} (htree : tree.isObject = true) :
    ∀ {levels : Nat} {e : Entry}, e ∈ entries levels kind tree → e.scope.isObject = true
  | 0, _, he => by
      cases he
  | levels + 1, e, he => by
      rcases mem_entries_iff.mp he with rfl | ⟨field, -, x, hx, inner, hinner, rfl⟩
      · exact htree
      · have hobject := isObject_of_mem_nested (mem_nested_of_mem_stepsInto hx)
        exact isObject_of_mem_entries (e := inner) hobject hinner

/-- What is found in the scope where a check starts has no step on its route. -/
theorem route_of_mem_here
    {α : Type} {l : List α} {x : Routed α} (hx : x ∈ here l) :
    x.1 = [] := by
  obtain ⟨f, -, rfl⟩ := List.mem_map.mp hx
  rfl

/-- The routes of the findings lead to scopes that the check enters. -/
theorem exists_entry_of_mem_trace
    {schema : Value} {lenient : Bool} :
    ∀ {levels : Nat} {kind : ScopeKind} {tree : Tree} {x : Routed Finding},
      x ∈ trace schema lenient levels kind tree → ∃ e ∈ entries levels kind tree, e.route = x.1
  | 0, _, _, _, hx => by
      cases hx
  | levels + 1, kind, tree, x, hx => by
      have hself : ∀ {l : List Finding}, x ∈ here l →
          ∃ e ∈ entries (levels + 1) kind tree, e.route = x.1 := fun hx =>
        ⟨_, mem_entries_iff.mpr (Or.inl rfl), (route_of_mem_here hx).symm⟩
      rw [trace, List.mem_append, List.mem_append] at hx
      rcases hx with (hx | hx) | hx
      · exact hself hx
      · obtain ⟨⟨field, i⟩, hfield, hx⟩ := List.mem_flatMap.mp hx
        rw [List.mem_append, List.mem_append] at hx
        rcases hx with (hx | hx) | hx
        · exact hself hx
        · obtain ⟨step, hstep, hx⟩ := List.mem_flatMap.mp hx
          obtain ⟨y, hy, rfl⟩ := List.mem_map.mp hx
          obtain ⟨e, he, hroute⟩ := exists_entry_of_mem_trace hy
          refine ⟨e.behind step.1,
            mem_entries_iff.mpr (Or.inr ⟨(field, i), hfield, step, hstep, e, he, rfl⟩), ?_⟩
          rw [← hroute]
          rfl
        · exact hself hx
      · exact hself hx

/-! ## Forgetting the routes -/

section Forgetting

variable {α : Type}

@[simp] theorem map_snd_here
    (l : List α) :
    (here l).map Prod.snd = l := by
  simp [here, Function.comp_def]

@[simp] theorem map_snd_behind
    (route : Route) (l : List (Routed α)) :
    (behind route l).map Prod.snd = l.map Prod.snd := by
  simp [behind]

end Forgetting

/-- Part of a check that does not fail. -/
theorem eq_ok_found
    {x : Except Fault (List Finding)} {safe : Prop} {P : List Finding → Prop}
    (hx : Delivers x safe P) (hsafe : safe) :
    x = .ok (found x) := by
  obtain ⟨fs, rfl⟩ := hx.succeeds hsafe
  rfl

/-- The report on a state has what is found in the nested scopes in one piece. -/
theorem findings_report
    {names : List Text} {inner fields : List Finding} {state : Tree}
    (hinner : nested (kindOf state) state = [] → inner = []) :
    (report names inner fields state).findings =
      fields ++ (templates state).1 ++ (caught names state).1 ++ (templates state).2 ++
        kindFindings [] state ++ inner ++ stateClosing names state := by
  have hkind : kindFindings inner state = kindFindings [] state ++ inner := by
    unfold kindFindings
    cases hkind : kindOf state with
    | none => simp [hinner (by rw [hkind]; rfl)]
    | some kind =>
        cases kind with
        | map => simp
        | parallel => rfl
        | fail => simp [hinner (by rw [hkind]; rfl)]
        | _ => simp [hinner (by rw [hkind]; rfl)]
  simp [report, stateClosing, hkind, List.append_assoc]

/-- Without its routes, the trace of a scope lists what is found at each state around what is found
in the scopes nested in it. -/
theorem map_snd_trace
    (schema : Value) (lenient : Bool) (levels : Nat) (kind : ScopeKind) (tree : Tree) :
    (trace schema lenient (levels + 1) kind tree).map Prod.snd =
      opening schema lenient kind tree ++
        (declaredIn tree).flatMap (fun field =>
          stateOpening schema (namesIn lenient tree) field.2 ++
            (nested (kindOf field.2) field.2).flatMap (fun inner =>
              (trace schema lenient levels inner.1 inner.2).map Prod.snd) ++
            stateClosing (namesIn lenient tree) field.2) ++
        closing lenient tree := by
  have hnested : ∀ (field : Key × Tree) (i : Nat),
      ((stepsInto field i).flatMap fun x =>
        (trace schema lenient levels x.2.1 x.2.2).map Prod.snd) =
      (nested (kindOf field.2) field.2).flatMap fun inner =>
        (trace schema lenient levels inner.1 inner.2).map Prod.snd := by
    intro field i
    rw [stepsInto, List.flatMap_map, ← nestedAt_map_snd, List.flatMap_map]
  simp only [trace, List.map_append, map_snd_here, List.map_flatMap, map_snd_behind, hnested]
  congr 2
  conv_rhs => rw [← List.zipIdx_map_fst 0 (declaredIn tree), List.flatMap_map]

/-- The report on a declared state in a check that does not fail. -/
def reportOn (schema : Value) (lenient : Bool) (levels : Nat) (names : List Text)
    (field : Key × Tree) : StateReport :=
  report names
    ((nested (kindOf field.2) field.2).map fun inner =>
      (trace schema lenient levels inner.1 inner.2).map Prod.snd).flatten
    (found (Tables.stateFindings schema (some field.2))) field.2

theorem findings_reportOn
    (schema : Value) (lenient : Bool) (levels : Nat) (names : List Text) (field : Key × Tree) :
    (reportOn schema lenient levels names field).findings =
      stateOpening schema names field.2 ++
        (nested (kindOf field.2) field.2).flatMap (fun inner =>
          (trace schema lenient levels inner.1 inner.2).map Prod.snd) ++
        stateClosing names field.2 := by
  rw [reportOn, findings_report fun hnone => by rw [hnone]; rfl]
  rfl

/-- The judgements on a scope do not depend on what is found in the scopes nested in it. -/
theorem judgements_reportOn
    (schema : Value) (lenient : Bool) (levels : Nat) {tree : Tree} {states : Property Tree}
    (hstates : tree.property? statesKey = some states) {properties : List (Property Tree)}
    (hproperties : states.value.bind Tree.properties? = some properties) :
    let reports := (declared properties).map
      (reportOn schema lenient levels (declaredNames lenient states))
    missingEnd states.key reports ++
        unreached (textIn (tree.property? "StartAt")).toList (declared properties) reports =
      closing lenient tree := by
  have hmapping : mapping? tree = some properties :=
    mapping?_eq_some_iff.mpr ⟨states, hstates, hproperties⟩
  rw [closing, hstates, hmapping]
  simp only [missingEnd, unreached, namesIn, hstates, Option.map_some, Option.getD_some,
    List.any_map, List.flatMap_map]
  rfl

/-- Without its routes, the trace is the outcome of the check. -/
theorem scope_eq_trace
    {schema : Value} (hschema : Tables.Sound schema) (lenient : Bool) :
    ∀ (levels : Nat) (kind : ScopeKind) (tree : Tree),
      scope schema lenient levels kind tree =
        .ok ((trace schema lenient levels kind tree).map Prod.snd)
  | 0, _, _ => rfl
  | levels + 1, kind, tree => by
      have hfields := eq_ok_found (scopeFields_delivers schema kind (tree.properties?.getD []))
        hschema
      rw [scope, hfields, map_snd_trace, opening]
      cases hstates : tree.property? statesKey with
      | none =>
          have hmapping : mapping? tree = none := by rw [mapping?, hstates]; rfl
          rw [declaredIn, hmapping, closing, hstates]
          simp [declared, bind, Except.bind, pure, Except.pure]
      | some states =>
          have hnames : namesIn lenient tree = declaredNames lenient states := by
            rw [namesIn, hstates]
            rfl
          cases hproperties : states.value.bind Tree.properties? with
          | none =>
              have hmapping : mapping? tree = none := by
                rw [mapping?, hstates, Option.bind_some, hproperties]
              rw [declaredIn, hmapping, closing, hstates, hmapping, hnames]
              simp [hproperties, declared, bind, Except.bind, pure, Except.pure]
          | some properties =>
              have hmapping : mapping? tree = some properties :=
                mapping?_eq_some_iff.mpr ⟨states, hstates, hproperties⟩
              rw [declaredIn, hmapping, Option.getD_some, hnames,
                ← judgements_reportOn schema lenient levels hstates hproperties]
              simp only [← findings_reportOn]
              dsimp only [bind, Except.bind]
              rw [hproperties]
              dsimp only
              rw [mapM_eq_ok_map
                (g := reportOn schema lenient levels (declaredNames lenient states))]
              · simp only [pure, Except.pure, Option.isSome_some, if_true, List.append_assoc,
                  List.flatMap_map]
              · intro field hfield
                obtain ⟨-, -, -, -, hobject⟩ := mem_declared_iff.mp hfield
                have hown := eq_ok_found (Tables.stateFindings_delivers schema field.2)
                  ⟨hschema, hobject⟩
                rw [mapM_eq_ok_map fun inner _ =>
                  scope_eq_trace hschema lenient levels inner.1 inner.2]
                dsimp only
                rw [state, hown]
                rfl

end Check

end Workflow
