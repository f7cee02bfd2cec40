import Workflow.Proofs.ScopeResolution

/-!
# Distributed Map states isolate their nested states

Two workflows that hold the same distributed sub-workflow at some path cannot be told apart by the
variables in scope at the states below this path.  Below the path the search for states and the
reverse adjacency depend on the sub-workflow only; the recursion over the owners goes from one
owner below the path to the next, and ends where it meets the Map state at the path itself.
-/

namespace Workflow

/-- The owner of a scope below a path that ends in a name stands at that path or below it. -/
theorem Path.ofOwner_append
    {q : Path} (hq : q.endsInName = true) (c : Path) :
    ∃ c', ofOwner (q ++ c) = q ++ c' := by
  rcases List.eq_nil_or_concat' c with rfl | ⟨front, s, rfl⟩
  · refine ⟨[], ?_⟩
    obtain ⟨id, hid⟩ := Option.isSome_iff_exists.mp hq
    obtain ⟨s, hlast, hname⟩ := Option.bind_eq_some_iff.mp hid
    have hindex : s.index? = none := by
      cases hs : s.index? with
      | none => rfl
      | some i =>
          rw [Segment.name?_eq_none_of_index? hs] at hname
          cases hname
    rw [List.append_nil, ofOwner, hlast]
    simp [hindex]
  · rw [← List.append_assoc]
    cases hs : s.index?.isSome with
    | true => exact ⟨front, ofOwner_concat_index hs _⟩
    | false =>
        refine ⟨front ++ [s], ?_⟩
        simp [ofOwner, hs]

theorem State.isKind_iff
    {state : Value} {kind : StateKind} :
    isKind state kind = true ↔ kind? state = some kind := by
  simp [isKind]

/-- The path of a Map state leads to its nested scope. -/
theorem Address.Located.ownerPath_processor
    {root : Value} {a : Address} {id : Text}
    (ha : a.Located root id) (hmap : State.isKind a.state .map = true) :
    OwnerPath root a.path (State.processor a.state) := by
  refine OwnerPath.of_ownedScope ?_
  rw [ha.path_eq, ha.scope.ownedScope_append]
  exact (OwnerPath.map ha.declared (State.isKind_iff.mp hmap) (OwnerPath.here _)).ownedScope_eq

/-- Search by path beyond a scope depends on this scope only. -/
theorem findPath_congr
    {root root' inner : Value} {q r : Path}
    (hq : OwnerPath root q inner) (hq' : OwnerPath root' q inner) (hr : r ≠ []) :
    findPath root (q ++ r) = findPath root' (q ++ r) := by
  rw [findPath.eq_def, findPath.eq_def root', List.dropLast_append_of_ne_nil hr,
    hq.ownedScope_append, hq'.ownedScope_append]

section Boundary

variable {w w' : Value} {q : Path} {m m' : Address}

/-- Two workflows hold the same distributed sub-workflow at a path. -/
structure SameDistributed (w w' : Value) (q : Path) (m m' : Address) : Prop where
  found : findPath w q = some m
  found' : findPath w' q = some m'
  map : State.isKind m.state .map = true
  map' : State.isKind m'.state .map = true
  processor : State.processor m.state = State.processor m'.state
  distributed : State.isDistributed m.state = true

namespace SameDistributed

theorem symm
    (h : SameDistributed w w' q m m') :
    SameDistributed w' w q m' m where
  found := h.found'
  found' := h.found
  map := h.map'
  map' := h.map
  processor := h.processor.symm
  distributed := by
    have hdistributed := h.distributed
    rw [State.isDistributed, State.mode, h.processor] at hdistributed
    exact hdistributed

/-- The path of the boundary leads to the nested scope. -/
theorem scope
    (h : SameDistributed w w' q m m') :
    OwnerPath w q (State.processor m.state) := by
  obtain ⟨rfl, -, id, hlocated⟩ := findPath_eq_some_iff.mp h.found
  exact hlocated.ownerPath_processor h.map

theorem endsInName
    (h : SameDistributed w w' q m m') :
    q.endsInName = true := by
  obtain ⟨rfl, -, id, hlocated⟩ := findPath_eq_some_iff.mp h.found
  rw [hlocated.path_eq, Path.endsInName_concat]

theorem isolates
    (h : SameDistributed w w' q m m') :
    m.isolates = true := by
  rw [Address.isolates, h.map, h.distributed]
  rfl

/-- Below the boundary both workflows hold the same states. -/
theorem findPath_eq
    (h : SameDistributed w w' q m m') {r : Path} (hr : r ≠ []) :
    findPath w (q ++ r) = findPath w' (q ++ r) := by
  have hscope' := h.symm.scope
  rw [← h.processor] at hscope'
  exact findPath_congr h.scope hscope' hr

/-- Below the boundary both workflows have the same scopes. -/
theorem ownerPath
    (h : SameDistributed w w' q m m') {c : Path} {scope : Value}
    (hc : OwnerPath w (q ++ c) scope) :
    OwnerPath w' (q ++ c) scope := by
  refine OwnerPath.of_ownedScope ?_
  rw [h.symm.scope.ownedScope_append, ← h.processor, ← h.scope.ownedScope_append]
  exact hc.ownedScope_eq

/-- Below the boundary both workflows have the same reverse adjacency. -/
theorem sources_eq
    (h : SameDistributed w w' q m m') (hw : w.Proper) (hw' : w'.Proper)
    {c : Path} {scope : Value} (hc : OwnerPath w (q ++ c) scope) (target : Text) :
    (Predecessors.ofWorkflow w).sources (q ++ c) target =
      (Predecessors.ofWorkflow w').sources (q ++ c) target := by
  rw [sources_ofWorkflow hw hc, sources_ofWorkflow hw' (h.ownerPath hc)]

end SameDistributed

/-- Below the boundary the recursion over the owners computes the same in both workflows. -/
theorem scopeAt_isolated
    (h : SameDistributed w w' q m m') (hw : w.Proper) (hw' : w'.Proper) (levels : Nat) :
    ∀ {r : Path} {a : Address}, r ≠ [] → findPath w (q ++ r) = some a → ∀ fromInside : Bool,
      scopeAt w (Predecessors.ofWorkflow w) levels a fromInside =
        scopeAt w' (Predecessors.ofWorkflow w') levels a fromInside := by
  induction levels with
  | zero =>
      intro r a _ _ fromInside
      rfl
  | succ levels ih =>
      intro r a hr ha fromInside
      obtain ⟨hpath, -, id, hlocated⟩ := findPath_eq_some_iff.mp ha
      have hparent : a.parentPath = q ++ r.dropLast := by
        rw [← List.dropLast_append_of_ne_nil hr, ← hpath, hlocated.path_eq, List.dropLast_concat]
      have hown : ∀ silent,
          (⟨a.siblings, Predecessors.ofWorkflow w, a.parentPath, silent⟩ : Walk).variablesTo =
            (⟨a.siblings, Predecessors.ofWorkflow w', a.parentPath, silent⟩ : Walk).variablesTo := by
        intro silent
        funext target
        refine Walk.variablesTo_congr (by rfl) (by rfl) ?_ target
        intro id
        have hscope := hlocated.scope
        rw [hparent] at hscope
        rw [Walk.edgesTo, Walk.edgesTo, hparent, h.sources_eq hw hw' hscope]
      obtain ⟨c, hc⟩ := Path.ofOwner_append h.endsInName r.dropLast
      rw [scopeAt, scopeAt, Address.ownerPath, hparent, hc, ← hparent]
      simp only [hown]
      by_cases hc : c = []
      · -- the next owner is the Map state at the boundary
        rw [hc, List.append_nil, h.found, h.found']
        simp only [scopeAt_of_isolates h.isolates, scopeAt_of_isolates h.symm.isolates]
        rw [Address.isPresent_of_kind? (State.isKind_iff.mp h.map),
          Address.isPresent_of_kind? (State.isKind_iff.mp h.map')]
      · rw [← h.findPath_eq hc]
        cases howner : findPath w (q ++ c) with
        | none => rfl
        | some owner => simp only [ih hc howner true]

/-- The variables in scope at a state below a distributed Map state depend on its sub-workflow
only: two workflows that agree on it give the same answer, whatever else they hold. -/
theorem variableScope_isolated
    (h : SameDistributed w w' q m m') (hw : w.Proper) (hw' : w'.Proper)
    {r : Path} (hr : r ≠ []) {a : Address} (ha : findPath w (q ++ r) = some a) :
    variableScope w (Predecessors.ofWorkflow w) (.path (q ++ r)) none =
      variableScope w' (Predecessors.ofWorkflow w') (.path (q ++ r)) none := by
  obtain ⟨hpath, -, id, hlocated⟩ := findPath_eq_some_iff.mp ha
  have hleads : (q ++ r).Leads := hpath ▸ hlocated.leads
  have hlocate : (Reference.path (q ++ r)).locate w = .ok (some a) := by
    rw [Reference.locate, findPath?_of_leads hleads, ha]
  have hlocate' : (Reference.path (q ++ r)).locate w' = .ok (some a) := by
    rw [Reference.locate, findPath?_of_leads hleads, ← h.findPath_eq hr, ha]
  rw [variableScope_of_locate hlocate hlocated.leads,
    variableScope_of_locate hlocate' hlocated.leads, scopeAt_isolated h hw hw' _ hr ha]

end Boundary

/-- A distributed Map state with a Parallel state inside, whose second branch has two states. -/
def distributedMap : Value :=
  .obj [("Type", .str "Map"), ("ItemProcessor", .obj [
    ("ProcessorConfig", .obj [("Mode", .str "DISTRIBUTED")]),
    ("States", .obj [("P", .obj [("Type", .str "Parallel"), ("Branches", .arr [.obj [], .obj [
      ("States", .obj [
        ("B", .obj [("Type", .str "Pass"), ("Assign", .obj [("y", .int 1)]), ("Next", .str "C")]),
        ("C", .obj [("Type", .str "Succeed")])])]])])])])]

/-- A workflow of a distributed Map state alone. -/
def distributedAlone : Value := .obj [("States", .obj [("D", distributedMap)])]

/-- The same Map state behind a state that binds a variable. -/
def distributedBehindBinding : Value :=
  .obj [("States", .obj [
    ("A", .obj [("Type", .str "Pass"), ("Assign", .obj [("x", .int 1)]), ("Next", .str "D")]),
    ("D", distributedMap)])]

/-- The variable bound in front of the distributed Map state cannot be seen in the branch. -/
theorem variableScope_isolated_behind_binding :
    variableScope distributedAlone (Predecessors.ofWorkflow distributedAlone)
        (.path ([.name "D"] ++ [.name "P", .index 1, .name "C"])) none =
      variableScope distributedBehindBinding (Predecessors.ofWorkflow distributedBehindBinding)
        (.path ([.name "D"] ++ [.name "P", .index 1, .name "C"])) none := by
  have hboundary : SameDistributed distributedAlone distributedBehindBinding [.name "D"]
      ⟨distributedMap, distributedAlone, [.name "D"], []⟩
      ⟨distributedMap, distributedBehindBinding, [.name "D"], []⟩ :=
    ⟨rfl, rfl, rfl, rfl, rfl, rfl⟩
  exact variableScope_isolated hboundary (by decide) (by decide) (List.cons_ne_nil _ _) rfl

end Workflow
