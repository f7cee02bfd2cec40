import Mathlib.Data.List.Perm.Basic
import Workflow.Proofs.ScopeResolution
import Workflow.Proofs.StateOrder
import Workflow.Proofs.TreeEquality

/-!
# Scopes do not depend on the order of states

The order in which a workflow declares its states decides in which order a backward walk follows the
edges of a scope, and so in which order it lays what they bind over each other.  It decides nothing
else: the walks of reordered workflows follow the same edges.  The names that are in scope are
therefore the same, and where the trees bound in one scope are compatible so are the trees in scope,
up to the order of their names.
-/

namespace Workflow

namespace Walk

/-- Walks over the same edges, in whatever order. -/
structure Reordered (walk walk' : Walk) : Prop where
  binds : walk.binds = walk'.binds
  bound : walk.bound = walk'.bound
  edges : ∀ target edge, edge ∈ walk.edgesTo target ↔ edge ∈ walk'.edgesTo target

namespace Reordered

variable {walk walk' : Walk}

theorem symm
    (h : walk.Reordered walk') :
    walk'.Reordered walk where
  binds := h.binds.symm
  bound := h.bound.symm
  edges target edge := (h.edges target edge).symm

/-- The edges that reach a target do not depend on the order of edges. -/
theorem reaches
    (h : walk.Reordered walk') {target : Text} {edge : ScopeEdge}
    (hreaches : walk.Reaches (walk.edgesTo target) edge) :
    walk'.Reaches (walk'.edgesTo target) edge := by
  induction hreaches with
  | first hstart hbinds =>
      exact Reaches.first ((h.edges _ _).mp hstart) (h.binds ▸ hbinds)
  | back _ hedge hbinds ih =>
      exact Reaches.back ih ((h.edges _ _).mp hedge) (h.binds ▸ hbinds)

theorem reaches_iff
    (h : walk.Reordered walk') {target : Text} {edge : ScopeEdge} :
    walk.Reaches (walk.edgesTo target) edge ↔ walk'.Reaches (walk'.edgesTo target) edge :=
  ⟨h.reaches, h.symm.reaches⟩

/-- Such walks follow the same edges, each of them once. -/
theorem followed_perm
    (h : walk.Reordered walk') (target : Text) :
    (walk.followed walk.entries.edgeCount (walk.edgesTo target) []).Perm
      (walk'.followed walk'.entries.edgeCount (walk'.edgesTo target) []) := by
  refine (List.perm_ext_iff_of_nodup (walk.followed_nodup _ _ _).1
    (walk'.followed_nodup _ _ _).1).mpr fun edge => ?_
  rw [mem_followed_iff, mem_followed_iff, h.reaches_iff]

theorem mem_names_iff
    (h : walk.Reordered walk') (target name : Text) :
    name ∈ (walk.variablesTo target).names ↔ name ∈ (walk'.variablesTo target).names := by
  simp only [mem_names_variablesTo_iff, h.reaches_iff, h.bound]

/-- Such walks find trees of the same shape, if what the edges bind is compatible. -/
theorem sameShape_variablesTo
    (h : walk.Reordered walk') (target : Text)
    (hcompatible : ∀ edge edge', walk.Reaches (walk.edgesTo target) edge →
      walk.Reaches (walk.edgesTo target) edge' →
      Value.Compatible (walk.bound edge) (walk.bound edge')) :
    Value.SameShape (walk.variablesTo target) (walk'.variablesTo target) := by
  rw [variablesTo, variablesTo, explore_eq_foldl, explore_eq_foldl, ← h.bound]
  refine KeyTree.sameShape_foldl_merge_of_perm (h.followed_perm target) ?_ ?_
  · intro edge _
    exact KeyTree.compatible_empty (walk.isObject_bound edge)
  · intro edge hedge edge' hedge'
    exact hcompatible edge edge' ((mem_followed_iff _ _ _).mp hedge)
      ((mem_followed_iff _ _ _).mp hedge')

end Reordered

/-- A walk over proper states finds a key tree. -/
theorem valid_variablesTo
    {walk : Walk} (hstates : ∀ id state, walk.states.get? id = some state → state.Proper)
    (target : Text) :
    KeyTree.Valid (walk.variablesTo target) := by
  rw [variablesTo, explore_eq_foldl]
  refine KeyTree.valid_foldl_merge _ (fun edge _ => ?_) KeyTree.valid_empty
  unfold bound
  split
  · exact KeyTree.valid_empty
  · refine State.valid_edgeVariables ?_ _
    cases hget : walk.states.get? edge.1 with
    | none => trivial
    | some state => exact hstates _ _ hget

end Walk

namespace State

/-- What the states of a scope bind on the edges between them. -/
def edgeTrees (scope : Value) : List Value :=
  ((declared? scope).getD []).flatMap fun field =>
    if bindsVariables field.2 then
      (nextIds field.2).map fun target => edgeVariables field.2 (.str target)
    else []

theorem mem_edgeTrees
    {scope state : Value} {states : Fields} {id target : Text}
    (hstates : declared? scope = some states) (hget : states.get? id = some state)
    (hbinds : bindsVariables state = true) (htarget : target ∈ nextIds state) :
    edgeVariables state (.str target) ∈ edgeTrees scope := by
  rw [edgeTrees, hstates, Option.getD_some, List.mem_flatMap]
  refine ⟨_, Fields.mem_of_get? hget, ?_⟩
  rw [if_pos hbinds]
  exact List.mem_map_of_mem htarget

end State

/-- The scopes around a state, from the top to its own, whose path is given. -/
def scopesAround (root : Value) (b : Path) : List Value := b.inits.filterMap (ownedScope root)

/-- In every scope around a state, what is bound on the edges is compatible. -/
def CompatibleAround (root : Value) (b : Path) : Prop :=
  ∀ scope ∈ scopesAround root b, ∀ tree ∈ State.edgeTrees scope,
    ∀ tree' ∈ State.edgeTrees scope, Value.Compatible tree tree'

theorem CompatibleAround.of_prefix
    {root : Value} {b c : Path} (h : CompatibleAround root b) (hc : c <+: b) :
    CompatibleAround root c := by
  intro scope hscope
  obtain ⟨front, hfront, hscope⟩ := List.mem_filterMap.mp hscope
  refine h scope (List.mem_filterMap.mpr ⟨front, ?_, hscope⟩)
  rw [List.mem_inits] at hfront ⊢
  exact hfront.trans hc

namespace Address

/-- The walk over the scope of an address. -/
def walk (a : Address) (root : Value) (silent : Option Text) : Walk :=
  ⟨a.siblings, Predecessors.ofWorkflow root, a.parentPath, silent⟩

namespace Located

variable {root : Value} {a : Address} {id : Text}

theorem siblings_nodup
    (ha : a.Located root id) (hroot : root.Proper) :
    a.siblings.names.Nodup :=
  (State.declared?_proper (ha.parent_proper hroot) ha.siblings.1).1

/-- The edges to an id in the scope of a state, which are known unless it is nested too deep. -/
theorem mem_edgesTo_iff
    (ha : a.Located root id) (hroot : root.Proper) {silent : Option Text} {target : Text}
    {edge : ScopeEdge} :
    edge ∈ (a.walk root silent).edgesTo target ↔
      a.parentPath.owners ≤ maxNesting ∧ edge.2 = target ∧
        ∃ state, a.siblings.get? edge.1 = some state ∧ target ∈ State.nextIds state := by
  rw [Walk.edgesTo, walk, sources_ofWorkflow hroot ha.scope, List.mem_map]
  obtain ⟨source, id⟩ := edge
  by_cases hdepth : a.parentPath.owners ≤ maxNesting
  · simp only [if_pos hdepth, List.mem_reverse, Prod.mk.injEq,
      State.mem_predecessorsIn_iff ha.siblings.1 (ha.siblings_nodup hroot)]
    constructor
    · rintro ⟨other, hsource, rfl, rfl⟩
      exact ⟨hdepth, rfl, hsource⟩
    · rintro ⟨-, rfl, hsource⟩
      exact ⟨source, hsource, rfl, rfl⟩
  · simp [hdepth]

/-- The scope of a state is one of those around it. -/
theorem mem_scopesAround
    (ha : a.Located root id) :
    a.parent ∈ scopesAround root a.parentPath :=
  List.mem_filterMap.mpr
    ⟨a.parentPath, (List.mem_inits _ _).mpr List.prefix_rfl, ha.scope.ownedScope_eq⟩

/-- On an edge whose source may bind variables, the walk over a scope finds what is bound there, or
nothing when the source is silent. -/
theorem bound_of_mem_edgesTo
    (ha : a.Located root id) (hroot : root.Proper) {silent : Option Text} {target : Text}
    {edge : ScopeEdge} (hedge : edge ∈ (a.walk root silent).edgesTo target)
    (hbinds : (a.walk root silent).binds edge = true) :
    (a.walk root silent).bound edge = KeyTree.empty ∨
      (a.walk root silent).bound edge ∈ State.edgeTrees a.parent := by
  obtain ⟨-, rfl, state, hget, htarget⟩ := (ha.mem_edgesTo_iff hroot).mp hedge
  have hsource : (a.walk root silent).states.get? edge.1 = some state := hget
  rw [Walk.binds_of_get? hsource] at hbinds
  rw [Walk.bound_of_get? hsource]
  split
  · exact Or.inl rfl
  · exact Or.inr (State.mem_edgeTrees ha.siblings.1 hget hbinds htarget)

/-- The walk over a scope lays compatible trees over each other, if those bound on the edges of the
scope are compatible. -/
theorem compatible_bound
    (ha : a.Located root id) (hroot : root.Proper)
    (hcompatible : CompatibleAround root a.parentPath) {silent : Option Text}
    {target : Text} {edge edge' : ScopeEdge}
    (h : (a.walk root silent).Reaches ((a.walk root silent).edgesTo target) edge)
    (h' : (a.walk root silent).Reaches ((a.walk root silent).edgesTo target) edge') :
    Value.Compatible ((a.walk root silent).bound edge) ((a.walk root silent).bound edge') := by
  have hbound : ∀ {edge : ScopeEdge},
      (a.walk root silent).Reaches ((a.walk root silent).edgesTo target) edge →
        (a.walk root silent).bound edge = KeyTree.empty ∨
          (a.walk root silent).bound edge ∈ State.edgeTrees a.parent := by
    intro edge h
    cases h with
    | first hstart hbinds => exact ha.bound_of_mem_edgesTo hroot hstart hbinds
    | back _ hedge hbinds => exact ha.bound_of_mem_edgesTo hroot hedge hbinds
  rcases hbound h with hempty | htree
  · rw [hempty]
    exact KeyTree.compatible_empty (Walk.isObject_bound _ edge')
  · rcases hbound h' with hempty | htree'
    · rw [hempty]
      exact (KeyTree.compatible_empty (Walk.isObject_bound _ edge)).symm
    · exact hcompatible a.parent ha.mem_scopesAround _ htree _ htree'

end Located

/-- The walks over reordered scopes follow the same edges. -/
theorem Reordered.walk_reordered
    {root root' : Value} {a a' : Address} {id : Text} (h : a.Reordered a')
    (hroot : root.Proper) (hroot' : root'.Proper) (ha : a.Located root id)
    (ha' : a'.Located root' id) (silent : Option Text) :
    (a.walk root silent).Reordered (a'.walk root' silent) := by
  have hstates : ∀ source, Option.Rel StateReordered (a.siblings.get? source)
      (a'.siblings.get? source) := by
    intro source
    have hdeclared := h.parent.declared (ha'.parent_proper hroot') source
    rw [ha.siblings.1, ha'.siblings.1] at hdeclared
    exact hdeclared
  refine ⟨funext fun edge => ?_, funext fun edge => ?_, fun target edge => ?_⟩
  · rw [Walk.binds, Walk.binds]
    rcases Option.rel_cases (hstates edge.1) with ⟨hnone, hnone'⟩ | ⟨state, state', hget, hget', hs⟩
    · rw [walk, walk, hnone, hnone']
    · rw [walk, walk, hget, hget']
      exact hs.sameBody.bindsVariables_eq
  · rw [Walk.bound, Walk.bound]
    rcases Option.rel_cases (hstates edge.1) with ⟨hnone, hnone'⟩ | ⟨state, state', hget, hget', hs⟩
    · rw [walk, walk, hnone, hnone']
    · rw [walk, walk, hget, hget', Option.getD_some, Option.getD_some, hs.sameBody.edgeVariables_eq]
  · rw [ha.mem_edgesTo_iff hroot, ha'.mem_edgesTo_iff hroot', h.parentPath]
    rcases Option.rel_cases (hstates edge.1) with ⟨hnone, hnone'⟩ | ⟨state, state', hget, hget', hs⟩
    · simp [hnone, hnone']
    · simp [hget, hget', hs.sameBody.nextIds_eq]

end Address

/-- The variables in scope of reordered workflows: trees with the same names, and with the same
shape as far as what is bound is compatible. -/
structure VariableScope.Agrees (compatible : Prop) (scope scope' : VariableScope) : Prop where
  own_names : ∀ name, name ∈ scope.own.names ↔ name ∈ scope'.own.names
  outer_names : ∀ name, name ∈ scope.outer.names ↔ name ∈ scope'.outer.names
  own_shape : compatible → Value.SameShape scope.own scope'.own
  outer_shape : compatible → Value.SameShape scope.outer scope'.outer

theorem VariableScope.Agrees.refl
    (compatible : Prop) (scope : VariableScope) :
    scope.Agrees compatible scope where
  own_names _ := Iff.rfl
  outer_names _ := Iff.rfl
  own_shape _ := Value.SameShape.refl _
  outer_shape _ := Value.SameShape.refl _

theorem isObject_scopeAt
    (root : Value) (entries : Predecessors) (levels : Nat) (a : Address) (fromInside : Bool) :
    (scopeAt root entries levels a fromInside).own.isObject = true ∧
      (scopeAt root entries levels a fromInside).outer.isObject = true :=
  scopeAt_induction (Q := fun _ => True) (P := fun tree => tree.isObject = true)
    (fun _ _ _ => trivial) KeyTree.isObject_empty (fun _ _ => KeyTree.isObject_merge)
    (fun _ _ _ => Walk.isObject_variablesTo _) levels trivial fromInside

theorem Address.Located.valid_variablesTo
    {root : Value} {a : Address} {id : Text} (ha : a.Located root id) (hroot : root.Proper)
    (entries : Predecessors) (silent : Option Text) (target : Text) :
    KeyTree.Valid
      ((⟨a.siblings, entries, a.parentPath, silent⟩ : Walk).variablesTo target) := by
  have hstates := (State.declared?_proper (ha.parent_proper hroot) ha.siblings.1).2
  exact Walk.valid_variablesTo
    (fun source state hget => hstates _ (Fields.mem_of_get? hget)) target

theorem valid_scopeAt
    {root : Value} (hroot : root.Proper) (entries : Predecessors) (levels : Nat)
    {a : Address} (ha : ∃ id, a.Located root id) (fromInside : Bool) :
    KeyTree.Valid (scopeAt root entries levels a fromInside).own ∧
      KeyTree.Valid (scopeAt root entries levels a fromInside).outer := by
  refine scopeAt_induction (Q := fun a => ∃ id, a.Located root id)
    (fun p a hfind => (findPath_eq_some_iff.mp hfind).2.2) KeyTree.valid_empty
    (fun _ _ => KeyTree.Valid.merge) ?_ levels ha fromInside
  rintro a ⟨id, ha⟩ silent target
  exact ha.valid_variablesTo hroot entries silent target

namespace Address

variable {root root' : Value}

/-- The scope of an owner stands at a beginning of the path of the scope that it owns. -/
theorem parentPath_prefix_of_owner
    {a owner : Address} (hfind : findPath root a.ownerPath = some owner) :
    owner.parentPath <+: a.parentPath := by
  obtain ⟨hpath, -, id, hlocated⟩ := findPath_eq_some_iff.mp hfind
  refine List.IsPrefix.trans ?_ (Path.ofOwner_prefix a.parentPath)
  rw [← Address.ownerPath, ← hpath, hlocated.path_eq]
  exact List.prefix_append _ _

/-- Reordered states that a path finds are located by one id. -/
theorem Reordered.exists_located
    {a a' : Address} (h : a.Reordered a') {p : Path} (hfind : findPath root p = some a)
    (hfind' : findPath root' p = some a') :
    ∃ id, a.Located root id ∧ a'.Located root' id := by
  obtain ⟨-, -, id, hlocated⟩ := findPath_eq_some_iff.mp hfind
  obtain ⟨-, -, id', hlocated'⟩ := findPath_eq_some_iff.mp hfind'
  have hid := hlocated.id?_eq
  rw [Address.id?, h.path, ← Address.id?, hlocated'.id?_eq, Option.some.injEq] at hid
  exact ⟨id, hlocated, hid ▸ hlocated'⟩

end Address

section Agreement

variable {root root' : Value}

/-- Level by level, reordered workflows have the same variables in scope. -/
theorem scopeAt_agrees
    (h : ScopeReordered root root') (hroot : root.Proper) (hroot' : root'.Proper) (levels : Nat) :
    ∀ {a a' : Address} {id : Text}, a.Reordered a' → a.Located root id → a'.Located root' id →
      ∀ fromInside : Bool,
        (scopeAt root (Predecessors.ofWorkflow root) levels a fromInside).Agrees
          (CompatibleAround root a.parentPath)
          (scopeAt root' (Predecessors.ofWorkflow root') levels a' fromInside) := by
  induction levels with
  | zero => exact fun _ _ _ _ => VariableScope.Agrees.refl _ _
  | succ levels ih =>
      intro a a' id hreordered ha ha' fromInside
      have hclosed : (fromInside && State.isKind a.state .map && State.isDistributed a.state) =
          (fromInside && State.isKind a'.state .map && State.isDistributed a'.state) := by
        rw [Bool.and_assoc, Bool.and_assoc]
        exact congrArg _ hreordered.isolates_eq
      rw [scopeAt, scopeAt, ← hclosed]
      split
      · exact VariableScope.Agrees.refl _ _
      · have hwalk := hreordered.walk_reordered hroot hroot' ha ha'
          (if fromInside then some id else none)
        have hshape : CompatibleAround root a.parentPath → _ := fun hcompatible =>
          hwalk.sameShape_variablesTo id fun _ _ => ha.compatible_bound hroot hcompatible
        have hownerPath : a'.ownerPath = a.ownerPath := by
          rw [Address.ownerPath, Address.ownerPath, hreordered.parentPath]
        simp only [ha.id?_eq, ha'.id?_eq, Option.getD_some, hownerPath]
        -- the walks settle the own variables; the outer ones come from the owner, one level less
        rcases Option.rel_cases (findPath_reordered h hroot' a.ownerPath) with
          ⟨hnone, hnone'⟩ | ⟨owner, owner', hfind, hfind', howner⟩
        · rw [hnone, hnone']
          exact ⟨hwalk.mem_names_iff id, fun _ => Iff.rfl, hshape,
            fun _ => Value.SameShape.refl _⟩
        · rw [hfind, hfind']
          dsimp only
          rw [← howner.isPresent_eq]
          by_cases hpresent : owner.isPresent = true
          · obtain ⟨ownerId, hlocated, hlocated'⟩ := howner.exists_located hfind hfind'
            have habove := ih howner hlocated hlocated' true
            have hobjects := isObject_scopeAt root (Predecessors.ofWorkflow root) levels owner true
            have hobjects' :=
              isObject_scopeAt root' (Predecessors.ofWorkflow root') levels owner' true
            rw [if_pos hpresent, if_pos hpresent]
            refine ⟨hwalk.mem_names_iff id, fun name => ?_, hshape, fun hcompatible => ?_⟩
            · rw [KeyTree.mem_names_merge_iff hobjects.1 hobjects.2,
                KeyTree.mem_names_merge_iff hobjects'.1 hobjects'.2, habove.own_names,
                habove.outer_names]
            · have hnearer := hcompatible.of_prefix (Address.parentPath_prefix_of_owner hfind)
              exact KeyTree.sameShape_merge (habove.own_shape hnearer) (habove.outer_shape hnearer)
          · rw [if_neg hpresent, if_neg hpresent]
            exact ⟨hwalk.mem_names_iff id, fun _ => Iff.rfl, hshape,
              fun _ => Value.SameShape.refl _⟩

/-- The scopes of a state in reordered workflows have the same names, whatever the order of states.
They are equal up to the order of names if, in each of the scopes around the state, what is bound
on the edges is compatible; trees of different scopes need not be. -/
theorem variableScope_reordered
    (h : ScopeReordered root root') (hroot : root.Proper) (hroot' : root'.Proper)
    {p : Path} (hp : p.Leads) :
    ∃ scope scope',
      variableScope root (Predecessors.ofWorkflow root) (.path p) none = .ok scope ∧
      variableScope root' (Predecessors.ofWorkflow root') (.path p) none = .ok scope' ∧
      (∀ name, name ∈ scope.own.names ↔ name ∈ scope'.own.names) ∧
      (∀ name, name ∈ scope.outer.names ↔ name ∈ scope'.outer.names) ∧
      (CompatibleAround root p.dropLast →
        scope.own.same scope'.own = true ∧ scope.outer.same scope'.outer = true) := by
  have hfind? : ∀ root, (Reference.path p).locate root = .ok (findPath root p) :=
    findPath?_of_leads hp
  rcases Option.rel_cases (findPath_reordered h hroot' p) with
    ⟨hnone, hnone'⟩ | ⟨a, a', hfind, hfind', hreordered⟩
  · have hempty : ∀ root, findPath root p = none →
        variableScope root (Predecessors.ofWorkflow root) (.path p) none = .ok .none := by
      intro root hnone
      unfold variableScope
      rw [hfind?, hnone]
      rfl
    exact ⟨_, _, hempty root hnone, hempty root' hnone', fun _ => Iff.rfl, fun _ => Iff.rfl,
      fun _ => ⟨rfl, rfl⟩⟩
  · obtain ⟨id, ha, ha'⟩ := hreordered.exists_located hfind hfind'
    have hlocate := hfind? root
    have hlocate' := hfind? root'
    rw [hfind] at hlocate
    rw [hfind'] at hlocate'
    rw [variableScope_of_locate hlocate ha.leads, variableScope_of_locate hlocate' ha'.leads,
      ← hreordered.isPresent_eq, ← hreordered.path]
    refine ⟨_, _, rfl, rfl, ?_⟩
    by_cases hpresent : a.isPresent = true
    · rw [if_pos hpresent, if_pos hpresent]
      have hagrees := scopeAt_agrees h hroot hroot' a.path.length hreordered ha ha' false
      have hvalid := valid_scopeAt hroot (Predecessors.ofWorkflow root) a.path.length ⟨id, ha⟩ false
      have hvalid' :=
        valid_scopeAt hroot' (Predecessors.ofWorkflow root') a.path.length ⟨id, ha'⟩ false
      have hparent : a.parentPath = p.dropLast := by
        rw [← (findPath_eq_some_iff.mp hfind).1, ha.path_eq, List.dropLast_concat]
      rw [hparent] at hagrees
      exact ⟨hagrees.own_names, hagrees.outer_names, fun hcompatible =>
        ⟨KeyTree.same_of_sameShape _ _ hvalid.1 hvalid'.1 (hagrees.own_shape hcompatible),
          KeyTree.same_of_sameShape _ _ hvalid.2 hvalid'.2 (hagrees.outer_shape hcompatible)⟩⟩
    · rw [if_neg hpresent, if_neg hpresent]
      exact ⟨fun _ => Iff.rfl, fun _ => Iff.rfl, fun _ => ⟨rfl, rfl⟩⟩

end Agreement

/-- Compatibility can be checked pair by pair. -/
theorem CompatibleAround.of_agree
    {root : Value} {b : Path}
    (h : ((scopesAround root b).all fun scope => (State.edgeTrees scope).all fun tree =>
      (State.edgeTrees scope).all fun tree' => KeyTree.agree tree tree') = true) :
    CompatibleAround root b := by
  intro scope hscope tree htree tree' htree'
  have hpairs := List.all_eq_true.mp (List.all_eq_true.mp h scope hscope) tree htree
  exact KeyTree.compatible_of_agree (List.all_eq_true.mp hpairs tree' htree')

/-- A loop around a Map state with a loop in it, the states of both scopes in a given order. -/
def nestedLoop (order : Fields → Fields) : Value :=
  .obj [("States", .obj (order [
    ("A", .obj [("Type", .str "Pass"), ("Assign", .obj [("x", .obj [("a", .int 1)])]),
      ("Next", .str "M")]),
    ("M", .obj [("Type", .str "Map"), ("Next", .str "B"),
      ("ItemProcessor", .obj [("States", .obj (order [
        ("C", .obj [("Type", .str "Pass"), ("Assign", .obj [("y", .int 1)]), ("Next", .str "D")]),
        ("D", .obj [("Type", .str "Wait"), ("Next", .str "E")]),
        ("E", .obj [("Type", .str "Pass"), ("Assign", .obj [("z", .arr [.int 1])]),
          ("Next", .str "D")])]))])]),
    ("B", .obj [("Type", .str "Pass"), ("Assign", .obj [("x", .obj [("b", .int 1)])]),
      ("Next", .str "M")])]))]

theorem nestedLoop_reordered :
    ScopeReordered (nestedLoop id) (nestedLoop List.reverse) := by
  refine ScopeReordered.fields (.cons (.states ?_ (List.reverse_perm _).symm) .nil)
  refine .cons (.state _ (.same _)) (.cons (.state _ ?_) (.cons (.state _ (.same _)) .nil))
  refine .fields (.cons (.same _) (.cons (.same _) (.cons (.processor (Or.inl rfl) ?_) .nil)))
  refine .fields (.cons (.states (List.forall₂_same.mpr ?_) (List.reverse_perm _).symm) .nil)
  exact fun field _ => .state field.1 (.same field.2)

/-- With both scopes reversed, the inner loop has the same variables in scope, in another order. -/
theorem variableScope_reordered_nestedLoop :
    ∃ scope scope',
      variableScope (nestedLoop id) (Predecessors.ofWorkflow (nestedLoop id))
        (.path [.name "M", .name "D"]) none = .ok scope ∧
      variableScope (nestedLoop List.reverse) (Predecessors.ofWorkflow (nestedLoop List.reverse))
        (.path [.name "M", .name "D"]) none = .ok scope' ∧
      scope.own.names ≠ scope'.own.names ∧
      (∀ name, name ∈ scope.own.names ↔ name ∈ scope'.own.names) ∧
      (∀ name, name ∈ scope.outer.names ↔ name ∈ scope'.outer.names) ∧
      scope.own.same scope'.own = true ∧ scope.outer.same scope'.outer = true := by
  have hleads : Path.Leads [.name "M", .name "D"] := by
    intro s hs
    simp only [List.mem_cons, List.not_mem_nil, or_false] at hs
    rcases hs with rfl | rfl <;> exact Or.inl rfl
  obtain ⟨scope, scope', hscope, hscope', hown, houter, hsame⟩ :=
    variableScope_reordered nestedLoop_reordered (by decide) (by decide) hleads
  have hcompatible := hsame (.of_agree (by decide))
  refine ⟨scope, scope', hscope, hscope', ?_, hown, houter, hcompatible⟩
  cases hscope
  cases hscope'
  decide

end Workflow
