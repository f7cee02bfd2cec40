import Workflow.Proofs.ScopeResolution
import Workflow.Proofs.StateOrder

/-!
# Workflows that agree along a path

Two workflows are compared along the path of a state.  In every scope on the way they declare
states with the same ids; the owner that the path goes through and the states beside it may differ,
each in a way of its own, and the comparison goes on in the nested scope that the path enters.
Nothing is asked of any other nested scope.

The variables in scope at the end of the path are the same, provided that all states on the way
have the same kinds and the same successors, and that the states beside the owners bind the same
variables.  What an owner binds is not asked for: the walk in its scope leaves it out.
-/

namespace Workflow

/-- Values that agree in everything but the fields with some names. -/
structure Value.AgreeBut (names : List Text) (v w : Value) : Prop where
  isObject : v.isObject = w.isObject
  field : ∀ name ∉ names, v.get? name = w.get? name

namespace State

/-- States of one kind with the same successors. -/
structure SameEdges (s s' : Value) : Prop where
  kind? : State.kind? s = State.kind? s'
  nextIds : State.nextIds s = State.nextIds s'

/-- States with the same successors that bind the same variables on the way to them. -/
structure SameEffects (s s' : Value) : Prop extends SameEdges s s' where
  isNull : s.isNull = s'.isNull
  edgeVariables : State.edgeVariables s = State.edgeVariables s'

/-- A state has the effects of any state with the same body. -/
theorem SameBody.sameEffects
    {s s' : Value} (h : SameBody s s') :
    SameEffects s s' where
  kind? := h.kind?_eq
  nextIds := h.nextIds_eq
  isNull := h.isNull
  edgeVariables := h.edgeVariables_eq

theorem SameEffects.refl
    (s : Value) :
    SameEffects s s where
  kind? := rfl
  nextIds := rfl
  isNull := rfl
  edgeVariables := rfl

/-- The branch that a segment selects is found at its index. -/
theorem branchAt?_of_index
    {owner branch : Value} {scopes : List Value} {s : Segment} {i : Nat}
    (hscopes : branches? owner = some scopes) (hindex : s.index? = some (i : Int))
    (hbranch : scopes[i]? = some branch) :
    branchAt? owner s = some branch := by
  have hnonneg : ¬ (i : Int) < 0 := Int.not_lt.mpr (Int.natCast_nonneg i)
  rw [branchAt?, hindex, hscopes, Option.bind_some, Option.bind_some, if_neg hnonneg,
    Int.toNat_natCast, hbranch]

end State

/-- A Parallel state leads on along the branch that a segment selects. -/
theorem OwnerPath.of_branchAt?
    {scope owner branch inner : Value} {id : Text} {s : Segment} {rest : Path}
    (howner : (State.declared? scope).bind (Fields.get? · id) = some owner)
    (hkind : State.kind? owner = some .parallel) (hbranch : State.branchAt? owner s = some branch)
    (hrest : OwnerPath branch rest inner) :
    OwnerPath scope (.name id :: s :: rest) inner := by
  obtain ⟨i, hindex, hfound⟩ := Option.bind_eq_some_iff.mp hbranch
  obtain ⟨scopes, hscopes, hfound⟩ := Option.bind_eq_some_iff.mp hfound
  split at hfound
  · cases hfound
  · next hnonneg =>
      obtain ⟨n, rfl⟩ := Int.eq_ofNat_of_zero_le (Int.not_lt.mp hnonneg)
      exact OwnerPath.branch howner hkind hscopes hindex hfound hrest

section Agreement

variable (owned beside : Value → Value → Prop)

/-- Declarations under one id.  The owner that a path goes through, if it is this one, is compared
in one way, and any other state in another. -/
structure DeclarationAgrees (owner : Option Text) (field field' : Text × Value) : Prop where
  id : field.1 = field'.1
  owned : owner = some field.1 → owned field.2 field'.2
  beside : owner ≠ some field.1 → beside field.2 field'.2

/-- Scopes that agree in everything but their states, and whose states agree one by one. -/
structure ScopeAgrees (owner : Option Text) (scope scope' : Value) : Prop where
  fields : Value.AgreeBut ["States"] scope scope'
  states : Option.Rel (List.Forall₂ (DeclarationAgrees owned beside owner))
    (State.declared? scope) (State.declared? scope')

/-- Scopes that agree along a path to a state. -/
inductive AgreeAlong : Path → Value → Value → Prop
  | state
      {id : Text} {scope scope' : Value} (hscope : ScopeAgrees owned beside none scope scope') :
      AgreeAlong [.name id] scope scope'
  | map
      {id : Text} {scope scope' owner owner' : Value} {rest : Path}
      (hscope : ScopeAgrees owned beside (some id) scope scope')
      (howner : (State.declared? scope).bind (Fields.get? · id) = some owner)
      (howner' : (State.declared? scope').bind (Fields.get? · id) = some owner')
      (hkind : State.kind? owner = some .map)
      (hrest : AgreeAlong rest (State.processor owner) (State.processor owner')) :
      AgreeAlong (.name id :: rest) scope scope'
  | branch
      {id : Text} {scope scope' owner owner' branch branch' : Value} {s : Segment} {rest : Path}
      (hscope : ScopeAgrees owned beside (some id) scope scope')
      (howner : (State.declared? scope).bind (Fields.get? · id) = some owner)
      (howner' : (State.declared? scope').bind (Fields.get? · id) = some owner')
      (hkind : State.kind? owner = some .parallel)
      (hbranch : State.branchAt? owner s = some branch)
      (hbranch' : State.branchAt? owner' s = some branch')
      (hrest : AgreeAlong rest branch branch') :
      AgreeAlong (.name id :: s :: rest) scope scope'

end Agreement

variable {owned owned' beside beside' : Value → Value → Prop}

namespace ScopeAgrees

variable {owner : Option Text} {scope scope' : Value}

theorem mono
    (howned : ∀ s s', owned s s' → owned' s s') (hbeside : ∀ s s', beside s s' → beside' s s')
    (h : ScopeAgrees owned beside owner scope scope') :
    ScopeAgrees owned' beside' owner scope scope' where
  fields := h.fields
  states := Option.rel_imp (fun _ _ _ hstates => hstates.imp fun _ _ hstate =>
    ⟨hstate.id, fun howner => howned _ _ (hstate.owned howner),
      fun hother => hbeside _ _ (hstate.beside hother)⟩) h.states

/-- A scope agrees with itself where the path ends. -/
theorem refl
    (hbeside : ∀ s, beside s s) (scope : Value) :
    ScopeAgrees owned beside none scope scope where
  fields := ⟨rfl, fun _ _ => rfl⟩
  states := Option.rel_refl
    (fun _ => List.forall₂_same.mpr fun field _ => ⟨rfl, nofun, fun _ => hbeside field.2⟩) _

/-- Under one id, such scopes declare states that agree. -/
theorem declared
    (h : ScopeAgrees owned beside owner scope scope') (id : Text) :
    Option.Rel (fun s s' => DeclarationAgrees owned beside owner (id, s) (id, s'))
      ((State.declared? scope).bind (Fields.get? · id))
      ((State.declared? scope').bind (Fields.get? · id)) := by
  rcases Option.rel_cases h.states with ⟨hnone, hnone'⟩ | ⟨states, states', hsome, hsome', hstates⟩
  · rw [hnone, hnone']
    exact Option.Rel.none
  · rw [hsome, hsome']
    exact Fields.get?_of_forall₂ hstates (fun _ _ hstate => hstate.id) id

/-- Such scopes ask for the same execution mode. -/
theorem modeOf_eq
    (h : ScopeAgrees owned beside owner scope scope') :
    State.modeOf scope = State.modeOf scope' := by
  have hconfig := h.fields.field "ProcessorConfig" (by decide)
  unfold State.modeOf Value.get
  rw [hconfig]

end ScopeAgrees

namespace AgreeAlong

variable {p rest : Path} {id : Text} {root root' scope scope' owner owner' : Value}

theorem mono
    (howned : ∀ s s', owned s s' → owned' s s') (hbeside : ∀ s s', beside s s' → beside' s s')
    (h : AgreeAlong owned beside p root root') :
    AgreeAlong owned' beside' p root root' := by
  induction h with
  | state hscope => exact state (hscope.mono howned hbeside)
  | map hscope howner howner' hkind _ ih =>
      exact map (hscope.mono howned hbeside) howner howner' hkind ih
  | branch hscope howner howner' hkind hbranch hbranch' _ ih =>
      exact branch (hscope.mono howned hbeside) howner howner' hkind hbranch hbranch' ih

theorem ne_nil
    (h : AgreeAlong owned beside p root root') :
    p ≠ [] := by
  cases h <;> exact List.cons_ne_nil _ _

/-- The scopes where a path begins; the state that the path names first is an owner when the path
goes on. -/
theorem scopeAgrees
    (h : AgreeAlong owned beside (.name id :: rest) root root') :
    ScopeAgrees owned beside (if !rest.isEmpty then some id else none) root root' := by
  cases h with
  | state hscope => exact hscope
  | map hscope _ _ _ hrest =>
      rw [List.isEmpty_eq_false_iff.mpr hrest.ne_nil]
      exact hscope
  | branch hscope => exact hscope

theorem modeOf_eq
    (h : AgreeAlong owned beside p root root') :
    State.modeOf root = State.modeOf root' := by
  cases h with
  | state hscope => exact hscope.modeOf_eq
  | map hscope => exact hscope.modeOf_eq
  | branch hscope => exact hscope.modeOf_eq

/-- The owners where a path begins. -/
theorem owned_of_declared
    (h : AgreeAlong owned beside (.name id :: rest) root root') (hrest : rest ≠ [])
    (howner : (State.declared? root).bind (Fields.get? · id) = some owner)
    (howner' : (State.declared? root').bind (Fields.get? · id) = some owner') :
    owned owner owner' := by
  have hscope := h.scopeAgrees
  rw [List.isEmpty_eq_false_iff.mpr hrest] at hscope
  have hdeclared := hscope.declared id
  rw [howner, howner'] at hdeclared
  cases hdeclared with
  | some hagrees => exact hagrees.owned rfl

/-- A path goes on in the scopes of the Map states where it begins. -/
theorem processors
    (h : AgreeAlong owned beside (.name id :: rest) root root') (hrest : rest ≠ [])
    (howner : (State.declared? root).bind (Fields.get? · id) = some owner)
    (hkind : State.kind? owner = some .map) :
    ∃ owner', (State.declared? root').bind (Fields.get? · id) = some owner' ∧
      AgreeAlong owned beside rest (State.processor owner) (State.processor owner') := by
  cases h with
  | state => exact absurd rfl hrest
  | @map _ _ _ _ owner' _ _ hfound howner' _ hinner =>
      rw [howner, Option.some.injEq] at hfound
      exact ⟨owner', howner', hfound ▸ hinner⟩
  | branch _ hfound _ hparallel =>
      rw [howner, Option.some.injEq] at hfound
      rw [hfound, hparallel] at hkind
      cases hkind

/-- A path goes on in the branches, of the Parallel states where it begins, that it selects. -/
theorem branches
    {s : Segment} {branch : Value}
    (h : AgreeAlong owned beside (.name id :: s :: rest) root root')
    (howner : (State.declared? root).bind (Fields.get? · id) = some owner)
    (hkind : State.kind? owner = some .parallel) (hbranch : State.branchAt? owner s = some branch) :
    ∃ owner' branch', (State.declared? root').bind (Fields.get? · id) = some owner' ∧
      State.branchAt? owner' s = some branch' ∧ AgreeAlong owned beside rest branch branch' := by
  cases h with
  | map _ hfound _ hmap =>
      rw [howner, Option.some.injEq] at hfound
      rw [hfound, hmap] at hkind
      cases hkind
  | @branch _ _ _ _ owner' _ branch' _ _ _ hfound howner' _ hselected hbranch' hinner =>
      rw [howner, Option.some.injEq] at hfound
      rw [← hfound, hbranch, Option.some.injEq] at hselected
      exact ⟨owner', branch', howner', hbranch', hselected ▸ hinner⟩

/-- The comparison goes on in the scopes that the beginning of a path leads to. -/
theorem of_ownerPath
    (howned : ∀ s s', owned s s' → State.kind? s = State.kind? s') {b : Path}
    (hb : OwnerPath root b scope) :
    ∀ {root' : Value}, AgreeAlong owned beside (b ++ .name id :: rest) root root' →
      ∃ scope', OwnerPath root' b scope' ∧
        AgreeAlong owned beside (.name id :: rest) scope scope' := by
  have hgoesOn : ∀ front : Path, front ++ .name id :: rest ≠ [] := fun front =>
    List.append_ne_nil_of_right_ne_nil front (List.cons_ne_nil _ _)
  induction hb with
  | here root =>
      intro root' h
      exact ⟨root', OwnerPath.here root', h⟩
  | @map root ownerId owner front scope howner hkind _ ih =>
      intro root' h
      obtain ⟨owner', howner', hinner⟩ := h.processors (hgoesOn front) howner hkind
      have hsame := howned _ _ (h.owned_of_declared (hgoesOn front) howner howner')
      obtain ⟨scope', hscope', hrest⟩ := ih hinner
      exact ⟨scope', OwnerPath.map howner' (hsame ▸ hkind) hscope', hrest⟩
  | @branch root ownerId owner scopes s i branch front scope howner hkind hscopes hindex hbranch _
      ih =>
      intro root' h
      have hselected := State.branchAt?_of_index hscopes hindex hbranch
      obtain ⟨owner', branch', howner', hbranch', hinner⟩ := h.branches howner hkind hselected
      have hsame := howned _ _ (h.owned_of_declared (List.cons_ne_nil _ _) howner howner')
      obtain ⟨scope', hscope', hrest⟩ := ih hinner
      exact ⟨scope', OwnerPath.of_branchAt? howner' (hsame ▸ hkind) hbranch' hscope', hrest⟩

end AgreeAlong

section Observations

variable {w w' : Value}

/-- The nearest owners of states in scopes with one path are found under one path, too. -/
theorem Address.Located.exists_owners
    {a a' : Address} {id id' : Text} (ha : a.Located w id) (ha' : a'.Located w' id')
    (hparent : a.parentPath = a'.parentPath) (hne : a.parentPath ≠ [])
    (hlength : a.path.length ≤ maxPathLength) :
    ∃ (owner owner' : Address) (ownerId : Text), owner.Located w ownerId ∧
      owner'.Located w' ownerId ∧ owner.isPresent = true ∧ owner'.isPresent = true ∧
      findPath w a.ownerPath = some owner ∧ findPath w' a.ownerPath = some owner' ∧
      owner.parentPath = owner'.parentPath ∧ owner.path <+: a.parentPath := by
  obtain ⟨owner, ownerId, howner, hpresent, hpath, -, -, -⟩ := ha.exists_owner hne
  obtain ⟨owner', ownerId', howner', hpresent', hpath', -, -, -⟩ :=
    ha'.exists_owner (hparent ▸ hne)
  have hsame : owner.path = owner'.path := by
    rw [← hpath, ← hpath', Address.ownerPath, Address.ownerPath, hparent]
  rw [howner.path_eq, howner'.path_eq] at hsame
  obtain ⟨hparents, hlast⟩ := List.append_inj' hsame rfl
  simp only [List.cons.injEq, Segment.name.injEq, and_true] at hlast
  have hprefix : owner.path <+: a.parentPath := hpath ▸ Path.ofOwner_prefix a.parentPath
  have hshort := ha.length_parentPath hlength
  have hfind' : findPath w' a'.ownerPath = some owner' :=
    howner'.findPath_ownerPath hpath' (hparent ▸ hshort)
  rw [Address.ownerPath, ← hparent, ← Address.ownerPath] at hfind'
  exact ⟨owner, owner', ownerId, howner, hlast ▸ howner', hpresent, hpresent',
    howner.findPath_ownerPath hpath hshort, hfind', hparents, hprefix⟩

/-- Scopes whose states have the same successors have the same predecessors. -/
theorem ScopeAgrees.predecessorsIn_eq
    {owner : Option Text} {scope scope' : Value}
    (h : ScopeAgrees State.SameEdges State.SameEffects owner scope scope') (target : Text) :
    State.predecessorsIn scope target = State.predecessorsIn scope' target := by
  unfold State.predecessorsIn
  rcases Option.rel_cases h.states with ⟨hnone, hnone'⟩ | ⟨states, states', hsome, hsome', hstates⟩
  · rw [hnone, hnone']
  · rw [hsome, hsome', Option.getD_some, Option.getD_some]
    clear hsome hsome'
    induction hstates with
    | nil => rfl
    | @cons field field' _ _ hagrees _ ih =>
        have hnext : State.nextIds field.2 = State.nextIds field'.2 := by
          by_cases howner : owner = some field.1
          · exact (hagrees.owned howner).nextIds
          · exact (hagrees.beside howner).nextIds
        rw [List.filter_cons, List.filter_cons, hnext]
        split
        · rw [List.map_cons, List.map_cons, hagrees.id, ih]
        · exact ih

/-- In such scopes the walks for an owner find the same, whatever the owner binds. -/
theorem ScopeAgrees.variablesTo_eq
    {owner : Option Text} {a a' : Address} {id id' : Text}
    (h : ScopeAgrees State.SameEdges State.SameEffects owner a.parent a'.parent)
    (hw : w.Proper) (hw' : w'.Proper) (ha : a.Located w id) (ha' : a'.Located w' id')
    (hpath : a.parentPath = a'.parentPath) (target : Text) :
    (⟨a.siblings, Predecessors.ofWorkflow w, a.parentPath, owner⟩ : Walk).variablesTo target =
      (⟨a'.siblings, Predecessors.ofWorkflow w', a'.parentPath, owner⟩ :
        Walk).variablesTo target := by
  have hstates : ∀ source, Option.Rel
      (fun s s' => DeclarationAgrees State.SameEdges State.SameEffects owner (source, s)
        (source, s')) (a.siblings.get? source) (a'.siblings.get? source) := by
    intro source
    have hdeclared := h.declared source
    rw [ha.siblings.1, ha'.siblings.1] at hdeclared
    exact hdeclared
  refine Walk.variablesTo_congr (funext fun edge => ?_) (funext fun edge => ?_) (fun id => ?_)
    target
  · rw [Walk.binds, Walk.binds]
    rcases Option.rel_cases (hstates edge.1) with ⟨hnone, hnone'⟩ | ⟨s, s', hget, hget', hagrees⟩
    · rw [hnone, hnone']
    · have hkind : State.kind? s = State.kind? s' := by
        by_cases howner : owner = some edge.1
        · exact (hagrees.owned howner).kind?
        · exact (hagrees.beside howner).kind?
      rw [hget, hget', Option.getD_some, Option.getD_some, State.bindsVariables,
        State.bindsVariables, State.kindHas, State.kindHas, hkind]
  · rw [Walk.bound, Walk.bound]
    by_cases howner : owner = some edge.1
    · -- the bindings of the owner are left out
      simp [howner]
    · rcases Option.rel_cases (hstates edge.1) with ⟨hnone, hnone'⟩ | ⟨s, s', hget, hget', hagrees⟩
      · rw [hnone, hnone']
      · rw [hget, hget', Option.getD_some, Option.getD_some, (hagrees.beside howner).edgeVariables]
  · rw [Walk.edgesTo, Walk.edgesTo, sources_ofWorkflow hw ha.scope,
      sources_ofWorkflow hw' ha'.scope, h.predecessorsIn_eq, hpath]

namespace AgreeAlong

/-- The owners of two scopes that a path goes through isolate together. -/
theorem isolates_eq
    {id : Text} {rest : Path} {a a' : Address}
    (h : AgreeAlong State.SameEdges beside (.name id :: rest) a.parent a'.parent)
    (hrest : rest ≠ []) (ha : a.Located w id) (ha' : a'.Located w' id) :
    a.isolates = a'.isolates := by
  refine Address.isolates_congr (h.owned_of_declared hrest ha.declared ha'.declared).kind?
    fun hmap => ?_
  obtain ⟨owner', howner', hinner⟩ := h.processors hrest ha.declared hmap
  rw [ha'.declared, Option.some.injEq] at howner'
  rw [← howner'] at hinner
  exact hinner.modeOf_eq

/-- Level by level, workflows that agree along a path have the same variables in scope. -/
theorem scopeAt_eq
    {p : Path} (h : AgreeAlong State.SameEdges State.SameEffects p w w')
    (hw : w.Proper) (hw' : w'.Proper) (levels : Nat) :
    ∀ {a a' : Address} {id : Text} {rest : Path}, p = a.parentPath ++ .name id :: rest →
      a.Located w id → a'.Located w' id → a.parentPath = a'.parentPath →
      a.path.length ≤ maxPathLength →
      scopeAt w (Predecessors.ofWorkflow w) levels a (!rest.isEmpty) =
        scopeAt w' (Predecessors.ofWorkflow w') levels a' (!rest.isEmpty) := by
  induction levels with
  | zero =>
      intro a a' id rest _ _ _ _ _
      rfl
  | succ levels ih =>
      intro a a' id rest hp ha ha' hparent hlength
      obtain ⟨scope', hscope', hhere⟩ := of_ownerPath (fun _ _ hs => hs.kind?) ha.scope (hp ▸ h)
      rw [hparent] at hscope'
      obtain rfl := hscope'.unique ha'.scope
      have hclosed : (!rest.isEmpty && State.isKind a.state .map && State.isDistributed a.state) =
          (!rest.isEmpty && State.isKind a'.state .map && State.isDistributed a'.state) := by
        rw [Bool.and_assoc, Bool.and_assoc]
        cases rest with
        | nil => rfl
        | cons s rest => exact hhere.isolates_eq (List.cons_ne_nil s rest) ha ha'
      have hown := hhere.scopeAgrees.variablesTo_eq hw hw' ha ha' hparent id
      have hownerPath : a'.ownerPath = a.ownerPath := by
        rw [Address.ownerPath, Address.ownerPath, hparent]
      rw [scopeAt, scopeAt, ← hclosed]
      split
      · rfl
      · simp only [ha.id?_eq, ha'.id?_eq, Option.getD_some, hown, hownerPath]
        by_cases htop : a.parentPath = []
        · -- states at the top have no owner
          have hnone : ∀ root, findPath root a.ownerPath = none := by
            intro root
            rw [Address.ownerPath, htop]
            rfl
          rw [hnone, hnone]
        · -- both owners stand at the same beginning of the path
          obtain ⟨owner, owner', ownerId, howner, howner', hpresent, hpresent', hfind, hfind',
            hparents, front, hfront⟩ := ha.exists_owners ha' hparent htop hlength
          obtain ⟨hpath, hshort, -⟩ := findPath_eq_some_iff.mp hfind
          rw [← hpath] at hshort
          rw [howner.path_eq] at hfront
          have hgoesOn : p = owner.parentPath ++ .name ownerId :: (front ++ .name id :: rest) := by
            rw [hp, ← hfront, List.append_assoc, List.append_assoc, List.singleton_append]
          have habove := ih hgoesOn howner howner' hparents hshort
          rw [List.isEmpty_eq_false_iff.mpr (List.append_ne_nil_of_right_ne_nil front
            (List.cons_ne_nil _ _)), Bool.not_false] at habove
          rw [hfind, hfind']
          simp only [hpresent, hpresent', habove]

/-- What one workflow holds at the end of a path has its counterpart in the other. -/
theorem exists_counterpart
    {p : Path} (h : AgreeAlong State.SameEdges State.SameEffects p w w') {a : Address}
    (ha : findPath w p = some a) :
    ∃ (a' : Address) (id : Text), findPath w' p = some a' ∧ a.Located w id ∧ a'.Located w' id ∧
      a.parentPath = a'.parentPath ∧ a.isPresent = a'.isPresent := by
  obtain ⟨hpath, hlength, id, hlocated⟩ := findPath_eq_some_iff.mp ha
  rw [← hpath, hlocated.path_eq] at h
  obtain ⟨scope', hscope', hhere⟩ := of_ownerPath (fun _ _ hs => hs.kind?) hlocated.scope h
  have hdeclared := hhere.scopeAgrees.declared id
  rw [hlocated.declared] at hdeclared
  cases hstate : (State.declared? scope').bind (Fields.get? · id) with
  | none =>
      rw [hstate] at hdeclared
      cases hdeclared
  | some state' =>
      rw [hstate] at hdeclared
      have hlocated' : Address.Located w' ⟨state', scope', p, a.parentPath⟩ id :=
        ⟨hpath ▸ hlocated.path_eq, hscope', hstate⟩
      refine ⟨_, id, findPath_eq_some_iff.mpr ⟨rfl, hlength, id, hlocated'⟩, hlocated, hlocated',
        rfl, ?_⟩
      cases hdeclared with
      | some hagrees => rw [Address.isPresent, Address.isPresent, (hagrees.beside (by simp)).isNull]

/-- The variables in scope at the end of a path are the same in workflows that agree along it. -/
theorem variableScope_eq
    {p : Path} (h : AgreeAlong State.SameEdges State.SameEffects p w w')
    (hw : w.Proper) (hw' : w'.Proper) {a : Address} (ha : findPath w p = some a) :
    variableScope w (Predecessors.ofWorkflow w) (.path p) none =
      variableScope w' (Predecessors.ofWorkflow w') (.path p) none := by
  obtain ⟨a', id, ha', hlocated, hlocated', hparent, hpresent⟩ := h.exists_counterpart ha
  obtain ⟨hpath, hlength, -⟩ := findPath_eq_some_iff.mp ha
  have hpath' : a'.path = p := (findPath_eq_some_iff.mp ha').1
  have hfind? : ∀ root, (Reference.path p).locate root = .ok (findPath root p) :=
    findPath?_of_leads (hpath ▸ hlocated.leads)
  have hlocate := hfind? w
  have hlocate' := hfind? w'
  rw [ha] at hlocate
  rw [ha'] at hlocate'
  have hscope := h.scopeAt_eq hw hw' a.path.length (hpath.symm.trans hlocated.path_eq) hlocated
    hlocated' hparent (hpath.symm ▸ hlength)
  rw [List.isEmpty_nil, Bool.not_true] at hscope
  rw [variableScope_of_locate hlocate hlocated.leads,
    variableScope_of_locate hlocate' hlocated'.leads, ← hpresent, hscope, hpath, hpath']

end AgreeAlong

end Observations

end Workflow
