import Workflow.Proofs.BackwardWalk
import Workflow.Proofs.EnclosingOwners
import Workflow.Proofs.ReverseAdjacency

/-!
# Exactness of scope resolution

Which names are in scope at a state, said without a walk.  A name is bound before a state when some
other state of the same scope binds it on an edge from where control can get to the state, passing
through states which may bind variables.  The variables of a state's own scope are the names bound
before it, and its outer variables those bound before one of the owners it can see, the bindings of
this owner itself left out.
-/

namespace Workflow

/-- Control can get from an id to the target, passing through states which may bind variables. -/
inductive LeadsTo (states : Fields) (target : Text) : Text → Prop
  | here :
      LeadsTo states target target
  | along
      {id next : Text} {state : Value}
      (hget : states.get? id = some state)
      (hbinds : State.bindsVariables state = true)
      (hnext : next ∈ State.nextIds state)
      (hrest : LeadsTo states target next) :
      LeadsTo states target id

/-- A state of the scope, other than the silent one, binds a name on the way to some id from where
control can get to the target. -/
def BoundBefore (states : Fields) (target : Text) (silent : Option Text) (name : Text) : Prop :=
  ∃ source state id, states.get? source = some state ∧ State.bindsVariables state = true ∧
    silent ≠ some source ∧ name ∈ (State.edgeVariables state (.str id)).names ∧
    LeadsTo states target id

namespace Walk

variable {walk : Walk} {scope : Value}

theorem binds_of_get?
    {source target : Text} {state : Value} (h : walk.states.get? source = some state) :
    walk.binds (source, target) = State.bindsVariables state := by
  rw [binds, h, Option.getD_some]

theorem bound_of_get?
    {source target : Text} {state : Value} (h : walk.states.get? source = some state) :
    walk.bound (source, target) =
      if walk.silent = some source then KeyTree.empty
      else State.edgeVariables state (.str target) := by
  simp only [bound, h, Option.getD_some, beq_iff_eq]

section ExactEdges

variable (hscope : scope.Proper) (hstates : State.declared? scope = some walk.states)
variable (hsources : ∀ target,
  walk.entries.sources walk.path target = State.predecessorsIn scope target)

include hscope hstates hsources

/-- The edges to a state come from the states of the scope that have it as a successor. -/
theorem mem_edgesTo_iff
    {edge : ScopeEdge} {target : Text} :
    edge ∈ walk.edgesTo target ↔
      edge.2 = target ∧
        ∃ state, walk.states.get? edge.1 = some state ∧ target ∈ State.nextIds state := by
  have hnames := (State.declared?_proper hscope hstates).1
  rw [edgesTo, hsources, List.mem_map]
  constructor
  · rintro ⟨source, hsource, rfl⟩
    rw [List.mem_reverse, State.mem_predecessorsIn_iff hstates hnames] at hsource
    exact ⟨rfl, hsource⟩
  · rintro ⟨rfl, hsource⟩
    refine ⟨edge.1, ?_, rfl⟩
    rw [List.mem_reverse, State.mem_predecessorsIn_iff hstates hnames]
    exact hsource

/-- An edge that reaches the target has a source that may bind variables, and an end from where
control can get to the target. -/
theorem leadsTo_of_reaches
    {edge : ScopeEdge} {target : Text} (h : walk.Reaches (walk.edgesTo target) edge) :
    LeadsTo walk.states target edge.2 ∧
      ∃ state, walk.states.get? edge.1 = some state ∧ State.bindsVariables state = true ∧
        edge.2 ∈ State.nextIds state := by
  induction h with
  | @first edge hstart hbinds =>
      obtain ⟨heq, state, hget, hnext⟩ :=
        (mem_edgesTo_iff hscope hstates hsources).mp hstart
      rw [heq]
      refine ⟨LeadsTo.here, state, hget, ?_, hnext⟩
      rw [← binds_of_get? hget]
      exact hbinds
  | @back edge earlier hreaches hedge hbinds ih =>
      obtain ⟨hleads, state, hget, hstate, hnext⟩ := ih
      obtain ⟨heq, source, hsource, htarget⟩ :=
        (mem_edgesTo_iff hscope hstates hsources).mp hedge
      rw [heq]
      refine ⟨LeadsTo.along hget hstate hnext hleads, source, hsource, ?_, htarget⟩
      rw [← binds_of_get? hsource]
      exact hbinds

/-- Every edge whose source may bind variables reaches the target, if control can get there from
the end of the edge. -/
theorem reaches_of_leadsTo
    {target id : Text} (h : LeadsTo walk.states target id) :
    ∀ {source : Text} {state : Value}, walk.states.get? source = some state →
      State.bindsVariables state = true → id ∈ State.nextIds state →
      walk.Reaches (walk.edgesTo target) (source, id) := by
  induction h with
  | here =>
      intro source state hget hbinds hnext
      refine Reaches.first ?_ ?_
      · exact (mem_edgesTo_iff hscope hstates hsources).mpr ⟨rfl, state, hget, hnext⟩
      · rw [binds_of_get? hget]
        exact hbinds
  | @along id next middle hmiddle hmiddleBinds hmiddleNext hrest ih =>
      intro source state hget hbinds hnext
      refine Reaches.back (ih hmiddle hmiddleBinds hmiddleNext) ?_ ?_
      · exact (mem_edgesTo_iff hscope hstates hsources).mpr ⟨rfl, state, hget, hnext⟩
      · rw [binds_of_get? hget]
        exact hbinds

/-- The walk finds exactly the names that are bound before its target. -/
theorem mem_variablesTo_iff
    (target name : Text) :
    name ∈ (walk.variablesTo target).names ↔ BoundBefore walk.states target walk.silent name := by
  rw [mem_names_variablesTo_iff]
  constructor
  · rintro ⟨⟨source, id⟩, hreaches, hname⟩
    obtain ⟨hleads, state, hget, hbinds, -⟩ :=
      leadsTo_of_reaches hscope hstates hsources hreaches
    rw [bound_of_get? hget] at hname
    split at hname
    · simp at hname
    · next hsilent => exact ⟨source, state, id, hget, hbinds, hsilent, hname, hleads⟩
  · rintro ⟨source, state, id, hget, hbinds, hsilent, hname, hleads⟩
    refine ⟨(source, id), ?_, ?_⟩
    · have hnext := State.mem_nextIds_of_edgeVariables hname
      exact reaches_of_leadsTo hscope hstates hsources hleads hget hbinds hnext
    · rw [bound_of_get? hget, if_neg hsilent]
      exact hname

end ExactEdges

end Walk

/-- A name is bound before one of the owners that a state can see, by a state beside this owner. -/
def BoundOutside (root : Value) (p : Path) (name : Text) : Prop :=
  ∃ owner ∈ visibleOwners root p, ∃ id, owner.id? = some id ∧
    BoundBefore owner.siblings id (some id) name

/-- The variables in scope are two trees with given names. -/
structure VariableScope.Binds (scope : VariableScope) (own outer : Text → Prop) : Prop where
  own_object : scope.own.isObject = true
  outer_object : scope.outer.isObject = true
  own_names : ∀ name, name ∈ scope.own.names ↔ own name
  outer_names : ∀ name, name ∈ scope.outer.names ↔ outer name

theorem VariableScope.binds_none :
    VariableScope.none.Binds (fun _ => False) (fun _ => False) where
  own_object := KeyTree.isObject_empty
  outer_object := KeyTree.isObject_empty
  own_names := by simp [VariableScope.none]
  outer_names := by simp [VariableScope.none]

/-- The names outside a state: those before its nearest owner and those outside of this owner. -/
theorem boundOutside_of_owner
    {root : Value} {p : Path} {owner : Address} {id : Text}
    (howner : owner.Located root id) (hfind : findPath root owner.path = some owner)
    (henclosing : p.enclosing = owner.path :: owner.path.enclosing) (name : Text) :
    BoundOutside root p name ↔
      owner.isolates = false ∧
        (BoundBefore owner.siblings id (some id) name ∨ BoundOutside root owner.path name) := by
  rw [BoundOutside, visibleOwners_of_owner hfind henclosing]
  cases hisolates : owner.isolates with
  | true => simp
  | false =>
      simp only [Bool.false_eq_true, if_false, List.mem_cons, true_and]
      constructor
      · rintro ⟨other, rfl | hother, otherId, hid, hbound⟩
        · rw [howner.id?_eq, Option.some.injEq] at hid
          rw [hid]
          exact Or.inl hbound
        · exact Or.inr ⟨other, hother, otherId, hid, hbound⟩
      · rintro (hbound | ⟨other, hother, otherId, hid, hbound⟩)
        · exact ⟨owner, Or.inl rfl, id, howner.id?_eq, hbound⟩
        · exact ⟨other, Or.inr hother, otherId, hid, hbound⟩

/-- The variables in scope at a state that a reference finds. -/
theorem variableScope_of_locate
    {root : Value} {target : Reference} {a : Address}
    (h : target.locate root = .ok (some a)) (hpath : a.path.Leads) (entries : Predecessors) :
    variableScope root entries target none =
      .ok (if a.isPresent then scopeAt root entries a.path.length a false else .none) := by
  rw [variableScope_eq_bind, Option.getD_none, h]
  simp only [Except.bind, Except.map, scopeBetween, Bool.and_self, Path.same_self hpath,
    Bool.not_true]

/-- What holds of the tree without names and of all that the walks find, and is kept by merging,
holds of the variables in scope at an address. -/
theorem scopeAt_induction
    {root : Value} {entries : Predecessors} {Q : Address → Prop} {P : Value → Prop}
    (hfound : ∀ p a, findPath root p = some a → Q a)
    (hempty : P KeyTree.empty) (hmerge : ∀ v w, P v → P w → P (KeyTree.merge v w))
    (hwalk : ∀ a, Q a → ∀ silent target,
      P ((⟨a.siblings, entries, a.parentPath, silent⟩ : Walk).variablesTo target))
    (levels : Nat) :
    ∀ {a : Address}, Q a → ∀ fromInside : Bool,
      P (scopeAt root entries levels a fromInside).own ∧
        P (scopeAt root entries levels a fromInside).outer := by
  induction levels with
  | zero => exact fun _ _ => ⟨hempty, hempty⟩
  | succ levels ih =>
      intro a ha fromInside
      rw [scopeAt]
      split
      · exact ⟨hempty, hempty⟩
      · refine ⟨hwalk a ha _ _, ?_⟩
        dsimp only
        split
        · next owner howner =>
            have habove := ih (hfound _ _ howner) true
            split
            · exact hmerge _ _ habove.1 habove.2
            · exact hempty
        · exact hempty

/-- A reference whose path, if it is one, consists of names and indexes. -/
def Reference.Leads : Reference → Prop
  | .path p => p.Leads
  | _ => True

theorem Reference.locate_of_leads
    {reference : Reference} (h : reference.Leads) (root : Value) :
    ∃ address, reference.locate root = .ok address := by
  cases reference with
  | path p => exact ⟨_, findPath?_of_leads h root⟩
  | _ => exact ⟨_, rfl⟩

section Answers

variable {root : Value} {entries : Predecessors} {target : Reference} {current : Option Reference}

/-- References that lead anywhere have variables in scope. -/
theorem exists_variableScope
    (htarget : target.Leads) (hcurrent : ∀ reference ∈ current, reference.Leads) :
    ∃ bound, variableScope root entries target current = .ok bound := by
  have hstart : (current.getD target).Leads := by
    cases current with
    | none => exact htarget
    | some reference => exact hcurrent reference rfl
  obtain ⟨goal, hgoal⟩ := Reference.locate_of_leads htarget root
  obtain ⟨start, hstart⟩ := Reference.locate_of_leads hstart root
  rw [variableScope_eq_bind, hgoal, hstart]
  exact ⟨_, rfl⟩

/-- What holds of no variables at all, and of the variables at every address that a reference finds,
holds of all variables in scope. -/
theorem variableScope_induction
    {P : VariableScope → Prop} (hnone : P .none)
    (hat : ∀ (reference : Reference) a, reference.locate root = .ok (some a) →
      ∀ levels fromInside, P (scopeAt root entries levels a fromInside))
    {bound : VariableScope} (h : variableScope root entries target current = .ok bound) :
    P bound := by
  rw [variableScope_eq_bind] at h
  cases hgoal : target.locate root with
  | error fault =>
      rw [hgoal] at h
      cases h
  | ok goal =>
      cases hstart : (current.getD target).locate root with
      | error fault =>
          rw [hgoal, hstart] at h
          cases h
      | ok start =>
          rw [hgoal, hstart] at h
          cases h
          change P (scopeBetween root entries goal start)
          cases goal with
          | none => exact hnone
          | some goal =>
              cases start with
              | none => exact hnone
              | some start =>
                  rw [scopeBetween]
                  split
                  · exact hat _ start hstart _ _
                  · exact hnone

end Answers

section Resolution

variable {root : Value} (hroot : root.Proper)

include hroot

/-- The variables of a located state's own scope. -/
theorem mem_own_iff
    {a : Address} {id : Text} (ha : a.Located root id) (hdepth : a.parentPath.owners ≤ maxNesting)
    (silent : Option Text) (name : Text) :
    name ∈ ((⟨a.siblings, Predecessors.ofWorkflow root, a.parentPath, silent⟩ :
        Walk).variablesTo id).names ↔
      BoundBefore a.siblings id silent name := by
  refine Walk.mem_variablesTo_iff (ha.parent_proper hroot) ha.siblings.1 ?_ id name
  intro target
  rw [sources_ofWorkflow hroot ha.scope, if_pos hdepth]

/-- The recursion over the owners computes the names before a state and those outside of it. -/
theorem scopeAt_binds
    (levels : Nat) :
    ∀ {a : Address} {id : Text}, a.Located root id → a.path.length ≤ maxPathLength →
      a.parentPath.owners ≤ maxNesting → a.parentPath.length < levels →
      ∀ fromInside : Bool, (fromInside && a.isolates) = false →
        (scopeAt root (Predecessors.ofWorkflow root) levels a fromInside).Binds
          (BoundBefore a.siblings id (if fromInside then some id else none))
          (BoundOutside root a.path) := by
  induction levels with
  | zero =>
      intro a id _ _ _ hlevels
      exact absurd hlevels (Nat.not_lt_zero _)
  | succ levels ih =>
      intro a id ha hlength hdepth hlevels fromInside hopen
      rw [Address.isolates, ← Bool.and_assoc] at hopen
      have hid : a.id?.getD [] = id := by
        rw [ha.id?_eq, Option.getD_some]
      rw [scopeAt, hopen]
      simp only [Bool.false_eq_true, if_false, hid]
      have hown := mem_own_iff hroot ha hdepth (if fromInside then some id else none)
      by_cases htop : a.parentPath = []
      · -- a state at the top has no owner
        have hpath : a.path = [.name id] := by
          rw [ha.path_eq, htop, List.nil_append]
        have howner : findPath root a.ownerPath = none := by
          rw [Address.ownerPath, htop]
          rfl
        rw [howner]
        refine ⟨Walk.isObject_variablesTo _ _, KeyTree.isObject_empty, hown, ?_⟩
        intro name
        simp [BoundOutside, hpath, visibleOwners_singleton]
      · -- each level goes to the nearest owner, whose own scope has a shorter path
        obtain ⟨owner, ownerId, howner, hpresent, hpath, henclosing, hshorter, hfewer⟩ :=
          ha.exists_owner htop
        have hfind := howner.findPath_ownerPath hpath (ha.length_parentPath hlength)
        rw [hpath] at hfind
        rw [hpath, hfind]
        simp only [hpresent, if_true]
        cases hisolates : owner.isolates with
        | true =>
            rw [scopeAt_of_isolates hisolates]
            refine ⟨Walk.isObject_variablesTo _ _, KeyTree.isObject_empty, hown, ?_⟩
            intro name
            rw [boundOutside_of_owner howner hfind henclosing, hisolates]
            simp [VariableScope.none, KeyTree.mem_names_merge_iff KeyTree.isObject_empty
              KeyTree.isObject_empty]
        | false =>
            have hownerLength := (findPath_eq_some_iff.mp hfind).2.1
            have habove := ih howner hownerLength (by omega) (by omega) true
              (by rw [hisolates]; rfl)
            refine ⟨Walk.isObject_variablesTo _ _,
              KeyTree.isObject_merge habove.own_object habove.outer_object, hown, ?_⟩
            intro name
            rw [KeyTree.mem_names_merge_iff habove.own_object habove.outer_object,
              habove.own_names, habove.outer_names,
              boundOutside_of_owner howner hfind henclosing, hisolates]
            simp

/-- Every state that a visit reports is located by its path. -/
theorem located_of_mem_allStates
    {v : Visit} (hv : v ∈ allStates root) {a : Address} (ha : findPath root v.path = some a) :
    a.Located root v.id ∧ a.path = v.path ∧ a.path.length ≤ maxPathLength ∧
      a.parentPath.owners ≤ maxNesting := by
  obtain ⟨b, scope, hb, -, howners, hdeclared⟩ := exists_ownerPath_of_mem_preorder hroot hv
  obtain ⟨-, -, -, -, hpath⟩ := mem_declaredVisits_iff.mp hdeclared
  obtain ⟨haPath, hlength, id, hlocated⟩ := findPath_eq_some_iff.mp ha
  have hsame : a.parentPath ++ [Segment.name id] = b ++ [.name v.id] := by
    rw [← hlocated.path_eq, haPath, hpath, List.nil_append]
  obtain ⟨hparent, hlast⟩ := List.append_inj' hsame rfl
  simp only [List.cons.injEq, Segment.name.injEq, and_true] at hlast
  rw [hlast] at hlocated
  rw [haPath, hparent]
  exact ⟨hlocated, rfl, hlength, Nat.lt_succ_iff.mp howners⟩

/-- The names in scope at a state that search by path finds: for a state that is not null, those
bound before it and those bound before the owners that it can see.  A null has no variables. -/
theorem variableScope_exact
    {v : Visit} (hv : v ∈ allStates root) {a : Address} (ha : findPath root v.path = some a) :
    ∃ scope, variableScope root (Predecessors.ofWorkflow root) (.path v.path) none = .ok scope ∧
      (∀ name, name ∈ scope.own.names ↔
        a.isPresent = true ∧ BoundBefore a.siblings v.id none name) ∧
      ∀ name, name ∈ scope.outer.names ↔ a.isPresent = true ∧ BoundOutside root v.path name := by
  obtain ⟨hlocated, hpath, hlength, hdepth⟩ := located_of_mem_allStates hroot hv ha
  have hleads : v.path.Leads := hpath ▸ hlocated.leads
  have hlocate : (Reference.path v.path).locate root = .ok (some a) := by
    rw [Reference.locate, findPath?_of_leads hleads, ha]
  have hlevels : a.parentPath.length < a.path.length := by
    rw [hlocated.path_eq, List.length_append]
    exact Nat.lt_succ_self _
  have hbinds := scopeAt_binds hroot a.path.length hlocated hlength hdepth hlevels
    false (Bool.false_and _)
  rw [variableScope_of_locate hlocate hlocated.leads]
  refine ⟨_, rfl, ?_⟩
  cases hpresent : a.isPresent with
  | true =>
      refine ⟨?_, ?_⟩
      · simpa using hbinds.own_names
      · simpa [hpath] using hbinds.outer_names
  | false =>
      refine ⟨?_, ?_⟩
      · simpa using VariableScope.binds_none.own_names
      · simpa using VariableScope.binds_none.outer_names

end Resolution

/-- A Map state in a loop, between a state that binds a variable and its own binding. -/
def mapInLoop : Value :=
  .obj [("States", .obj [
    ("A", .obj [("Type", .str "Pass"), ("Assign", .obj [("x", .int 1)]), ("Next", .str "M")]),
    ("M", .obj [("Type", .str "Map"), ("Assign", .obj [("z", .int 1)]), ("Next", .str "A"),
      ("ItemProcessor", .obj [("States", .obj [
        ("B", .obj [("Type", .str "Pass"), ("Assign", .obj [("y", .int 1)]), ("Next", .str "C")]),
        ("C", .obj [("Type", .str "Succeed")])])])])])]

/-- The last state in the loop's Map state: the inner binding is in its own scope, and of the two
outer ones only that of the state in front of the Map state. -/
theorem variableScope_exact_mapInLoop :
    ∃ v ∈ allStates mapInLoop, v.path = [.name "M", .name "C"] ∧
      ∃ a, findPath mapInLoop v.path = some a ∧
      ∃ scope,
        variableScope mapInLoop (Predecessors.ofWorkflow mapInLoop) (.path v.path) none =
          .ok scope ∧
        (∀ name, name ∈ scope.own.names ↔
          a.isPresent = true ∧ BoundBefore a.siblings v.id none name) ∧
        ∀ name, name ∈ scope.outer.names ↔
          a.isPresent = true ∧ BoundOutside mapInLoop v.path name := by
  have hvisit := List.mem_of_getElem? (l := allStates mapInLoop) (i := 3) rfl
  exact ⟨_, hvisit, rfl, _, rfl, variableScope_exact (by decide) hvisit rfl⟩

/-- A null in the place of a state, behind a state that binds a variable. -/
def nullBehindBinding : Value :=
  .obj [("States", .obj [
    ("A", .obj [("Type", .str "Pass"), ("Assign", .obj [("x", .int 1)]), ("Next", .str "B")]),
    ("B", .null)])]

/-- A null that a visit reports and that search by path finds has no variables in scope, although
one is bound before it. -/
theorem null_has_no_variables :
    nullBehindBinding.Proper ∧
      ∃ v ∈ allStates nullBehindBinding, ∃ a, findPath nullBehindBinding v.path = some a ∧
        BoundBefore a.siblings v.id none "x" ∧
        ∃ scope,
          variableScope nullBehindBinding (Predecessors.ofWorkflow nullBehindBinding)
            (.path v.path) none = .ok scope ∧
          ¬ ("x" : Text) ∈ scope.own.names := by
  refine ⟨by decide, _, List.mem_of_getElem? (i := 1) rfl, _, rfl, ?_, _, rfl, ?_⟩
  · exact ⟨"A", _, "B", rfl, rfl, nofun, by decide, LeadsTo.here⟩
  · exact List.not_mem_nil

end Workflow
