import Mathlib.Data.List.Forall2
import Workflow.Proofs.EnclosingOwners
import Workflow.Proofs.KeyPaths

/-!
# Workflows with their states in another order

Two workflows differ only in the order of their states when the states that a scope declares are
permuted, in the scope itself and in the scopes nested in its states.  The look-up by id, the nested
scopes and with them the search by path do not see the difference: they find states that agree in
everything but their nested scopes, in scopes that again differ in the order of states only.
-/

namespace Workflow

mutual

/-- Scopes that differ only in the order of the states that they and their nested scopes declare. -/
inductive ScopeReordered : Value → Value → Prop
  | same (scope : Value) :
      ScopeReordered scope scope
  | fields
      {fields fields' : Fields} (h : List.Forall₂ ScopeFieldReordered fields fields') :
      ScopeReordered (.obj fields) (.obj fields')

/-- Fields of such scopes under one name: equal ones, or the declared states. -/
inductive ScopeFieldReordered : Text × Value → Text × Value → Prop
  | same (field : Text × Value) :
      ScopeFieldReordered field field
  | states
      {states changed states' : Fields} (hchanged : List.Forall₂ DeclarationReordered states changed)
      (hperm : changed.Perm states') :
      ScopeFieldReordered ("States", .obj states) ("States", .obj states')

/-- Declarations of states under one id. -/
inductive DeclarationReordered : Text × Value → Text × Value → Prop
  | state
      (id : Text) {state state' : Value} (h : StateReordered state state') :
      DeclarationReordered (id, state) (id, state')

/-- States that differ only in the order of the states that their nested scopes declare. -/
inductive StateReordered : Value → Value → Prop
  | same (state : Value) :
      StateReordered state state
  | fields
      {fields fields' : Fields} (h : List.Forall₂ StateFieldReordered fields fields') :
      StateReordered (.obj fields) (.obj fields')

/-- Fields of such states under one name: equal ones, or nested scopes. -/
inductive StateFieldReordered : Text × Value → Text × Value → Prop
  | same (field : Text × Value) :
      StateFieldReordered field field
  | processor
      {name : Text} {scope scope' : Value} (hname : name = "ItemProcessor" ∨ name = "Iterator")
      (h : ScopeReordered scope scope') :
      StateFieldReordered (name, scope) (name, scope')
  | branches
      {scopes scopes' : List Value} (h : List.Forall₂ ScopeReordered scopes scopes') :
      StateFieldReordered ("Branches", .arr scopes) ("Branches", .arr scopes')

end

section Related

variable {α : Type} {r r' : α → α → Prop} {o o' : Option α}

theorem Option.rel_refl
    (hr : ∀ x, r x x) (o : Option α) :
    Option.Rel r o o := by
  cases o with
  | none => exact Option.Rel.none
  | some x => exact Option.Rel.some (hr x)

/-- Related options are both empty, or hold related values. -/
theorem Option.rel_cases
    (h : Option.Rel r o o') :
    (o = none ∧ o' = none) ∨ ∃ x y, o = some x ∧ o' = some y ∧ r x y := by
  cases h with
  | none => exact Or.inl ⟨rfl, rfl⟩
  | some h => exact Or.inr ⟨_, _, rfl, rfl, h⟩

theorem Option.rel_imp
    (himp : ∀ x y, o' = some y → r x y → r' x y) (h : Option.Rel r o o') :
    Option.Rel r' o o' := by
  cases h with
  | none => exact Option.Rel.none
  | some h => exact Option.Rel.some (himp _ _ rfl h)

theorem getElem?_of_forall₂
    {xs ys : List α} (h : List.Forall₂ r xs ys) (i : Nat) :
    Option.Rel r xs[i]? ys[i]? := by
  induction h generalizing i with
  | nil => exact Option.Rel.none
  | cons hfirst hrest ih =>
      cases i with
      | zero => exact Option.Rel.some hfirst
      | succ i => exact ih i

end Related

namespace Fields

/-- Fields that are related one by one, under equal names, are related when looked up. -/
theorem get?_of_forall₂
    {r : Text × Value → Text × Value → Prop} {fields others : Fields}
    (h : List.Forall₂ r fields others) (hnames : ∀ field other, r field other → field.1 = other.1)
    (name : Text) :
    Option.Rel (fun v w => r (name, v) (name, w)) (fields.get? name) (others.get? name) := by
  induction h with
  | nil => exact Option.Rel.none
  | @cons field other fields others hfirst hrest ih =>
      obtain ⟨first, v⟩ := field
      obtain ⟨first', w⟩ := other
      obtain rfl : first = first' := hnames _ _ hfirst
      rw [get?_cons, get?_cons]
      by_cases hname : first = name
      · rw [if_pos hname, if_pos hname]
        exact Option.Rel.some (hname ▸ hfirst)
      · rw [if_neg hname, if_neg hname]
        exact ih

/-- Without repeated names the order of fields does not matter to a look-up. -/
theorem get?_of_perm
    {fields others : Fields} (hperm : fields.Perm others) (hnames : others.names.Nodup)
    (name : Text) :
    fields.get? name = others.get? name := by
  have hown : fields.names.Nodup := (hperm.map Prod.fst).nodup_iff.mpr hnames
  refine Option.ext fun v => ⟨fun h => ?_, fun h => ?_⟩
  · exact get?_of_mem hnames (hperm.mem_iff.mp (mem_of_get? h))
  · exact get?_of_mem hown (hperm.mem_iff.mpr (mem_of_get? h))

end Fields

namespace State

/-- Names of the fields that hold nested scopes. -/
def nestingFields : List Text := ["ItemProcessor", "Iterator", "Branches"]

/-- States that agree in everything but their nested scopes. -/
structure SameBody (s s' : Value) : Prop where
  isObject : s.isObject = s'.isObject
  isNull : s.isNull = s'.isNull
  field : ∀ name : Text, name ≠ "ItemProcessor" → name ≠ "Iterator" → name ≠ "Branches" →
    s.get? name = s'.get? name

namespace SameBody

variable {s s' : Value}

theorem kind?_eq
    (h : SameBody s s') :
    kind? s = kind? s' := by
  rw [kind?, kind?, h.field "Type" (by decide) (by decide) (by decide)]

theorem bindsVariables_eq
    (h : SameBody s s') :
    bindsVariables s = bindsVariables s' := by
  rw [bindsVariables, bindsVariables, kindHas, kindHas, h.kind?_eq]

theorem handlesErrors_eq
    (h : SameBody s s') :
    handlesErrors s = handlesErrors s' := by
  rw [handlesErrors, handlesErrors, kindHas, kindHas, h.kind?_eq]

theorem isKind_eq
    (h : SameBody s s') (kind : StateKind) :
    isKind s kind = isKind s' kind := by
  rw [isKind, isKind, h.kind?_eq]

/-- Such states have the same successors. -/
theorem nextIds_eq
    (h : SameBody s s') :
    nextIds s = nextIds s' := by
  have hnext := h.field "Next" (by decide) (by decide) (by decide)
  have hdefault := h.field "Default" (by decide) (by decide) (by decide)
  have hchoices := h.field "Choices" (by decide) (by decide) (by decide)
  have hcatch := h.field "Catch" (by decide) (by decide) (by decide)
  unfold nextIds targetValues ruleTargets Value.get
  rw [hnext, hdefault, hchoices, hcatch, h.isKind_eq, h.handlesErrors_eq]

/-- Such states bind the same variables on their edges. -/
theorem edgeVariables_eq
    (h : SameBody s s') :
    edgeVariables s = edgeVariables s' := by
  have hnext := h.field "Next" (by decide) (by decide) (by decide)
  have hdefault := h.field "Default" (by decide) (by decide) (by decide)
  have hassign := h.field "Assign" (by decide) (by decide) (by decide)
  have hchoices := h.field "Choices" (by decide) (by decide) (by decide)
  have hcatch := h.field "Catch" (by decide) (by decide) (by decide)
  have htoward : ∀ field : Text, s.get? field = s'.get? field →
      blockToward s field = blockToward s' field := by
    intro field hfield
    funext successor
    unfold blockToward Value.get
    rw [hfield, hassign, h.isObject]
  funext successor
  unfold edgeVariables edgeBlocks ruleBlocks
  rw [hchoices, hcatch, htoward "Next" hnext, htoward "Default" hdefault, h.isKind_eq,
    h.handlesErrors_eq]

end SameBody

end State

theorem ScopeFieldReordered.name_eq
    {field field' : Text × Value} (h : ScopeFieldReordered field field') :
    field.1 = field'.1 := by
  cases h with
  | same => rfl
  | states => rfl

theorem DeclarationReordered.name_eq
    {field field' : Text × Value} (h : DeclarationReordered field field') :
    field.1 = field'.1 := by
  cases h
  rfl

theorem StateFieldReordered.name_eq
    {field field' : Text × Value} (h : StateFieldReordered field field') :
    field.1 = field'.1 := by
  cases h with
  | same => rfl
  | processor => rfl
  | branches => rfl

namespace State

/-- The branch of a Parallel state that a segment selects. -/
def branchAt? (owner : Value) (s : Segment) : Option Value :=
  s.index?.bind fun i => (branches? owner).bind fun scopes =>
    if i < 0 then none else scopes[i.toNat]?

theorem branchAt?_proper
    {owner : Value} (howner : owner.Proper) {s : Segment} {branch : Value}
    (h : branchAt? owner s = some branch) :
    branch.Proper := by
  obtain ⟨i, -, h⟩ := Option.bind_eq_some_iff.mp h
  obtain ⟨scopes, hscopes, h⟩ := Option.bind_eq_some_iff.mp h
  split at h
  · cases h
  · exact branches?_proper howner hscopes branch (List.mem_of_getElem? h)

end State

/-- Where the search goes on from an owner. -/
theorem ownedScope_owner
    {scope owner : Value} {id : Text}
    (howner : (State.declared? scope).bind (Fields.get? · id) = some owner) (rest : Path) :
    ownedScope scope (.name id :: rest) =
      if State.kind? owner = some .map then ownedScope (State.processor owner) rest
      else if State.kind? owner = some .parallel then
        (rest.head?.bind (State.branchAt? owner)).bind (ownedScope · rest.tail)
      else none := by
  rw [ownedScope, howner]
  dsimp only
  rcases State.kind? owner with _ | kind
  · rfl
  · cases kind with
    | map => rfl
    | parallel =>
        cases rest with
        | nil => rfl
        | cons s rest =>
            rw [if_neg (by decide), if_pos rfl, List.head?_cons, Option.bind_some,
              State.branchAt?]
            dsimp only
            cases s.index? with
            | none => rfl
            | some i =>
                cases State.branches? owner with
                | none => rfl
                | some scopes =>
                    dsimp only [Option.bind_some]
                    split
                    · rfl
                    · cases scopes[i.toNat]? <;> rfl
    | _ => rfl

namespace StateReordered

variable {s s' : Value}

theorem get?
    (h : StateReordered s s') (name : Text) :
    Option.Rel (fun v w => StateFieldReordered (name, v) (name, w)) (s.get? name)
      (s'.get? name) := by
  cases h with
  | same => exact Option.rel_refl (fun v => StateFieldReordered.same (name, v)) _
  | fields h => exact Fields.get?_of_forall₂ h (fun _ _ => StateFieldReordered.name_eq) name

/-- Reordered states agree in everything but their nested scopes. -/
theorem sameBody
    (h : StateReordered s s') :
    State.SameBody s s' where
  isObject := by cases h <;> rfl
  isNull := by cases h <;> rfl
  field name hitem hiterator hbranches := by
    rcases Option.rel_cases (h.get? name) with ⟨hv, hw⟩ | ⟨v, w, hv, hw, hfield⟩
    · rw [hv, hw]
    · rw [hv, hw]
      cases hfield with
      | same => rfl
      | processor hname => exact absurd hname (not_or.mpr ⟨hitem, hiterator⟩)
      | branches => exact absurd rfl hbranches

/-- The processors of reordered states are reordered scopes. -/
theorem processor_reordered
    (h : StateReordered s s') :
    ScopeReordered (State.processor s) (State.processor s') := by
  have hscope : ∀ {name : Text} {v w : Value}, name ≠ "Branches" →
      StateFieldReordered (name, v) (name, w) → ScopeReordered v w := by
    intro name v w hname hfield
    cases hfield with
    | same => exact ScopeReordered.same _
    | processor _ hscope => exact hscope
    | branches => exact absurd rfl hname
  unfold State.processor Value.get
  rcases Option.rel_cases (h.get? "ItemProcessor") with ⟨hv, hw⟩ | ⟨v, w, hv, hw, hfield⟩
  · rw [hv, hw]
    rcases Option.rel_cases (h.get? "Iterator") with ⟨hv, hw⟩ | ⟨v, w, hv, hw, hfield⟩
    · rw [hv, hw]
      exact ScopeReordered.same _
    · rw [hv, hw]
      exact hscope (by decide) hfield
  · rw [hv, hw]
    exact hscope (by decide) hfield

/-- The branches of reordered states are, one by one, reordered scopes. -/
theorem branches?_reordered
    (h : StateReordered s s') :
    Option.Rel (List.Forall₂ ScopeReordered) (State.branches? s) (State.branches? s') := by
  unfold State.branches?
  rcases Option.rel_cases (h.get? "Branches") with ⟨hv, hw⟩ | ⟨v, w, hv, hw, hfield⟩
  · rw [hv, hw]
    exact Option.Rel.none
  · rw [hv, hw]
    cases hfield with
    | same =>
        exact Option.rel_refl
          (fun scopes => List.forall₂_same.mpr fun scope _ => ScopeReordered.same scope) _
    | processor hname => exact absurd hname (by decide)
    | branches hscopes => exact Option.Rel.some hscopes

/-- A segment selects reordered scopes among the branches of reordered states. -/
theorem branchAt?_reordered
    (h : StateReordered s s') (selector : Segment) :
    Option.Rel ScopeReordered (State.branchAt? s selector) (State.branchAt? s' selector) := by
  unfold State.branchAt?
  cases selector.index? with
  | none => exact Option.Rel.none
  | some i =>
      rcases Option.rel_cases h.branches?_reordered with ⟨hv, hw⟩ | ⟨v, w, hv, hw, hscopes⟩
      · rw [hv, hw]
        exact Option.Rel.none
      · rw [hv, hw, Option.bind_some, Option.bind_some, Option.bind_some, Option.bind_some]
        by_cases hneg : i < 0
        · rw [if_pos hneg, if_pos hneg]
          exact Option.Rel.none
        · rw [if_neg hneg, if_neg hneg]
          exact getElem?_of_forall₂ hscopes i.toNat

end StateReordered

namespace ScopeReordered

variable {scope scope' : Value}

theorem get?
    (h : ScopeReordered scope scope') (name : Text) :
    Option.Rel (fun v w => ScopeFieldReordered (name, v) (name, w)) (scope.get? name)
      (scope'.get? name) := by
  cases h with
  | same => exact Option.rel_refl (fun v => ScopeFieldReordered.same (name, v)) _
  | fields h => exact Fields.get?_of_forall₂ h (fun _ _ => ScopeFieldReordered.name_eq) name

/-- Reordered scopes ask for the same execution mode. -/
theorem modeOf_eq
    (h : ScopeReordered scope scope') :
    State.modeOf scope = State.modeOf scope' := by
  unfold State.modeOf Value.get
  rcases Option.rel_cases (h.get? "ProcessorConfig") with ⟨hv, hw⟩ | ⟨v, w, hv, hw, hfield⟩
  · rw [hv, hw]
  · rw [hv, hw]
    cases hfield with
    | same => rfl

/-- Under one id, reordered scopes declare reordered states. -/
theorem declared
    (h : ScopeReordered scope scope') (hscope' : scope'.Proper) (id : Text) :
    Option.Rel StateReordered ((State.declared? scope).bind (Fields.get? · id))
      ((State.declared? scope').bind (Fields.get? · id)) := by
  rcases Option.rel_cases (h.get? "States") with ⟨hv, hw⟩ | ⟨v, w, hv, hw, hfield⟩
  · rw [State.declared?, State.declared?, hv, hw]
    exact Option.Rel.none
  · rw [State.declared?, State.declared?, hv, hw]
    cases hfield with
    | same => exact Option.rel_refl StateReordered.same _
    | @states states changed states' hchanged hperm =>
        -- look-up does not see the permutation, and sees the changes one by one
        have hdeclared : State.declared? scope' = some states' := by
          rw [State.declared?, hw]
          rfl
        have hget := Fields.get?_of_perm hperm (State.declared?_proper hscope' hdeclared).1 id
        have hstates := Fields.get?_of_forall₂ hchanged (fun _ _ => DeclarationReordered.name_eq) id
        rw [hget] at hstates
        refine Option.rel_imp (fun _ _ _ hstate => ?_) hstates
        cases hstate with
        | state id hstate => exact hstate

/-- Along the same owners, reordered scopes lead to reordered scopes. -/
theorem ownedScope_reordered :
    ∀ (b : Path) {scope scope' : Value}, ScopeReordered scope scope' → scope'.Proper →
      Option.Rel ScopeReordered (ownedScope scope b) (ownedScope scope' b)
  | [], _, _, h, _ => Option.Rel.some h
  | .index _ :: _, _, _, _, _ => Option.Rel.none
  | .other _ :: _, _, _, _, _ => Option.Rel.none
  | .name id :: rest, scope, scope', h, hscope' => by
      rcases Option.rel_cases (h.declared hscope' id) with
        ⟨hnone, hnone'⟩ | ⟨owner, owner', howner, howner', hstate⟩
      · rw [ownedScope, ownedScope, hnone, hnone']
        exact Option.Rel.none
      · -- the owners are of one kind, so both searches go on in the same way
        have hproper := OwnerPath.owner_proper hscope' howner'
        rw [ownedScope_owner howner, ownedScope_owner howner', ← hstate.sameBody.kind?_eq]
        by_cases hmap : State.kind? owner = some .map
        · rw [if_pos hmap, if_pos hmap]
          exact ownedScope_reordered rest hstate.processor_reordered
            (State.processor_proper hproper)
        · rw [if_neg hmap, if_neg hmap]
          by_cases hparallel : State.kind? owner = some .parallel
          · rw [if_pos hparallel, if_pos hparallel]
            cases rest with
            | nil => exact Option.Rel.none
            | cons s rest =>
                rcases Option.rel_cases (hstate.branchAt?_reordered s) with
                  ⟨hv, hw⟩ | ⟨v, w, hv, hw, hinner⟩
                · simp only [List.head?_cons, Option.bind_some, hv, hw]
                  exact Option.Rel.none
                · simp only [List.head?_cons, Option.bind_some, hv, hw]
                  exact ownedScope_reordered rest hinner (State.branchAt?_proper hproper hw)
          · rw [if_neg hparallel, if_neg hparallel]
            exact Option.Rel.none

end ScopeReordered

namespace Address

/-- Addresses of reordered states in reordered scopes, under one path. -/
structure Reordered (a a' : Address) : Prop where
  path : a.path = a'.path
  parentPath : a.parentPath = a'.parentPath
  parent : ScopeReordered a.parent a'.parent
  state : StateReordered a.state a'.state

namespace Reordered

variable {a a' : Address}

theorem isPresent_eq
    (h : a.Reordered a') :
    a.isPresent = a'.isPresent := by
  rw [isPresent, isPresent, h.state.sameBody.isNull]

/-- Reordered Map states isolate together. -/
theorem isolates_eq
    (h : a.Reordered a') :
    a.isolates = a'.isolates := by
  rw [isolates, isolates, State.isDistributed, State.isDistributed, State.mode, State.mode,
    h.state.processor_reordered.modeOf_eq, h.state.sameBody.isKind_eq]

end Reordered

end Address

/-- Under one path, reordered workflows have reordered states. -/
theorem findPath_reordered
    {root root' : Value} (h : ScopeReordered root root') (hroot' : root'.Proper) (p : Path) :
    Option.Rel Address.Reordered (findPath root p) (findPath root' p) := by
  unfold findPath
  cases p.getLast? with
  | none => exact Option.Rel.none
  | some s =>
      cases s with
      | index i => exact Option.Rel.none
      | other v => exact Option.Rel.none
      | name id =>
          dsimp only
          by_cases hlength : maxPathLength < p.length
          · rw [if_pos hlength, if_pos hlength]
            exact Option.Rel.none
          · rw [if_neg hlength, if_neg hlength]
            rcases Option.rel_cases (h.ownedScope_reordered p.dropLast hroot') with
              ⟨hnone, hnone'⟩ | ⟨scope, scope', hscope, hscope', hparent⟩
            · rw [hnone, hnone']
              exact Option.Rel.none
            · rw [hscope, hscope']
              have hproper := (OwnerPath.of_ownedScope hscope').proper hroot'
              dsimp only
              rcases Option.rel_cases (hparent.declared hproper id) with
                ⟨hnone, hnone'⟩ | ⟨state, state', hget, hget', hstate⟩
              · rw [hnone, hnone']
                exact Option.Rel.none
              · rw [hget, hget']
                exact Option.Rel.some ⟨rfl, rfl, hparent, hstate⟩

end Workflow
