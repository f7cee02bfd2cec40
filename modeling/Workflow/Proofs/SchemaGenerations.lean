import Mathlib.Data.List.Find
import Workflow.Proofs.Recastings

/-!
# The two generations of Map states

The nested scope of a Map state has two names, `Iterator` and `ItemProcessor`.  `Value.renew` gives
the newer name to the nested scope of every Map state that has none under this name, at every level
of nesting and in place.  This is a recasting, so nothing that is computed from a workflow can tell
the difference: the states are visited in the same order under the same paths, the reverse adjacency
is the same, and so are the variables in scope.
-/

namespace Workflow

/-- What a value stands for in a workflow. -/
inductive Role where
  | scope
  /-- The states that a scope declares. -/
  | states
  | state
  | branches
  /-- Anything that is never looked into for states. -/
  | data

/-- What the items of an array of some role stand for. -/
def Role.item : Role → Role
  | .branches => .scope
  | _ => .data

/-- The fields under which a state of some kind may nest scopes. -/
def StateKind.NestsUnder (kind : StateKind) (name : Text) : Prop :=
  kind = .map ∧ (name = "ItemProcessor" ∨ name = "Iterator") ∨
    kind = .parallel ∧ name = "Branches"

/-- What has to be known about an object to rename its fields. -/
structure Place where
  role : Role
  kind : Option StateKind
  /-- Whether the object has a nested scope under the newer name. -/
  hasProcessor : Bool

namespace Place

/-- Whether a nested scope under the older name counts. -/
def isLegacy (place : Place) : Bool :=
  match place.role with
  | .state => place.kind == some .map && !place.hasProcessor
  | _ => false

/-- The newer name of a field. -/
def newName (place : Place) (name : Text) : Text :=
  if place.isLegacy && name == "Iterator" then "ItemProcessor" else name

/-- What a field stands for. -/
def below (place : Place) (name : Text) : Role :=
  match place.role with
  | .scope => if name == "States" then .states else .data
  | .states => .state
  | .state =>
    if place.kind == some .map && (name == "ItemProcessor" || name == "Iterator") then .scope
    else if place.kind == some .parallel && name == "Branches" then .branches
    else .data
  | _ => .data

variable {place : Place}

theorem below_of_ne
    (hrole : place.role = .state) {name : Text} (hitem : name ≠ "ItemProcessor")
    (hiterator : name ≠ "Iterator") (hbranches : name ≠ "Branches") :
    place.below name = .data := by
  simp [below, hrole, hitem, hiterator, hbranches]

/-- Only the fields that nest scopes hold no data. -/
theorem nestsUnder_of_below_ne_data
    (hrole : place.role = .state) {name : Text} (h : place.below name ≠ .data) :
    ∃ kind, place.kind = some kind ∧ kind.NestsUnder name := by
  simp only [below, hrole] at h
  split at h
  · next hmap =>
      simp only [Bool.and_eq_true, Bool.or_eq_true, beq_iff_eq] at hmap
      exact ⟨.map, hmap.1, Or.inl ⟨rfl, hmap.2⟩⟩
  · split at h
    · next hparallel =>
        simp only [Bool.and_eq_true, beq_iff_eq] at hparallel
        exact ⟨.parallel, hparallel.1, Or.inr ⟨rfl, hparallel.2⟩⟩
    · exact absurd rfl h

/-- The newer name of a field that nests scopes is the name of such a field, too. -/
theorem nestsUnder_newName
    {kind : StateKind} {name : Text} (h : kind.NestsUnder name) :
    kind.NestsUnder (place.newName name) := by
  unfold newName
  split
  · next hold =>
      rw [Bool.and_eq_true, beq_iff_eq] at hold
      rcases h with ⟨hmap, -⟩ | ⟨-, hbranches⟩
      · exact Or.inl ⟨hmap, Or.inl rfl⟩
      · exact absurd (hbranches.symm.trans hold.2) (by decide)
  · exact h

theorem newName_of_below_data
    {name : Text} (h : place.below name = .data) :
    place.newName name = name := by
  unfold newName
  split
  · next hold =>
      rw [Bool.and_eq_true, beq_iff_eq] at hold
      obtain ⟨hlegacy, rfl⟩ := hold
      unfold isLegacy at hlegacy
      split at hlegacy
      · next hrole =>
          rw [Bool.and_eq_true] at hlegacy
          simp [below, hrole, hlegacy.1] at h
      · cases hlegacy
  · rfl

theorem newName_of_ne
    {name : Text} (h : name ≠ "Iterator") :
    place.newName name = name := by
  simp [newName, h]

theorem newName_of_not_legacy
    (h : place.isLegacy = false) (name : Text) :
    place.newName name = name := by
  simp [newName, h]

/-- Only the two names of nested scopes are affected. -/
theorem newName_eq_iff
    {name : Text} (hitem : name ≠ "ItemProcessor") (hiterator : name ≠ "Iterator") (other : Text) :
    place.newName other = name ↔ other = name := by
  unfold newName
  split
  · next h =>
      rw [Bool.and_eq_true, beq_iff_eq] at h
      rw [h.2]
      exact ⟨fun hname => absurd hname.symm hitem, fun hname => absurd hname.symm hiterator⟩
  · exact Iff.rfl

/-- In the place of an older Map state both names become the newer one. -/
theorem newName_of_legacy
    (h : place.isLegacy = true) (other : Text) :
    place.newName other = "ItemProcessor" ↔ other = "Iterator" ∨ other = "ItemProcessor" := by
  simp [newName, h, or_iff_not_imp_left]

end Place

theorem Fields.ne_of_get?_eq_none
    {fields : Fields} {name : Text} (h : fields.get? name = none) :
    ∀ field ∈ fields, field.1 ≠ name := by
  rw [Fields.get?, Option.map_eq_none_iff, List.find?_eq_none] at h
  intro field hfield hname
  exact h field hfield (beq_iff_eq.mpr hname)

namespace Value

/-- The place of an object of some role. -/
def place (role : Role) (v : Value) : Place :=
  ⟨role, State.kind? v, (v.get? "ItemProcessor").isSome⟩

mutual

/-- A value with the newer name for all nested scopes of Map states. -/
def renew : Role → Value → Value
  | role, .arr items => .arr (renewItems role.item items)
  | role, .obj fields => .obj (renewFields (place role (.obj fields)) fields)
  | _, v => v

/-- The items of an array with the newer name. -/
def renewItems : Role → List Value → List Value
  | _, [] => []
  | role, v :: items => renew role v :: renewItems role items

/-- The fields of an object with the newer name. -/
def renewFields : Place → List (Text × Value) → List (Text × Value)
  | _, [] => []
  | place, (name, v) :: fields =>
    (place.newName name, renew (place.below name) v) :: renewFields place fields

end

theorem renewItems_eq_map
    (role : Role) (items : List Value) :
    renewItems role items = items.map (renew role) := by
  induction items with
  | nil => rfl
  | cons v items ih => rw [renewItems, ih, List.map_cons]

theorem renewFields_eq_map
    (place : Place) (fields : Fields) :
    renewFields place fields =
      fields.map fun field => (place.newName field.1, renew (place.below field.1) field.2) := by
  induction fields with
  | nil => rfl
  | cons field fields ih => rw [renewFields, ih, List.map_cons]

mutual

/-- Data stay as they are. -/
theorem renew_data :
    ∀ v : Value, renew .data v = v
  | .arr items => by
      rw [renew]
      exact congrArg Value.arr (renewItems_data items)
  | .obj fields => by
      rw [renew]
      exact congrArg Value.obj (renewFields_data rfl fields)
  | .null => rfl
  | .bool _ => rfl
  | .int _ => rfl
  | .float _ => rfl
  | .str _ => rfl

theorem renewItems_data :
    ∀ items : List Value, renewItems .data items = items
  | [] => rfl
  | v :: items => by rw [renewItems, renew_data v, renewItems_data items]

theorem renewFields_data
    {place : Place} (hrole : place.role = .data) :
    ∀ fields : List (Text × Value), renewFields place fields = fields
  | [] => rfl
  | (name, v) :: fields => by
      have hbelow : place.below name = .data := by rw [Place.below, hrole]
      rw [renewFields, Place.newName_of_below_data hbelow, hbelow, renew_data v,
        renewFields_data hrole fields]

end

section Fields

variable {role : Role} {v : Value}

theorem isObject_renew
    (role : Role) (v : Value) :
    (renew role v).isObject = v.isObject := by
  cases v <;> rfl

theorem isNull_renew
    (role : Role) (v : Value) :
    (renew role v).isNull = v.isNull := by
  cases v <;> rfl

theorem fields?_renew
    (role : Role) (v : Value) :
    (renew role v).fields? = v.fields?.map (renewFields (place role v)) := by
  cases v <;> rfl

theorem items?_renew
    (role : Role) (v : Value) :
    (renew role v).items? = v.items?.map fun items => items.map (renew role.item) := by
  cases v with
  | arr items =>
      rw [renew, renewItems_eq_map]
      rfl
  | _ => rfl

/-- Under its new name, a field is found where it was found under its old one. -/
theorem get?_renew_of_iff
    {name old : Text} (h : ∀ fields, v.fields? = some fields → ∀ field ∈ fields,
      ((place role v).newName field.1 = name ↔ field.1 = old)) :
    (renew role v).get? name = (v.get? old).map (renew ((place role v).below old)) := by
  rw [Value.get?, Value.get?, fields?_renew]
  cases hfields : v.fields? with
  | none => rfl
  | some fields =>
      have hfind : (fields.find? fun field => (place role v).newName field.1 == name) =
          fields.find? fun field => field.1 == old :=
        List.find?_congr fun field hfield => by
          rw [Bool.eq_iff_iff, beq_iff_eq, beq_iff_eq, h fields hfields field hfield]
      rw [Option.map_some, Option.bind_some, Option.bind_some, renewFields_eq_map, Fields.get?,
        Fields.get?, List.find?_map, Function.comp_def, hfind]
      cases hfound : fields.find? fun field => field.1 == old with
      | none => rfl
      | some field =>
          have hname := List.find?_some hfound
          rw [beq_iff_eq] at hname
          rw [Option.map_some, Option.map_some, Option.map_some, Option.map_some, hname]

theorem ne_of_get?_eq_none
    {name : Text} (h : v.get? name = none) {fields : Fields} (hfields : v.fields? = some fields) :
    ∀ field ∈ fields, field.1 ≠ name := by
  rw [Value.get?, hfields, Option.bind_some] at h
  exact Fields.ne_of_get?_eq_none h

/-- A field that is no nested scope of a Map state keeps its name. -/
theorem get?_renew
    {name : Text} (hitem : name ≠ "ItemProcessor") (hiterator : name ≠ "Iterator") :
    (renew role v).get? name = (v.get? name).map (renew ((place role v).below name)) :=
  get?_renew_of_iff fun _ _ field _ => Place.newName_eq_iff hitem hiterator field.1

theorem get?_renew_of_data
    {name : Text} (hitem : name ≠ "ItemProcessor") (hiterator : name ≠ "Iterator")
    (hdata : (place role v).below name = .data) :
    (renew role v).get? name = v.get? name := by
  rw [get?_renew hitem hiterator, hdata]
  cases v.get? name with
  | none => rfl
  | some w => rw [Option.map_some, renew_data]

end Fields

end Value

namespace State

open Value (renew)

variable {s : Value}

/-- A state keeps everything but its nested scopes. -/
theorem sameBody_renew
    (s : Value) :
    SameBody s (renew .state s) where
  isObject := (Value.isObject_renew _ s).symm
  isNull := (Value.isNull_renew _ s).symm
  field _ hitem hiterator hbranches :=
    (Value.get?_renew_of_data hitem hiterator
      (Place.below_of_ne rfl hitem hiterator hbranches)).symm

theorem kind?_renew
    (s : Value) :
    kind? (renew .state s) = kind? s :=
  (sameBody_renew s).kind?_eq.symm

section Processors

variable (hkind : kind? s = some .map)

include hkind

/-- Of the fields of a Map state, the one with its nested scope gets the newer name. -/
theorem newName_eq_processor_iff
    {fields : Fields} (hfields : s.fields? = some fields) {field : Text × Value}
    (hfield : field ∈ fields) :
    (Value.place .state s).newName field.1 = "ItemProcessor" ↔ field.1 = processorField s := by
  unfold processorField
  cases hnewer : s.get? "ItemProcessor" with
  | some scope =>
      have hplace : (Value.place .state s).isLegacy = false := by
        simp [Place.isLegacy, Value.place, hnewer]
      rw [Place.newName_of_not_legacy hplace]
      simp
  | none =>
      have hplace : (Value.place .state s).isLegacy = true := by
        simp [Place.isLegacy, Value.place, hnewer, hkind]
      have hitem := Value.ne_of_get?_eq_none hnewer hfields field hfield
      rw [Place.newName_of_legacy hplace, or_iff_left hitem]
      cases holder : s.get? "Iterator" with
      | none =>
          have hiterator := Value.ne_of_get?_eq_none holder hfields field hfield
          exact ⟨fun h => absurd h hiterator, fun h => absurd h hitem⟩
      | some scope => simp

theorem below_processorField :
    (Value.place .state s).below (processorField s) = .scope := by
  unfold processorField
  split <;> simp [Place.below, Value.place, hkind]

/-- The nested scope of a Map state stands under the newer name afterwards. -/
theorem get?_itemProcessor_renew :
    (renew .state s).get? "ItemProcessor" =
      (s.get? (processorField s)).map (renew .scope) := by
  rw [Value.get?_renew_of_iff fun _ hfields _ => newName_eq_processor_iff hkind hfields,
    below_processorField hkind]

example :
    renew .state (.obj [("Iterator", .obj [("States", .null)]), ("Type", .str "Map")]) =
      .obj [("ItemProcessor", .obj [("States", .null)]), ("Type", .str "Map")] := by
  rfl

theorem processorField_renew :
    processorField (renew .state s) = "ItemProcessor" := by
  unfold processorField
  rw [get?_itemProcessor_renew hkind]
  cases hscope : s.get? (processorField s) with
  | some scope => simp
  | none =>
      -- without a nested scope there is nothing under the older name either
      have holder : s.get? "Iterator" = none := by
        unfold processorField at hscope
        cases holder : s.get? "Iterator" with
        | none => rfl
        | some scope =>
            rw [holder] at hscope
            cases hnewer : s.get? "ItemProcessor" with
            | none => simp [hnewer, holder] at hscope
            | some scope => simp [hnewer] at hscope
      have hget : (renew .state s).get? "Iterator" = _ :=
        Value.get?_renew_of_iff fun fields hfields field hfield => by
          rw [Place.newName_of_ne (Value.ne_of_get?_eq_none holder hfields field hfield)]
      rw [hget, holder]
      simp

theorem processor_renew :
    processor (renew .state s) = renew .scope (processor s) := by
  rw [processor_eq_get, processorField_renew hkind, Value.get, get?_itemProcessor_renew hkind,
    processor_eq_get, Value.get]
  cases s.get? (processorField s) <;> rfl

end Processors

theorem below_branches
    (hkind : kind? s = some .parallel) :
    (Value.place .state s).below "Branches" = .branches := by
  simp [Place.below, Value.place, hkind]

theorem branches?_renew
    (hkind : kind? s = some .parallel) :
    branches? (renew .state s) = (branches? s).map fun scopes => scopes.map (renew .scope) := by
  rw [branches?, branches?, Value.get?_renew (by decide) (by decide), below_branches hkind]
  cases s.get? "Branches" with
  | none => rfl
  | some v => exact Value.items?_renew .branches v

theorem modeOf_renew
    (scope : Value) :
    modeOf (renew .scope scope) = modeOf scope := by
  unfold modeOf Value.get
  rw [Value.get?_renew_of_data (by decide) (by decide) (by simp [Place.below, Value.place]; decide)]

theorem declared?_renew
    (scope : Value) :
    declared? (renew .scope scope) =
      (declared? scope).map fun states =>
        states.map fun field => (field.1, renew .state field.2) := by
  have hstates : (Value.place .scope scope).below "States" = .states := rfl
  rw [declared?, declared?, Value.get?_renew (by decide) (by decide), hstates]
  cases scope.get? "States" with
  | none => rfl
  | some v =>
      rw [Option.map_some, Option.bind_some, Option.bind_some, Value.fields?_renew]
      refine congrArg (Option.map · v.fields?) (funext fun fields => ?_)
      rw [Value.renewFields_eq_map]
      rfl

end State

/-- The newer name, as a recasting. -/
def renewing : Recasting where
  scope := Value.renew .scope
  state := Value.renew .state
  isObject_scope := Value.isObject_renew .scope
  modeOf_scope := State.modeOf_renew
  declared?_scope := State.declared?_renew
  isNull_state := Value.isNull_renew .state
  kind?_state := State.kind?_renew
  processor_state _ := State.processor_renew
  branches?_state _ := State.branches?_renew
  nextIds_state s := (State.sameBody_renew s).nextIds_eq.symm
  edgeVariables_state s := (State.sameBody_renew s).edgeVariables_eq.symm

/-- The counterpart of a visit. -/
def Visit.renew (v : Visit) : Visit :=
  ⟨v.id, v.state.renew .state, v.parent.renew .scope, v.path⟩

/-- A visit reports the counterparts, in the same order. -/
theorem preorder_renew
    (levels : Nat) (scope : Value) (path : Path) :
    preorder levels (scope.renew .scope) path = (preorder levels scope path).map Visit.renew :=
  renewing.preorder_scope levels scope path

theorem ofWorkflow_renew
    (root : Value) :
    Predecessors.ofWorkflow (root.renew .scope) = Predecessors.ofWorkflow root :=
  renewing.ofWorkflow_scope root

/-- The renewed workflow has the same variables in scope, whatever is asked for. -/
theorem variableScope_renew
    (root : Value) (entries : Predecessors) (target : Reference) (current : Option Reference) :
    variableScope (root.renew .scope) entries target current =
      variableScope root entries target current :=
  renewing.variableScope_scope root entries target current

end Workflow
