import Workflow.Proofs.SchemaGenerations
import Workflow.Proofs.TreeValues

/-!
# The two generations of Map states in trees

`Tree.renew` gives the newer name to the keys of the nested scopes of Map states, and leaves every
span where it is.  In a tree where no object repeats a key, this is what `Value.renew` does to the
value of the tree.
-/

namespace Workflow

namespace Place

variable {place : Place}

theorem hasProcessor_of_legacy
    (h : place.isLegacy = true) :
    place.hasProcessor = false := by
  unfold isLegacy at h
  split at h
  · rw [Bool.and_eq_true, Bool.not_eq_true'] at h
    exact h.2
  · cases h

/-- Where no name is repeated, none is after renaming either: the newer name is only given where it
is not in use. -/
theorem nodup_newName
    {names : List Text} (hnames : names.Nodup)
    (hfree : place.hasProcessor = false → ∀ name ∈ names, name ≠ "ItemProcessor") :
    (names.map place.newName).Nodup := by
  cases hlegacy : place.isLegacy with
  | true =>
      have hnew := hfree (hasProcessor_of_legacy hlegacy)
      refine hnames.map_on fun name hname other hother heq => ?_
      simp only [newName, hlegacy, Bool.true_and, beq_iff_eq] at heq
      split at heq
      · next hfirst =>
          split at heq
          · next hsecond => rw [hfirst, hsecond]
          · exact absurd heq.symm (hnew other hother)
      · split at heq
        · exact absurd heq (hnew name hname)
        · exact heq
  | false =>
      rw [List.map_congr_left fun name _ => newName_of_not_legacy hlegacy name, List.map_id']
      exact hnames

end Place

namespace Tree

/-- The place of an object of some role. -/
def place (role : Role) (t : Tree) : Place := t.toValue.place role

mutual

/-- A tree with the newer name for all nested scopes of Map states. -/
def renew : Role → Tree → Tree
  | role, .array span items => .array span (renewItems role.item items)
  | role, .object span properties =>
    .object span (renewProperties (place role (.object span properties)) properties)
  | _, t => t

/-- The items of an array with the newer name. -/
def renewItems : Role → List Tree → List Tree
  | _, [] => []
  | role, t :: items => renew role t :: renewItems role items

/-- The properties of an object with the newer name. -/
def renewProperties : Place → List (Property Tree) → List (Property Tree)
  | _, [] => []
  | place, ⟨span, key, colon, some t⟩ :: properties =>
    ⟨span, ⟨key.span, place.newName key.name⟩, colon, some (renew (place.below key.name) t)⟩ ::
      renewProperties place properties
  | place, ⟨span, key, colon, none⟩ :: properties =>
    ⟨span, ⟨key.span, place.newName key.name⟩, colon, none⟩ :: renewProperties place properties

end

end Tree

/-- A property with the newer name. -/
def Property.renew (place : Place) (p : Property Tree) : Property Tree :=
  ⟨p.span, ⟨p.key.span, place.newName p.key.name⟩, p.colon,
    p.value.map (Tree.renew (place.below p.key.name))⟩

/-- A declared state with the newer name. -/
def Property.renewState (p : Property Tree) : Property Tree :=
  ⟨p.span, p.key, p.colon, p.value.map (Tree.renew .state)⟩

namespace Tree

theorem renewItems_eq_map
    (role : Role) :
    ∀ items : List Tree, renewItems role items = items.map (renew role)
  | [] => by rw [renewItems, List.map_nil]
  | t :: items => by rw [renewItems, renewItems_eq_map role items, List.map_cons]

theorem renewProperties_eq_map
    (place : Place) (properties : List (Property Tree)) :
    renewProperties place properties = properties.map (Property.renew place) := by
  induction properties with
  | nil => rfl
  | cons p properties ih =>
      obtain ⟨span, key, colon, value⟩ := p
      cases value with
      | none =>
          rw [renewProperties, ih, List.map_cons]
          rfl
      | some t =>
          rw [renewProperties, ih, List.map_cons]
          rfl

mutual

/-- Data stay as they are. -/
theorem renew_data :
    ∀ t : Tree, renew .data t = t
  | .array span items => by
      rw [renew]
      exact congrArg (Tree.array span) (renewItems_data items)
  | .object span properties => by
      rw [renew]
      exact congrArg (Tree.object span) (renewProperties_data rfl properties)
  | .null _ => rfl
  | .boolean _ _ => rfl
  | .number _ _ => rfl
  | .string _ _ => rfl

theorem renewItems_data :
    ∀ items : List Tree, renewItems .data items = items
  | [] => rfl
  | t :: items => by rw [renewItems, renew_data t, renewItems_data items]

theorem renewProperties_data
    {place : Place} (hrole : place.role = .data) :
    ∀ properties : List (Property Tree), renewProperties place properties = properties
  | [] => rfl
  | ⟨span, key, colon, some t⟩ :: properties => by
      have hbelow : place.below key.name = .data := by rw [Place.below, hrole]
      rw [renewProperties, Place.newName_of_below_data hbelow, hbelow, renew_data t,
        renewProperties_data hrole properties]
  | ⟨span, key, colon, none⟩ :: properties => by
      have hbelow : place.below key.name = .data := by rw [Place.below, hrole]
      rw [renewProperties, Place.newName_of_below_data hbelow,
        renewProperties_data hrole properties]

end

section Properties

variable {role : Role} {t : Tree}

theorem properties?_renew
    (role : Role) (t : Tree) :
    (renew role t).properties? =
      t.properties?.map fun properties => properties.map (Property.renew (place role t)) := by
  cases t with
  | object span properties =>
      rw [renew, renewProperties_eq_map]
      rfl
  | _ => rfl

theorem items?_renew
    (role : Role) (t : Tree) :
    (renew role t).items? = t.items?.map fun items => items.map (renew role.item) := by
  cases t with
  | array span items =>
      rw [renew, renewItems_eq_map]
      rfl
  | _ => rfl

theorem isObject_renew
    (role : Role) (t : Tree) :
    (renew role t).isObject = t.isObject := by
  cases t <;> rfl

theorem renew_property_of_data
    {place : Place} {p : Property Tree} (hdata : place.below p.key.name = .data) :
    p.renew place = p := by
  have hname := Place.newName_of_below_data hdata
  obtain ⟨span, key, colon, value⟩ := p
  have hvalue : value.map (renew .data) = value := by
    cases value with
    | none => rfl
    | some u => rw [Option.map_some, renew_data]
  rw [Property.renew, hname, hdata, hvalue]

/-- Under its new name, a property is found where it was found under its old one. -/
theorem property?_renew_of_iff
    {name old : Text} (h : ∀ properties, t.properties? = some properties → ∀ p ∈ properties,
      ((place role t).newName p.key.name = name ↔ p.key.name = old)) :
    (renew role t).property? name = (t.property? old).map (Property.renew (place role t)) := by
  rw [property?, property?, properties?_renew]
  cases hproperties : t.properties? with
  | none => rfl
  | some properties =>
      have hfind : (properties.find? fun p => (place role t).newName p.key.name == name) =
          properties.find? fun p => p.key.name == old :=
        List.find?_congr fun p hp => by
          rw [Bool.eq_iff_iff, beq_iff_eq, beq_iff_eq, h properties hproperties p hp]
      rw [Option.map_some, Option.bind_some, Option.bind_some, List.find?_map, ← hfind]
      rfl

theorem property?_renew
    {name : Text} (hitem : name ≠ "ItemProcessor") (hiterator : name ≠ "Iterator") :
    (renew role t).property? name = (t.property? name).map (Property.renew (place role t)) :=
  property?_renew_of_iff fun _ _ p _ => Place.newName_eq_iff hitem hiterator p.key.name

theorem property?_renew_of_data
    {name : Text} (hitem : name ≠ "ItemProcessor") (hiterator : name ≠ "Iterator")
    (hdata : (place role t).below name = .data) :
    (renew role t).property? name = t.property? name := by
  rw [property?_renew hitem hiterator]
  cases hfound : t.property? name with
  | none => rfl
  | some p =>
      rw [← name_of_property? hfound] at hdata
      rw [Option.map_some, renew_property_of_data hdata]

/-- What a property holds afterwards is what it held, renewed for what it stands for. -/
theorem value_renew
    (place : Place) (t : Tree) (name : Text) :
    ((t.property? name).map (Property.renew place)).bind Property.value =
      ((t.property? name).bind Property.value).map (renew (place.below name)) := by
  cases hp : t.property? name with
  | none => rfl
  | some p =>
      rw [Option.map_some, Option.bind_some, Option.bind_some, Property.renew,
        name_of_property? hp]

theorem bind_items?_renew
    (role : Role) (value : Option Tree) :
    (value.map (renew role)).bind items? =
      (value.bind items?).map fun items => items.map (renew role.item) := by
  cases value with
  | none => rfl
  | some t => exact items?_renew role t

/-- The property that declares states declares the renewed ones under the same keys. -/
theorem mapping_renew
    {place : Place} {states : Property Tree} (h : place.below states.key.name = .states) :
    (states.renew place).value.bind properties? =
      (states.value.bind properties?).map fun properties =>
        properties.map Property.renewState := by
  rw [Property.renew, h]
  cases states.value with
  | none => rfl
  | some t => exact properties?_renew .states t

end Properties

mutual

/-- The value of the renewed tree is the renewed value. -/
theorem renew_toValue
    (role : Role) :
    ∀ t : Tree, t.DistinctKeys → (renew role t).toValue = t.toValue.renew role
  | .array span items, ht => by
      rw [renew, toValue, toValue, Value.renew, itemValues_renew role.item items ht]
  | .object span properties, ht => by
      have hvalue := toValue_object_of_nodup span ht.1
      have hfree : (place role (.object span properties)).hasProcessor = false →
          ∀ name ∈ (properties.map fun p => p.key.name : List Text), name ≠ "ItemProcessor" := by
        intro hnone name hname
        obtain ⟨p, hp, rfl⟩ := List.mem_map.mp hname
        rw [place, hvalue, propertyValues_eq_map] at hnone
        have hmissing := Option.isNone_iff_eq_none.mp (Option.isSome_eq_false_iff.mp hnone)
        exact Value.ne_of_get?_eq_none hmissing rfl (p.key.name, p.toValue) (List.mem_map_of_mem hp)
      -- the new keys are different again, so no property of the renewed object overwrites another
      have hrenamed : ((renewProperties (place role (.object span properties)) properties).map
          fun p => p.key.name).Nodup := by
        rw [renewProperties_eq_map, List.map_map]
        have hnodup := Place.nodup_newName ht.1 hfree
        rw [List.map_map] at hnodup
        exact hnodup
      rw [renew, toValue_object_of_nodup span hrenamed, propertyValues_renew _ properties ht.2,
        hvalue, Value.renew, place, hvalue]
  | .null _, _ => rfl
  | .boolean _ _, _ => rfl
  | .number _ n, _ => by cases n <;> rfl
  | .string _ _, _ => rfl

theorem itemValues_renew
    (role : Role) :
    ∀ items : List Tree, ItemsDistinct items →
      itemValues (renewItems role items) = Value.renewItems role (itemValues items)
  | [], _ => rfl
  | t :: items, ht => by
      rw [renewItems, itemValues, itemValues, Value.renewItems, renew_toValue role t ht.1,
        itemValues_renew role items ht.2]

theorem propertyValues_renew
    (place : Place) :
    ∀ properties : List (Property Tree), PropertiesDistinct properties →
      propertyValues (renewProperties place properties) =
        Value.renewFields place (propertyValues properties)
  | [], _ => rfl
  | ⟨_, key, _, some t⟩ :: properties, ht => by
      rw [renewProperties, propertyValues, propertyValues, Value.renewFields,
        renew_toValue (place.below key.name) t ht.1, propertyValues_renew place properties ht.2]
  | ⟨_, key, _, none⟩ :: properties, ht => by
      rw [renewProperties, propertyValues, propertyValues, Value.renewFields,
        propertyValues_renew place properties ht]
      rfl

end

section States

/-- The properties of a state that do not nest scopes stay as they are. -/
theorem property?_renew_state
    (t : Tree) {name : Text} (h : name ∉ State.nestingFields) :
    (renew .state t).property? name = t.property? name := by
  simp only [State.nestingFields, List.mem_cons, List.not_mem_nil, or_false, not_or] at h
  exact property?_renew_of_data h.1 h.2.1 (Place.below_of_ne rfl h.1 h.2.1 h.2.2)

variable {t : Tree} (ht : t.DistinctKeys)

include ht

theorem property?_itemProcessor_renew
    (hkind : State.kind? t.toValue = some .map) :
    (renew .state t).property? "ItemProcessor" =
      (t.property? (State.processorField t.toValue)).map (Property.renew (place .state t)) := by
  refine property?_renew_of_iff fun properties hproperties p hp => ?_
  have hfields := ht.fields?_toValue
  rw [hproperties] at hfields
  exact State.newName_eq_processor_iff hkind hfields (List.mem_map_of_mem hp)

theorem processorField_renew
    (hkind : State.kind? t.toValue = some .map) :
    State.processorField (renew .state t).toValue = "ItemProcessor" := by
  rw [renew_toValue .state t ht]
  exact State.processorField_renew hkind

theorem selectorField_renew :
    State.selectorField (renew .state t).toValue = State.selectorField t.toValue := by
  rw [renew_toValue .state t ht, State.selectorField, State.selectorField,
    ← (State.sameBody_renew t.toValue).field "Parameters" (by decide) (by decide) (by decide)]

end States

end Tree

end Workflow
