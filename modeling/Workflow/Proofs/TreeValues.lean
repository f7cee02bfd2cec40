import Workflow.Document.Tree
import Workflow.Proofs.ProperValues

/-!
# Trees and their values

The value of a tree is proper, whatever the tree: of repeated keys only the last value is kept.  In
a tree where no object repeats a key the first property with a key and the field with that name
carry the same information, so the trees and the values can be read side by side.
-/

namespace Workflow

namespace Fields

/-- Setting a field keeps the names, except that a new name goes to the end. -/
theorem names_set
    (fields : Fields) (name : Text) (v : Value) :
    (fields.set name v).names =
      if fields.has name then fields.names else fields.names ++ [name] := by
  unfold set
  split
  · unfold names
    rw [List.map_map]
    refine List.map_congr_left fun field _ => ?_
    simp only [Function.comp_apply]
    split <;> rfl
  · simp [names]

theorem names_set_nodup
    {fields : Fields} (h : fields.names.Nodup) (name : Text) (v : Value) :
    (fields.set name v).names.Nodup := by
  rw [names_set]
  split
  · exact h
  · next hnew =>
      rw [List.nodup_append]
      refine ⟨h, List.nodup_singleton name, ?_⟩
      rintro other hother _ hlast rfl
      rw [List.mem_singleton] at hlast
      exact hnew (has_iff.mpr (hlast ▸ hother))

theorem mem_set
    {fields : Fields} {name : Text} {v : Value} {field : Text × Value}
    (h : field ∈ fields.set name v) :
    field ∈ fields ∨ field = (name, v) := by
  unfold set at h
  split at h
  · obtain ⟨old, hold, rfl⟩ := List.mem_map.mp h
    split
    · next hname => exact Or.inr (by rw [beq_iff_eq.mp hname])
    · exact Or.inl hold
  · rcases List.mem_append.mp h with hold | hnew
    · exact Or.inl hold
    · exact Or.inr (List.mem_singleton.mp hnew)

/-- The fields that assignments leave have been assigned. -/
theorem mem_foldl_set
    {field : Text × Value} (assignments : List (Text × Value)) :
    ∀ {fields : Fields}, field ∈ assignments.foldl (fun fields a => fields.set a.1 a.2) fields →
      field ∈ fields ∨ field ∈ assignments := by
  induction assignments with
  | nil => exact fun h => Or.inl h
  | cons a assignments ih =>
      intro fields h
      rcases ih h with hset | hrest
      · rcases mem_set hset with hold | rfl
        · exact Or.inl hold
        · exact Or.inr List.mem_cons_self
      · exact Or.inr (List.mem_cons_of_mem a hrest)

theorem mem_of_mem_ofAssignments
    {field : Text × Value} {assignments : List (Text × Value)}
    (h : field ∈ ofAssignments assignments) :
    field ∈ assignments :=
  (mem_foldl_set assignments h).resolve_left List.not_mem_nil

/-- Assignments over proper fields leave proper fields. -/
theorem foldl_set_proper
    (assignments : List (Text × Value)) (h : ∀ a ∈ assignments, a.2.Proper) :
    ∀ {fields : Fields}, fields.names.Nodup → (∀ field ∈ fields, field.2.Proper) →
      (assignments.foldl (fun fields a => fields.set a.1 a.2) fields).names.Nodup ∧
        ∀ field ∈ assignments.foldl (fun fields a => fields.set a.1 a.2) fields,
          field.2.Proper := by
  induction assignments with
  | nil =>
      intro fields hnames hproper
      exact ⟨hnames, hproper⟩
  | cons a assignments ih =>
      intro fields hnames hproper
      refine ih (fun b hb => h b (List.mem_cons_of_mem _ hb)) (names_set_nodup hnames a.1 a.2) ?_
      intro field hfield
      rcases mem_set hfield with hold | hnew
      · exact hproper field hold
      · rw [hnew]
        exact h a List.mem_cons_self

/-- Assignments to different names that are all new become fields as they are. -/
theorem foldl_set_of_nodup
    (assignments : List (Text × Value)) :
    ∀ {fields : Fields}, (names (fields ++ assignments)).Nodup →
      assignments.foldl (fun fields a => fields.set a.1 a.2) fields = fields ++ assignments := by
  induction assignments with
  | nil =>
      intro fields _
      exact (List.append_nil fields).symm
  | cons a assignments ih =>
      intro fields hnames
      have hnew : fields.has a.1 = false := by
        rw [Bool.eq_false_iff]
        intro hhas
        simp only [names, List.map_append, List.map_cons] at hnames
        exact (List.nodup_append.mp hnames).2.2 a.1 (has_iff.mp hhas) a.1 List.mem_cons_self rfl
      have hset : fields.set a.1 a.2 = fields ++ [a] := by
        rw [set, hnew]
        rfl
      have hrest : (names ((fields ++ [a]) ++ assignments)).Nodup := by
        rw [List.append_assoc]
        exact hnames
      rw [List.foldl_cons, hset, ih hrest, List.append_assoc]
      rfl

theorem ofAssignments_of_nodup
    {assignments : List (Text × Value)} (h : (names assignments).Nodup) :
    ofAssignments assignments = assignments := by
  exact @foldl_set_of_nodup assignments [] h

end Fields

namespace Tree

theorem itemValues_eq_map :
    ∀ items : List Tree, itemValues items = items.map toValue
  | [] => by rw [itemValues, List.map_nil]
  | t :: items => by rw [itemValues, itemValues_eq_map items, List.map_cons]

theorem propertyValues_eq_map :
    ∀ properties : List (Property Tree),
      propertyValues properties = properties.map fun p => (p.key.name, p.toValue)
  | [] => by rw [propertyValues, List.map_nil]
  | ⟨_, _, _, some t⟩ :: properties => by
      rw [propertyValues, propertyValues_eq_map properties, List.map_cons]
      rfl
  | ⟨_, _, _, none⟩ :: properties => by
      rw [propertyValues, propertyValues_eq_map properties, List.map_cons]
      rfl

mutual

/-- The value of a tree is proper, even where an object repeats a key. -/
theorem toValue_proper :
    ∀ t : Tree, t.toValue.Proper
  | .null _ => trivial
  | .boolean _ _ => trivial
  | .number _ n => by
      cases n with
      | int n => exact trivial
      | float x => exact trivial
  | .string _ _ => trivial
  | .array _ items => by
      rw [toValue, Value.proper_arr_iff]
      exact itemValues_proper items
  | .object _ properties => by
      rw [toValue, Value.proper_obj_iff]
      exact Fields.foldl_set_proper _ (propertyValues_proper properties) List.nodup_nil
        fun field hfield => absurd hfield List.not_mem_nil

/-- The values of the items of an array are proper. -/
theorem itemValues_proper :
    ∀ items : List Tree, ∀ v ∈ itemValues items, v.Proper
  | [], v, h => by
      rw [itemValues] at h
      cases h
  | t :: items, v, h => by
      rw [itemValues] at h
      rcases List.mem_cons.mp h with rfl | hrest
      · exact toValue_proper t
      · exact itemValues_proper items v hrest

/-- The values of the properties of an object are proper. -/
theorem propertyValues_proper :
    ∀ properties : List (Property Tree), ∀ a ∈ propertyValues properties, a.2.Proper
  | [], a, h => by
      rw [propertyValues] at h
      cases h
  | ⟨_, _, _, some t⟩ :: properties, a, h => by
      rw [propertyValues] at h
      rcases List.mem_cons.mp h with rfl | hrest
      · exact toValue_proper t
      · exact propertyValues_proper properties a hrest
  | ⟨_, _, _, none⟩ :: properties, a, h => by
      rw [propertyValues] at h
      rcases List.mem_cons.mp h with rfl | hrest
      · exact trivial
      · exact propertyValues_proper properties a hrest

end

mutual

/-- No object inside the tree repeats a key. -/
def DistinctKeys : Tree → Prop
  | .array _ items => ItemsDistinct items
  | .object _ properties =>
    (properties.map fun p => p.key.name).Nodup ∧ PropertiesDistinct properties
  | _ => True

/-- No object inside the items of an array repeats a key. -/
def ItemsDistinct : List Tree → Prop
  | [] => True
  | t :: items => t.DistinctKeys ∧ ItemsDistinct items

/-- No object inside the values of some properties repeats a key. -/
def PropertiesDistinct : List (Property Tree) → Prop
  | [] => True
  | ⟨_, _, _, some t⟩ :: properties => t.DistinctKeys ∧ PropertiesDistinct properties
  | ⟨_, _, _, none⟩ :: properties => PropertiesDistinct properties

end

mutual

/-- Whether an object repeats a key can be decided. -/
def decDistinctKeys : (t : Tree) → Decidable t.DistinctKeys
  | .array _ items => decItemsDistinct items
  | .object _ properties =>
    have := decPropertiesDistinct properties
    inferInstanceAs
      (Decidable ((properties.map fun p => p.key.name).Nodup ∧ PropertiesDistinct properties))
  | .null _ => isTrue trivial
  | .boolean _ _ => isTrue trivial
  | .number _ _ => isTrue trivial
  | .string _ _ => isTrue trivial

/-- Whether an object in the items of an array repeats a key can be decided. -/
def decItemsDistinct : (items : List Tree) → Decidable (ItemsDistinct items)
  | [] => isTrue trivial
  | t :: items =>
    have := decDistinctKeys t
    have := decItemsDistinct items
    inferInstanceAs (Decidable (t.DistinctKeys ∧ ItemsDistinct items))

/-- Whether an object in the values of some properties repeats a key can be decided. -/
def decPropertiesDistinct :
    (properties : List (Property Tree)) → Decidable (PropertiesDistinct properties)
  | [] => isTrue trivial
  | ⟨_, _, _, some t⟩ :: properties =>
    have := decDistinctKeys t
    have := decPropertiesDistinct properties
    inferInstanceAs (Decidable (t.DistinctKeys ∧ PropertiesDistinct properties))
  | ⟨_, _, _, none⟩ :: properties => decPropertiesDistinct properties

end

instance : DecidablePred DistinctKeys := decDistinctKeys

theorem itemsDistinct_iff :
    ∀ items : List Tree, ItemsDistinct items ↔ ∀ t ∈ items, t.DistinctKeys
  | [] => by simp [ItemsDistinct]
  | t :: items => by simp [ItemsDistinct, itemsDistinct_iff items]

theorem propertiesDistinct_iff :
    ∀ properties : List (Property Tree),
      PropertiesDistinct properties ↔ ∀ p ∈ properties, ∀ t, p.value = some t → t.DistinctKeys
  | [] => by simp [PropertiesDistinct]
  | ⟨_, _, _, some t⟩ :: properties => by
      simp [PropertiesDistinct, propertiesDistinct_iff properties]
  | ⟨_, _, _, none⟩ :: properties => by
      simp [PropertiesDistinct, propertiesDistinct_iff properties]

/-- The properties of an object without repeated keys. -/
theorem DistinctKeys.properties
    {t : Tree} (ht : t.DistinctKeys)
    {properties : List (Property Tree)} (h : t.properties? = some properties) :
    (properties.map fun p => p.key.name).Nodup ∧
      ∀ p ∈ properties, ∀ u, p.value = some u → u.DistinctKeys := by
  cases t with
  | object span others =>
      cases h
      rw [DistinctKeys, propertiesDistinct_iff] at ht
      exact ht
  | _ => cases h

theorem DistinctKeys.items
    {t : Tree} (ht : t.DistinctKeys)
    {items : List Tree} (h : t.items? = some items) :
    ∀ u ∈ items, u.DistinctKeys := by
  cases t with
  | array span others =>
      cases h
      rw [DistinctKeys, itemsDistinct_iff] at ht
      exact ht
  | _ => cases h

/-- What a property of an object holds repeats no keys either. -/
theorem DistinctKeys.property?
    {t : Tree} (ht : t.DistinctKeys)
    {name : Text} {p : Property Tree} (hp : t.property? name = some p)
    {u : Tree} (hu : p.value = some u) :
    u.DistinctKeys := by
  obtain ⟨properties, hproperties, hfind⟩ := Option.bind_eq_some_iff.mp hp
  exact (ht.properties hproperties).2 p (List.mem_of_find?_eq_some hfind) u hu

/-- The value of a tree is an object when the tree is one. -/
theorem isObject_toValue
    (t : Tree) :
    t.toValue.isObject = t.isObject := by
  cases t with
  | number span n => cases n <;> rfl
  | _ =>
      rw [toValue]
      rfl

/-- A property that is found has the name that was looked for. -/
theorem name_of_property?
    {t : Tree} {name : Text} {p : Property Tree} (h : t.property? name = some p) :
    p.key.name = name := by
  obtain ⟨properties, -, hfind⟩ := Option.bind_eq_some_iff.mp h
  exact beq_iff_eq.mp (List.find?_some hfind :)

/-- Only objects have properties. -/
theorem property?_of_not_object
    {t : Tree} (h : t.isObject = false) (name : Text) :
    t.property? name = none := by
  cases t with
  | object span properties => cases h
  | _ => rfl

theorem text?_toValue
    (t : Tree) :
    t.toValue.text? = t.text? := by
  cases t with
  | number span n => cases n <;> rfl
  | _ =>
      rw [toValue]
      rfl

theorem items?_toValue
    (t : Tree) :
    t.toValue.items? = t.items?.map fun items => items.map toValue := by
  cases t with
  | number span n => cases n <;> rfl
  | array span items =>
      rw [toValue, itemValues_eq_map]
      rfl
  | _ =>
      rw [toValue]
      rfl

/-- Where no key is repeated, every property becomes a field. -/
theorem toValue_object_of_nodup
    (span : Span) {properties : List (Property Tree)}
    (h : (properties.map fun p => p.key.name).Nodup) :
    (Tree.object span properties).toValue = .obj (propertyValues properties) := by
  have hnames : (Fields.names (propertyValues properties)).Nodup := by
    rw [propertyValues_eq_map, Fields.names, List.map_map]
    exact h
  rw [toValue, Fields.ofAssignments_of_nodup hnames]

/-- The fields of the value of an object are among its properties. -/
theorem mem_propertyValues_of_fields?
    {t : Tree} {properties : List (Property Tree)} (hproperties : t.properties? = some properties)
    {fields : Fields} (hfields : t.toValue.fields? = some fields) {field : Text × Value}
    (h : field ∈ fields) :
    field ∈ propertyValues properties := by
  cases t with
  | object span others =>
      cases hproperties
      rw [toValue] at hfields
      cases hfields
      exact Fields.mem_of_mem_ofAssignments h
  | _ => cases hproperties

/-- Without repeated keys the fields of the value are the properties of the tree. -/
theorem DistinctKeys.fields?_toValue
    {t : Tree} (ht : t.DistinctKeys) :
    t.toValue.fields? =
      t.properties?.map fun properties => properties.map fun p => (p.key.name, p.toValue) := by
  cases t with
  | number span n => cases n <;> rfl
  | object span properties =>
      rw [toValue_object_of_nodup span (ht.properties rfl).1, propertyValues_eq_map]
      rfl
  | _ =>
      rw [toValue]
      rfl

/-- The first property with a key has the value that the object has under the name. -/
def FirstWins (t : Tree) (name : Text) : Prop :=
  t.toValue.get? name = (t.property? name).map Property.toValue

section FirstWins

variable {t : Tree} {name : Text} (h : t.FirstWins name)

include h

/-- The value that a property holds, as a field of the value of its object. -/
theorem FirstWins.get_toValue :
    t.toValue.get name = (((t.property? name).bind Property.value).map toValue).getD .null := by
  rw [Value.get, h]
  cases t.property? name with
  | none => rfl
  | some p => rfl

/-- A text that a property holds is the text of the field. -/
theorem FirstWins.text?_get_toValue :
    (t.toValue.get name).text? = ((t.property? name).bind Property.value).bind text? := by
  rw [h.get_toValue]
  cases (t.property? name).bind Property.value with
  | none => rfl
  | some u => exact text?_toValue u

/-- The items of an array that a property holds are the items of the field. -/
theorem FirstWins.items?_get?_toValue :
    (t.toValue.get? name).bind Value.items? =
      (((t.property? name).bind Property.value).bind items?).map fun items =>
        items.map toValue := by
  rw [h]
  cases t.property? name with
  | none => rfl
  | some p =>
      cases hvalue : p.value with
      | none => simp [Property.toValue, hvalue, Value.items?]
      | some u => simp [Property.toValue, hvalue, items?_toValue]

end FirstWins

section Distinct

variable {t : Tree} (ht : t.DistinctKeys) (name : Text)

include ht

/-- Without repeated keys the first property with a key is the field with that name. -/
theorem DistinctKeys.get?_toValue :
    t.toValue.get? name = (t.property? name).map Property.toValue := by
  rw [Value.get?, ht.fields?_toValue, Tree.property?]
  cases t.properties? with
  | none => rfl
  | some properties =>
      simp only [Option.map_some, Option.bind_some, Fields.get?, List.find?_map, Option.map_map]
      rfl

theorem DistinctKeys.firstWins :
    t.FirstWins name := ht.get?_toValue name

theorem DistinctKeys.get_toValue :
    t.toValue.get name = (((t.property? name).bind Property.value).map toValue).getD .null :=
  (ht.firstWins name).get_toValue

theorem DistinctKeys.text?_get_toValue :
    (t.toValue.get name).text? = ((t.property? name).bind Property.value).bind text? :=
  (ht.firstWins name).text?_get_toValue

theorem DistinctKeys.items?_get?_toValue :
    (t.toValue.get? name).bind Value.items? =
      (((t.property? name).bind Property.value).bind items?).map fun items =>
        items.map toValue :=
  (ht.firstWins name).items?_get?_toValue

end Distinct

end Tree

end Workflow
