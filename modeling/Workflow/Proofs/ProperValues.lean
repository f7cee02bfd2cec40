import Mathlib.Data.List.Nodup
import Workflow.State.Kind

/-!
# Proper values

A value is proper when no object inside it repeats a name.  Values that were decoded from a
document are proper, and so is everything that stands inside a proper value.  In a proper object
the fields and the look-up by name carry the same information.
-/

namespace Workflow

namespace Fields

/-- What a look-up finds is a field. -/
theorem mem_of_get?
    {fields : Fields} {name : Text} {v : Value}
    (h : fields.get? name = some v) :
    (name, v) ∈ fields := by
  unfold get? at h
  obtain ⟨field, hfind, rfl⟩ := Option.map_eq_some_iff.mp h
  have hname : field.1 = name := by
    simpa using List.find?_some hfind
  rw [← hname]
  exact List.mem_of_find?_eq_some hfind

/-- Without repeated names a look-up finds every field. -/
theorem get?_of_mem
    {fields : Fields} {name : Text} {v : Value}
    (hnames : fields.names.Nodup)
    (h : (name, v) ∈ fields) :
    fields.get? name = some v := by
  induction fields with
  | nil =>
      simp at h
  | cons field rest ih =>
      simp only [names, List.map_cons, List.nodup_cons] at hnames
      by_cases hname : field.1 = name
      · have hhead : (name, v) = field := by
          rcases List.mem_cons.mp h with hhead | hrest
          · exact hhead
          · refine absurd ?_ hnames.1
            rw [hname]
            exact List.mem_map.mpr ⟨(name, v), hrest, rfl⟩
        simp [get?, ← hhead]
      · have hrest : (name, v) ∈ rest := by
          rcases List.mem_cons.mp h with hhead | hrest
          · exact absurd (by rw [← hhead]) hname
          · exact hrest
        have hfind := ih hnames.2 hrest
        simpa [get?, hname] using hfind

theorem has_iff
    {fields : Fields} {name : Text} :
    fields.has name = true ↔ name ∈ fields.names := by
  unfold has names
  simp [List.any_eq_true]

theorem isSome_get?
    (fields : Fields) (name : Text) :
    (fields.get? name).isSome = fields.has name := by
  rw [Bool.eq_iff_iff]
  simp [get?, has]

end Fields

/-- The items of an array are told apart by their positions. -/
theorem positions_nodup
    {α : Type} (items : List α) :
    (items.zipIdx.map Prod.snd).Nodup := by
  rw [List.zipIdx_map_snd]
  exact List.nodup_range'

mutual

/-- No object inside the value repeats a name. -/
def Value.Proper : Value → Prop
  | .arr items => Value.ItemsProper items
  | .obj fields => (Fields.names fields).Nodup ∧ Value.FieldsProper fields
  | _ => True

/-- All items of an array are proper. -/
def Value.ItemsProper : List Value → Prop
  | [] => True
  | v :: items => v.Proper ∧ Value.ItemsProper items

/-- All values of the fields of an object are proper. -/
def Value.FieldsProper : List (Text × Value) → Prop
  | [] => True
  | (_, v) :: fields => v.Proper ∧ Value.FieldsProper fields

end

namespace Value

mutual

/-- Whether a value is proper can be decided. -/
def decProper : (v : Value) → Decidable v.Proper
  | .arr items => decItemsProper items
  | .obj fields =>
    have := decFieldsProper fields
    inferInstanceAs (Decidable ((Fields.names fields).Nodup ∧ FieldsProper fields))
  | .null => isTrue trivial
  | .bool _ => isTrue trivial
  | .int _ => isTrue trivial
  | .float _ => isTrue trivial
  | .str _ => isTrue trivial

/-- Whether the items of an array are proper can be decided. -/
def decItemsProper : (items : List Value) → Decidable (ItemsProper items)
  | [] => isTrue trivial
  | v :: items =>
    have := decProper v
    have := decItemsProper items
    inferInstanceAs (Decidable (v.Proper ∧ ItemsProper items))

/-- Whether the fields of an object are proper can be decided. -/
def decFieldsProper : (fields : List (Text × Value)) → Decidable (FieldsProper fields)
  | [] => isTrue trivial
  | (_, v) :: fields =>
    have := decProper v
    have := decFieldsProper fields
    inferInstanceAs (Decidable (v.Proper ∧ FieldsProper fields))

end

instance : DecidablePred Proper := decProper

mutual

/-- Whether two values are equal can be decided. -/
def decEq : (v w : Value) → Decidable (v = w)
  | .null, w =>
    match w with
    | .null => isTrue rfl
    | .bool _ | .int _ | .float _ | .str _ | .arr _ | .obj _ => isFalse nofun
  | .bool b, w =>
    match w with
    | .bool c => decidable_of_iff (b = c) (by simp)
    | .null | .int _ | .float _ | .str _ | .arr _ | .obj _ => isFalse nofun
  | .int m, w =>
    match w with
    | .int n => decidable_of_iff (m = n) (by simp)
    | .null | .bool _ | .float _ | .str _ | .arr _ | .obj _ => isFalse nofun
  | .float x, w =>
    match w with
    | .float y => decidable_of_iff (x = y) (by simp)
    | .null | .bool _ | .int _ | .str _ | .arr _ | .obj _ => isFalse nofun
  | .str s, w =>
    match w with
    | .str t => decidable_of_iff (s = t) (by simp)
    | .null | .bool _ | .int _ | .float _ | .arr _ | .obj _ => isFalse nofun
  | .arr items, w =>
    match w with
    | .arr others =>
      have := decEqItems items others
      decidable_of_iff (items = others) (by simp)
    | .null | .bool _ | .int _ | .float _ | .str _ | .obj _ => isFalse nofun
  | .obj fields, w =>
    match w with
    | .obj others =>
      have := decEqFields fields others
      decidable_of_iff (fields = others) (by simp)
    | .null | .bool _ | .int _ | .float _ | .str _ | .arr _ => isFalse nofun

/-- Whether two lists of values are equal can be decided. -/
def decEqItems : (items others : List Value) → Decidable (items = others)
  | [], [] => isTrue rfl
  | [], _ :: _ => isFalse nofun
  | _ :: _, [] => isFalse nofun
  | v :: items, w :: others =>
    have := decEq v w
    have := decEqItems items others
    decidable_of_iff (v = w ∧ items = others) (by simp)

/-- Whether two lists of fields are equal can be decided. -/
def decEqFields : (fields others : List (Text × Value)) → Decidable (fields = others)
  | [], [] => isTrue rfl
  | [], _ :: _ => isFalse nofun
  | _ :: _, [] => isFalse nofun
  | (name, v) :: fields, (other, w) :: others =>
    have := decEq v w
    have := decEqFields fields others
    decidable_of_iff ((name = other ∧ v = w) ∧ fields = others) (by simp)

end

instance : DecidableEq Value := decEq

theorem itemsProper_iff :
    ∀ items : List Value, ItemsProper items ↔ ∀ v ∈ items, v.Proper
  | [] => by simp [ItemsProper]
  | v :: items => by simp [ItemsProper, itemsProper_iff items]

theorem fieldsProper_iff :
    ∀ fields : List (Text × Value), FieldsProper fields ↔ ∀ field ∈ fields, field.2.Proper
  | [] => by simp [FieldsProper]
  | (name, v) :: fields => by simp [FieldsProper, fieldsProper_iff fields]

theorem proper_arr_iff
    (items : List Value) :
    (arr items).Proper ↔ ∀ v ∈ items, v.Proper := by
  rw [Proper, itemsProper_iff]

theorem proper_obj_iff
    (fields : Fields) :
    (obj fields).Proper ↔ fields.names.Nodup ∧ ∀ field ∈ fields, field.2.Proper := by
  rw [Proper, fieldsProper_iff]

/-- The fields of a proper object. -/
theorem Proper.fields
    {v : Value} (hv : v.Proper)
    {fields : Fields} (h : v.fields? = some fields) :
    fields.names.Nodup ∧ ∀ field ∈ fields, field.2.Proper := by
  cases v with
  | obj others =>
      cases h
      exact (proper_obj_iff _).mp hv
  | _ => cases h

/-- The items of a proper array are proper. -/
theorem Proper.items
    {v : Value} (hv : v.Proper)
    {items : List Value} (h : v.items? = some items) :
    ∀ w ∈ items, w.Proper := by
  cases v with
  | arr others =>
      cases h
      exact (proper_arr_iff _).mp hv
  | _ => cases h

/-- Every field of a proper object is proper. -/
theorem Proper.get?
    {v : Value} (hv : v.Proper)
    {name : Text} {w : Value} (h : v.get? name = some w) :
    w.Proper := by
  obtain ⟨fields, hfields, hget⟩ := Option.bind_eq_some_iff.mp h
  exact (hv.fields hfields).2 _ (Fields.mem_of_get? hget)

theorem Proper.get
    {v : Value} (hv : v.Proper) (name : Text) :
    (v.get name).Proper := by
  unfold Value.get
  cases h : v.get? name with
  | none => exact trivial
  | some w => exact hv.get? h

end Value

namespace State

/-- The states that a proper scope declares have different ids and are proper. -/
theorem declared?_proper
    {scope : Value} (hscope : scope.Proper)
    {states : Fields} (h : declared? scope = some states) :
    states.names.Nodup ∧ ∀ field ∈ states, field.2.Proper := by
  obtain ⟨v, hv, hfields⟩ := Option.bind_eq_some_iff.mp h
  exact (hscope.get? hv).fields hfields

/-- The nested scope of a Map state stands in the field that is named for it. -/
theorem processor_eq_get
    (state : Value) :
    processor state = state.get (processorField state) := by
  unfold processor processorField
  cases hprocessor : state.get? "ItemProcessor" with
  | some scope => simp [Value.get, hprocessor]
  | none =>
      cases hiterator : state.get? "Iterator" with
      | some scope => simp [Value.get, hiterator]
      | none => simp [Value.get, hprocessor, hiterator]

/-- The nested scope of a proper Map state is proper. -/
theorem processor_proper
    {state : Value} (hstate : state.Proper) :
    (processor state).Proper := by
  unfold processor
  cases h : state.get? "ItemProcessor" with
  | none => exact hstate.get _
  | some scope => exact hstate.get? h

/-- The branches of a proper Parallel state are proper. -/
theorem branches?_proper
    {state : Value} (hstate : state.Proper)
    {scopes : List Value} (h : branches? state = some scopes) :
    ∀ scope ∈ scopes, scope.Proper := by
  obtain ⟨v, hv, hitems⟩ := Option.bind_eq_some_iff.mp h
  exact (hstate.get? hv).items hitems

/-- A scope that declares states is an object. -/
theorem isObject_of_declared?
    {scope : Value} {states : Fields}
    (h : declared? scope = some states) :
    scope.isObject = true := by
  cases scope with
  | obj fields => rfl
  | _ => cases h

end State

end Workflow
