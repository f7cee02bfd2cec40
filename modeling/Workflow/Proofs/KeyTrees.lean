import Workflow.Proofs.ProperValues
import Workflow.Scope.KeyTree

/-!
# Names in key trees

The names at the top of a key tree.  Laying one tree over another unites their names, so the names
bound by a list of trees do not depend on how the trees are merged.
-/

namespace Workflow

namespace Value

/-- The names of the fields of an object; no other value has any. -/
def names : Value → List Text
  | .obj fields => Fields.names fields
  | _ => []

@[simp] theorem names_obj
    (fields : Fields) :
    (obj fields).names = fields.names := by
  rfl

end Value

namespace KeyTree

@[simp] theorem names_empty :
    empty.names = [] := by
  rfl

theorem isObject_empty :
    empty.isObject = true := by
  rfl

theorem names_mergeFields
    (others : Fields) :
    ∀ base : List (Text × Value), Fields.names (mergeFields base others) = Fields.names base
  | [] => by simp [mergeFields, Fields.names]
  | (name, v) :: base => by
      have ih := names_mergeFields others base
      simp only [Fields.names] at ih
      simp [mergeFields, Fields.names, ih]

/-- Laying an object over an object gives an object. -/
theorem isObject_merge
    {v w : Value} (hv : v.isObject = true) (hw : w.isObject = true) :
    (merge v w).isObject = true := by
  cases v with
  | obj base =>
      cases w with
      | obj others =>
          rw [merge]
          rfl
      | _ => cases hw
  | _ => cases hv

/-- The names of a merge are the names of both parts. -/
theorem mem_names_merge_iff
    {v w : Value} (hv : v.isObject = true) (hw : w.isObject = true) (name : Text) :
    name ∈ (merge v w).names ↔ name ∈ v.names ∨ name ∈ w.names := by
  cases v with
  | obj base =>
      cases w with
      | obj others =>
          have hbase := names_mergeFields others base
          simp only [Fields.names] at hbase
          simp only [merge, Value.names_obj, Fields.names, List.map_append, List.mem_append, hbase]
          constructor
          · rintro (h | h)
            · exact Or.inl h
            · obtain ⟨field, hfield, rfl⟩ := List.mem_map.mp h
              exact Or.inr (List.mem_map.mpr ⟨field, List.mem_of_mem_filter hfield, rfl⟩)
          · rintro (h | h)
            · exact Or.inl h
            · by_cases hknown : Fields.has base name = true
              · exact Or.inl (Fields.has_iff.mp hknown)
              · obtain ⟨field, hfield, rfl⟩ := List.mem_map.mp h
                refine Or.inr (List.mem_map.mpr ⟨field, List.mem_filter.mpr ⟨hfield, ?_⟩, rfl⟩)
                simpa using hknown
      | _ => cases hw
  | _ => cases hv

section Fold

variable {α : Type} {f : α → Value}

theorem isObject_foldl_merge
    (hf : ∀ x, (f x).isObject = true) (xs : List α) :
    ∀ {tree : Value}, tree.isObject = true →
      (xs.foldl (fun tree x => merge tree (f x)) tree).isObject = true := by
  induction xs with
  | nil => exact id
  | cons x xs ih =>
      intro tree htree
      exact ih (isObject_merge htree (hf x))

/-- The names of several trees laid over one. -/
theorem mem_names_foldl_merge_iff
    (hf : ∀ x, (f x).isObject = true) (name : Text) (xs : List α) :
    ∀ {tree : Value}, tree.isObject = true →
      (name ∈ (xs.foldl (fun tree x => merge tree (f x)) tree).names ↔
        name ∈ tree.names ∨ ∃ x ∈ xs, name ∈ (f x).names) := by
  induction xs with
  | nil => simp
  | cons x xs ih =>
      intro tree htree
      rw [List.foldl_cons, ih (isObject_merge htree (hf x)), mem_names_merge_iff htree (hf x)]
      simp [or_assoc]

end Fold

end KeyTree

end Workflow
