import Workflow.Proofs.AddressAgreement
import Workflow.Proofs.BlankedAssigns
import Workflow.Proofs.OrderIndependence

/-!
# Scopes carry shapes only

The variables in scope are two objects of key trees: nothing in them has a value, and the name of
half-finished Assign blocks is not among their names.  Two workflows with the same blank Assign
blocks differ in nothing but the values without parts that stand inside these blocks.  The variables
in scope are the same in both, at every state, also where a block has no parts at all and counts as
present in one workflow and not in the other.
-/

namespace Workflow

namespace KeyTree

/-- A tree of variables: an object and a key tree, without the name of half-finished blocks. -/
structure Variables (tree : Value) : Prop where
  isObject : tree.isObject = true
  valid : Valid tree
  undrafted : State.draftField ∉ tree.names

theorem variables_empty :
    Variables empty where
  isObject := isObject_empty
  valid := valid_empty
  undrafted := by
    rw [names_empty]
    exact List.not_mem_nil

theorem Variables.merge
    {v w : Value} (hv : Variables v) (hw : Variables w) :
    Variables (merge v w) where
  isObject := isObject_merge hv.isObject hw.isObject
  valid := hv.valid.merge hw.valid
  undrafted := by
    rw [mem_names_merge_iff hv.isObject hw.isObject, not_or]
    exact ⟨hv.undrafted, hw.undrafted⟩

end KeyTree

namespace State

/-- No block binds anything under the name of half-finished blocks. -/
theorem draftField_not_mem_assignKeys
    (block : Value) :
    draftField ∉ (assignKeys block).names := by
  cases block with
  | obj fields =>
      rw [assignKeys, Value.names_obj, KeyTree.names_shapeFields]
      intro h
      obtain ⟨field, hfield, hname⟩ := List.mem_map.mp h
      have hkept := (List.mem_filter.mp hfield).2
      rw [hname, bne_self_eq_false] at hkept
      cases hkept
  | _ => exact List.not_mem_nil

theorem draftField_not_mem_edgeVariables
    (state successor : Value) :
    draftField ∉ (edgeVariables state successor).names := by
  rw [mem_names_edgeVariables_iff]
  rintro ⟨block, -, h⟩
  exact draftField_not_mem_assignKeys block h

end State

/-- A walk over the scope of a located state finds a tree of variables. -/
theorem Address.Located.variables_variablesTo
    {root : Value} {a : Address} {id : Text} (ha : a.Located root id) (hroot : root.Proper)
    (entries : Predecessors) (silent : Option Text) (target : Text) :
    KeyTree.Variables
      ((⟨a.siblings, entries, a.parentPath, silent⟩ : Walk).variablesTo target) where
  isObject := Walk.isObject_variablesTo _ target
  valid := ha.valid_variablesTo hroot entries silent target
  undrafted := by
    rw [Walk.mem_names_variablesTo_iff]
    rintro ⟨edge, -, h⟩
    unfold Walk.bound at h
    split at h
    · exact KeyTree.variables_empty.undrafted h
    · exact State.draftField_not_mem_edgeVariables _ _ h

/-- The variables in scope of a proper workflow are trees of variables. -/
theorem variables_of_variableScope
    {root : Value} (hroot : root.Proper) {entries : Predecessors} {target : Reference}
    {current : Option Reference} {bound : VariableScope}
    (h : variableScope root entries target current = .ok bound) :
    KeyTree.Variables bound.own ∧ KeyTree.Variables bound.outer := by
  refine variableScope_induction
    (P := fun bound => KeyTree.Variables bound.own ∧ KeyTree.Variables bound.outer)
    ⟨KeyTree.variables_empty, KeyTree.variables_empty⟩ (fun reference a ha levels => ?_) h
  refine scopeAt_induction (Q := fun a => ∃ id, a.Located root id)
    (fun p a hfind => (findPath_eq_some_iff.mp hfind).2.2) KeyTree.variables_empty
    (fun _ _ => KeyTree.Variables.merge) ?_ levels (reference.exists_located hroot ha)
  rintro a ⟨id, ha⟩ silent target
  exact ha.variables_variablesTo hroot entries silent target

/-- Workflows that differ in nothing but the values without parts inside their Assign blocks. -/
def SameButAssigned (w w' : Value) : Prop := w.blank .scope = w'.blank .scope

/-- The variables in scope carry shapes only.  Whatever is asked for, the answer consists of two
trees of variables, and there is an answer where the references lead anywhere.  Workflows that
differ in nothing but the values without parts inside their Assign blocks give the same answers. -/
theorem scopes_carry_shapes
    {w : Value} (hw : w.Proper) :
    (∀ entries target current bound, variableScope w entries target current = .ok bound →
        KeyTree.Variables bound.own ∧ KeyTree.Variables bound.outer) ∧
      (∀ entries (target : Reference) current, target.Leads →
        (∀ reference ∈ current, reference.Leads) →
          ∃ bound, variableScope w entries target current = .ok bound) ∧
      ∀ w', SameButAssigned w w' → ∀ target current,
        variableScope w (Predecessors.ofWorkflow w) target current =
          variableScope w' (Predecessors.ofWorkflow w') target current := by
  refine ⟨fun _ _ _ _ => variables_of_variableScope hw, fun _ _ _ => exists_variableScope, ?_⟩
  intro w' hsame target current
  have hblank : ∀ v, variableScope v (Predecessors.ofWorkflow v) target current =
      variableScope (v.blank .scope) (Predecessors.ofWorkflow (v.blank .scope)) target current := by
    intro v
    rw [← blanking.variableScope_scope, ← blanking.ofWorkflow_scope]
    rfl
  rw [hblank w, hblank w', hsame]

/-- A workflow with one value in all places of its Assign blocks: two blocks that are no objects,
one in a state and one in a rule, and blocks of a state, of a rule and of a Catch rule. -/
def assigning (leaf : Value) : Value :=
  .obj [("States", .obj [
    ("A", .obj [("Type", .str "Task"), ("Assign", leaf), ("Next", .str "C"),
      ("Catch", .arr [.obj [("Assign", .obj [("e", .arr [leaf])]), ("Next", .str "C")]])]),
    ("C", .obj [("Type", .str "Choice"), ("Default", .str "M"),
      ("Assign", .obj [("x", .obj [("y", leaf)]), ("ValueEnteredInForm", leaf)]),
      ("Choices", .arr [
        .obj [("Assign", leaf), ("Next", .str "M")],
        .obj [("Assign", .obj [("z", leaf)]), ("Next", .str "M")]])]),
    ("M", .obj [("Type", .str "Map"), ("ItemProcessor", .obj [("States", .obj [
      ("B", .obj [("Type", .str "Pass"), ("Assign", .obj [("x", leaf)]), ("Next", .str "D")]),
      ("D", .obj [("Type", .str "Succeed")])])])])])]

/-- Numbers that count as present and empty texts that do not give the same variables. -/
theorem scopes_carry_shapes_assigning :
    ∃ bound,
      variableScope (assigning (.int 1)) (Predecessors.ofWorkflow (assigning (.int 1)))
        (.path [.name "M", .name "D"]) none = .ok bound ∧
      variableScope (assigning (.str "")) (Predecessors.ofWorkflow (assigning (.str "")))
        (.path [.name "M", .name "D"]) none = .ok bound ∧
      KeyTree.Variables bound.own ∧ KeyTree.Variables bound.outer ∧
      bound.own.names = ["x"] ∧ bound.outer.names = ["z", "x", "e"] := by
  have hproper : (assigning (.int 1)).Proper := by decide
  have hsame : SameButAssigned (assigning (.int 1)) (assigning (.str "")) := by rfl
  have hleads : Path.Leads [.name "M", .name "D"] := by
    simp [Path.Leads, Segment.Leads, Segment.name?]
  obtain ⟨htrees, hanswer, hequal⟩ := scopes_carry_shapes hproper
  obtain ⟨bound, hbound⟩ := hanswer (Predecessors.ofWorkflow (assigning (.int 1)))
    (.path [.name "M", .name "D"]) none hleads fun _ hnone => absurd hnone (Option.not_mem_none _)
  refine ⟨bound, hbound, (hequal _ hsame _ _).symm.trans hbound, (htrees _ _ _ _ hbound).1,
    (htrees _ _ _ _ hbound).2, ?_⟩
  cases hbound
  exact ⟨rfl, rfl⟩

end Workflow
