import Workflow.Proofs.Recastings
import Workflow.Proofs.TreeEquality

/-!
# Blank Assign blocks

`Value.blank` puts nulls in the place of all other values without parts in the Assign blocks of a
workflow: those of its states, of the rules of Choice states and of Catch rules, at every level of
nesting.  What an edge of a state binds is a shape, so it does not change, although a block that is
a text or a number may no longer count as present.  Blanking is therefore a recasting.
-/

namespace Workflow

/-- What a value stands for where variables are assigned. -/
inductive AssignRole where
  | scope
  /-- The states that a scope declares. -/
  | states
  | state
  | branches
  | rules
  | rule
  /-- An Assign block, or anything inside one. -/
  | block
  | data

namespace AssignRole

/-- What the items of an array stand for. -/
def item : AssignRole → AssignRole
  | .branches => .scope
  | .rules => .rule
  | .block => .block
  | _ => .data

/-- What a field of an object stands for. -/
def below : AssignRole → Text → AssignRole
  | .scope, name => if name == "States" then .states else .data
  | .states, _ => .state
  | .state, name =>
    if name == "Assign" then .block
    else if name == "Choices" || name == "Catch" then .rules
    else if name == "ItemProcessor" || name == "Iterator" then .scope
    else if name == "Branches" then .branches
    else .data
  | .rule, name =>
    if name == "Assign" then .block
    else if name == "And" || name == "Or" then .rules
    else if name == "Not" then .rule
    else .data
  | .block, _ => .block
  | _, _ => .data

@[simp] theorem item_data :
    item .data = .data := by
  rfl

@[simp] theorem below_data
    (name : Text) :
    below .data name = .data := by
  rfl

end AssignRole

theorem Fields.get?_map_named
    (f : Text → Value → Value) (fields : Fields) (name : Text) :
    Fields.get? (fields.map fun field => (field.1, f field.1 field.2)) name =
      (fields.get? name).map (f name) := by
  rw [Fields.get?, Fields.get?, List.find?_map]
  cases hfound : fields.find? fun field => field.1 == name with
  | none =>
      rw [Function.comp_def, hfound]
      rfl
  | some field =>
      have hname := List.find?_some hfound
      rw [beq_iff_eq] at hname
      rw [Function.comp_def, hfound, ← hname]
      rfl

namespace Value

mutual

/-- A value with nothing but nulls and structure in its Assign blocks. -/
def blank : AssignRole → Value → Value
  | role, .arr items => .arr (blankItems role.item items)
  | role, .obj fields => .obj (blankFields role fields)
  | .block, _ => .null
  | _, v => v

/-- The items of an array with blank Assign blocks. -/
def blankItems : AssignRole → List Value → List Value
  | _, [] => []
  | role, v :: items => blank role v :: blankItems role items

/-- The fields of an object with blank Assign blocks. -/
def blankFields : AssignRole → List (Text × Value) → List (Text × Value)
  | _, [] => []
  | role, (name, v) :: fields => (name, blank (role.below name) v) :: blankFields role fields

end

theorem blankItems_eq_map
    (role : AssignRole) (items : List Value) :
    blankItems role items = items.map (blank role) := by
  induction items with
  | nil => rfl
  | cons v items ih => rw [blankItems, ih, List.map_cons]

theorem blankFields_eq_map
    (role : AssignRole) (fields : Fields) :
    blankFields role fields =
      fields.map fun field => (field.1, blank (role.below field.1) field.2) := by
  induction fields with
  | nil => rfl
  | cons field fields ih => rw [blankFields, ih, List.map_cons]

mutual

/-- Data stay as they are. -/
theorem blank_data :
    ∀ v : Value, blank .data v = v
  | .arr items => by rw [blank, AssignRole.item_data, blankItems_data items]
  | .obj fields => by rw [blank, blankFields_data fields]
  | .null => rfl
  | .bool _ => rfl
  | .int _ => rfl
  | .float _ => rfl
  | .str _ => rfl

theorem blankItems_data :
    ∀ items : List Value, blankItems .data items = items
  | [] => rfl
  | v :: items => by rw [blankItems, blank_data v, blankItems_data items]

theorem blankFields_data :
    ∀ fields : List (Text × Value), blankFields .data fields = fields
  | [] => rfl
  | (name, v) :: fields => by
      rw [blankFields, AssignRole.below_data, blank_data v, blankFields_data fields]

end

mutual

/-- A blank Assign block is the shape of the block. -/
theorem blank_block :
    ∀ v : Value, blank .block v = KeyTree.shape v
  | .arr items => by rw [blank, KeyTree.shape, AssignRole.item, blankItems_block items]
  | .obj fields => by rw [blank, KeyTree.shape, blankFields_block fields]
  | .null => rfl
  | .bool _ => rfl
  | .int _ => rfl
  | .float _ => rfl
  | .str _ => rfl

theorem blankItems_block :
    ∀ items : List Value, blankItems .block items = KeyTree.shapeItems items
  | [] => rfl
  | v :: items => by
      rw [blankItems, KeyTree.shapeItems, blank_block v, blankItems_block items]

theorem blankFields_block :
    ∀ fields : List (Text × Value), blankFields .block fields = KeyTree.shapeFields fields
  | [] => rfl
  | (name, v) :: fields => by
      rw [blankFields, KeyTree.shapeFields, AssignRole.below, blank_block v,
        blankFields_block fields]

end

section Fields

variable {role : AssignRole} {v : Value}

theorem isObject_blank
    (role : AssignRole) (v : Value) :
    (blank role v).isObject = v.isObject := by
  cases v with
  | arr items => rfl
  | obj fields => rfl
  | _ => cases role <;> rfl

theorem fields?_blank
    (role : AssignRole) (v : Value) :
    (blank role v).fields? = v.fields?.map (blankFields role) := by
  cases v with
  | arr items => rfl
  | obj fields => rfl
  | _ => cases role <;> rfl

theorem items?_blank
    (role : AssignRole) (v : Value) :
    (blank role v).items? = v.items?.map fun items => items.map (blank role.item) := by
  cases v with
  | arr items =>
      rw [blank, blankItems_eq_map]
      rfl
  | obj fields => rfl
  | _ => cases role <;> rfl

theorem get?_blank
    (role : AssignRole) (v : Value) (name : Text) :
    (blank role v).get? name = (v.get? name).map (blank (role.below name)) := by
  rw [Value.get?, Value.get?, fields?_blank]
  cases v.fields? with
  | none => rfl
  | some fields =>
      rw [Option.map_some, Option.bind_some, Option.bind_some, blankFields_eq_map,
        Fields.get?_map_named fun name => blank (role.below name)]

/-- The items of a field are blank in the role that the items of this field have. -/
theorem get?_items?_blank
    (role : AssignRole) (v : Value) (name : Text) :
    ((blank role v).get? name).bind items? =
      ((v.get? name).bind items?).map fun items => items.map (blank (role.below name).item) := by
  rw [get?_blank]
  cases v.get? name with
  | none => rfl
  | some w => exact items?_blank (role.below name) w

/-- A missing field is null before and after. -/
theorem get_blank
    (role : AssignRole) (v : Value) (name : Text) :
    (blank role v).get name = blank (role.below name) (v.get name) := by
  rw [Value.get, Value.get, get?_blank]
  cases v.get? name with
  | none => cases role.below name <;> rfl
  | some w => rfl

theorem get?_blank_data
    {name : Text} (hdata : role.below name = .data) :
    (blank role v).get? name = v.get? name := by
  rw [get?_blank, hdata]
  cases v.get? name with
  | none => rfl
  | some w => rw [Option.map_some, blank_data]

theorem get_blank_data
    {name : Text} (hdata : role.below name = .data) :
    (blank role v).get name = v.get name := by
  rw [get_blank, hdata, blank_data]

end Fields

end Value

namespace KeyTree

mutual

/-- The shape of a shape is the shape itself. -/
theorem shape_shape :
    ∀ v : Value, shape (shape v) = shape v
  | .arr items => by rw [shape, shape, shapeItems_shapeItems items]
  | .obj fields => by rw [shape, shape, shapeFields_shapeFields fields]
  | .null => rfl
  | .bool _ => rfl
  | .int _ => rfl
  | .float _ => rfl
  | .str _ => rfl

theorem shapeItems_shapeItems :
    ∀ items : List Value, shapeItems (shapeItems items) = shapeItems items
  | [] => rfl
  | v :: items => by
      rw [shapeItems, shapeItems, shape_shape v, shapeItems_shapeItems items]

theorem shapeFields_shapeFields :
    ∀ fields : List (Text × Value), shapeFields (shapeFields fields) = shapeFields fields
  | [] => rfl
  | (name, v) :: fields => by
      rw [shapeFields, shapeFields, shape_shape v, shapeFields_shapeFields fields]

end

theorem mergeFields_nil :
    ∀ base : List (Text × Value), mergeFields base [] = base
  | [] => rfl
  | (name, v) :: base => by
      rw [mergeFields, mergeFields_nil base]
      rfl

/-- Nothing changes under the tree without names. -/
theorem merge_empty
    {tree : Value} (h : tree.isObject = true) :
    merge tree empty = tree := by
  cases tree with
  | obj base => rw [empty, merge, mergeFields_nil, List.filter_nil, List.append_nil]
  | _ => cases h

end KeyTree

namespace State

open Value (blank)

variable {s : Value}

/-! ## What a state binds -/

/-- Blocks that are no objects bind nothing. -/
theorem foldl_assignKeys_filter
    (blocks : List Value) :
    ∀ {tree : Value}, tree.isObject = true →
      (blocks.filter Value.isObject).foldl
          (fun tree block => KeyTree.merge tree (assignKeys block)) tree =
        blocks.foldl (fun tree block => KeyTree.merge tree (assignKeys block)) tree := by
  induction blocks with
  | nil => exact fun _ => rfl
  | cons block blocks ih =>
      intro tree htree
      rw [List.foldl_cons]
      cases hobject : block.isObject with
      | true =>
          rw [List.filter_cons_of_pos hobject, List.foldl_cons]
          exact ih (KeyTree.isObject_merge htree (isObject_assignKeys block))
      | false =>
          have hnothing : assignKeys block = KeyTree.empty := by
            cases block with
            | obj fields => cases hobject
            | _ => rfl
          rw [List.filter_cons_of_neg (by rw [hobject]; exact Bool.false_ne_true), hnothing,
            KeyTree.merge_empty htree]
          exact ih htree

/-- What a block binds depends on its shape only. -/
theorem assignKeys_shape
    (block : Value) :
    assignKeys (KeyTree.shape block) = assignKeys block := by
  cases block with
  | obj fields =>
      rw [KeyTree.shape, assignKeys, assignKeys, KeyTree.shapeFields_eq_map fields,
        List.filter_map, ← KeyTree.shapeFields_eq_map, KeyTree.shapeFields_shapeFields]
      rfl
  | _ => rfl

/-- Toward a successor, an object binds the shape of what it bound, as far as that is an object. -/
theorem blockToward_blank
    {role : AssignRole} {field : Text} (hassign : role.below "Assign" = .block)
    (hfield : role.below field = .data) (v successor : Value) :
    (blockToward (blank role v) field successor).filter Value.isObject =
      ((blockToward v field successor).filter Value.isObject).map KeyTree.shape := by
  rw [blockToward, blockToward, Value.isObject_blank, Value.get_blank, hassign, Value.blank_block,
    Value.get_blank_data hfield]
  cases hblock : v.get "Assign" with
  | obj fields =>
      have htruthy : (KeyTree.shape (.obj fields)).truthy = (Value.obj fields).truthy := by
        cases fields <;> rfl
      rw [htruthy]
      split <;> rfl
  | _ => split <;> split <;> rfl

/-- The rules of a field, with the blocks that they bind toward a successor. -/
theorem ruleBlocks_blank
    (field : Text) (hfield : AssignRole.below .state field = .rules) (s successor : Value) :
    (ruleBlocks (blank .state s) field successor).filter Value.isObject =
      ((ruleBlocks s field successor).filter Value.isObject).map KeyTree.shape := by
  rw [ruleBlocks, ruleBlocks, Value.get?_items?_blank, hfield]
  cases (s.get? field).bind Value.items? with
  | none => rfl
  | some rules =>
      dsimp only [Option.map_some, AssignRole.item]
      rw [List.filterMap_map, List.filter_filterMap, List.filter_filterMap, List.map_filterMap]
      exact List.filterMap_congr fun rule _ => blockToward_blank rfl rfl rule successor

theorem kind?_blank
    (s : Value) :
    kind? (blank .state s) = kind? s := by
  rw [kind?, kind?, Value.get?_blank_data rfl]

theorem isKind_blank
    (s : Value) (kind : StateKind) :
    isKind (blank .state s) kind = isKind s kind := by
  rw [isKind, isKind, kind?_blank]

theorem handlesErrors_blank
    (s : Value) :
    handlesErrors (blank .state s) = handlesErrors s := by
  rw [handlesErrors, handlesErrors, kindHas, kindHas, kind?_blank]

theorem edgeBlocks_blank
    (s successor : Value) :
    (edgeBlocks (blank .state s) successor).filter Value.isObject =
      ((edgeBlocks s successor).filter Value.isObject).map KeyTree.shape := by
  have htoward : ∀ field : Text, AssignRole.below .state field = .data →
      (blockToward (blank .state s) field successor).toList.filter Value.isObject =
        ((blockToward s field successor).toList.filter Value.isObject).map KeyTree.shape := by
    intro field hfield
    have hblock : (blockToward (blank .state s) field successor).filter Value.isObject = _ :=
      blockToward_blank rfl hfield s successor
    rw [← Option.toList_filter, hblock, ← Option.toList_filter, Option.toList_map]
  have hchoices := ruleBlocks_blank "Choices" rfl s successor
  have hcatch := ruleBlocks_blank "Catch" rfl s successor
  rw [edgeBlocks, edgeBlocks, isKind_blank, handlesErrors_blank, List.filter_append,
    List.filter_append, List.map_append]
  congr 1
  · split
    · exact hcatch
    · rfl
  · split
    · rw [List.filter_append, List.filter_append, List.map_append, hchoices, htoward _ rfl]
    · exact htoward _ rfl

theorem edgeVariables_blank
    (s : Value) :
    edgeVariables (blank .state s) = edgeVariables s := by
  funext successor
  rw [edgeVariables, edgeVariables, ← foldl_assignKeys_filter _ KeyTree.isObject_empty,
    ← foldl_assignKeys_filter (edgeBlocks s successor) KeyTree.isObject_empty, edgeBlocks_blank,
    List.foldl_map]
  simp only [assignKeys_shape]

/-! ## What a state leads to -/

theorem ruleTargets_blank
    {field : Text} (hfield : AssignRole.below .state field = .rules) (s : Value) :
    ruleTargets (blank .state s) field = ruleTargets s field := by
  rw [ruleTargets, ruleTargets, Value.get?_items?_blank, hfield]
  cases (s.get? field).bind Value.items? with
  | none => rfl
  | some rules =>
      dsimp only [Option.map_some, AssignRole.item]
      rw [List.filterMap_map]
      refine List.filterMap_congr fun rule _ => ?_
      rw [Function.comp_apply, Value.isObject_blank, Value.get_blank_data rfl]

theorem nextIds_blank
    (s : Value) :
    nextIds (blank .state s) = nextIds s := by
  rw [nextIds, nextIds, targetValues, targetValues, isKind_blank, handlesErrors_blank,
    ruleTargets_blank rfl, ruleTargets_blank rfl, Value.get_blank_data rfl,
    Value.get_blank_data rfl]

/-! ## What a state nests -/

theorem processor_blank
    (s : Value) :
    processor (blank .state s) = blank .scope (processor s) := by
  have hnewer : AssignRole.below .state "ItemProcessor" = .scope := rfl
  have holder : AssignRole.below .state "Iterator" = .scope := rfl
  rw [processor, processor, Value.get?_blank, hnewer]
  cases s.get? "ItemProcessor" with
  | none => rw [Option.map_none, Value.get_blank, holder]
  | some scope => rfl

theorem branches?_blank
    (s : Value) :
    branches? (blank .state s) = (branches? s).map fun scopes => scopes.map (blank .scope) :=
  Value.get?_items?_blank .state s "Branches"

theorem declared?_blank
    (scope : Value) :
    declared? (blank .scope scope) =
      (declared? scope).map fun states =>
        states.map fun field => (field.1, blank .state field.2) := by
  have hstates : AssignRole.below .scope "States" = .states := rfl
  rw [declared?, declared?, Value.get?_blank, hstates]
  cases scope.get? "States" with
  | none => rfl
  | some v =>
      rw [Option.map_some, Option.bind_some, Option.bind_some, Value.fields?_blank]
      refine congrArg (Option.map · v.fields?) (funext fun fields => ?_)
      rw [Value.blankFields_eq_map]
      rfl

end State

/-- Blank Assign blocks, as a recasting. -/
def blanking : Recasting where
  scope := Value.blank .scope
  state := Value.blank .state
  isObject_scope := Value.isObject_blank .scope
  modeOf_scope v := by rw [State.modeOf, State.modeOf, Value.get_blank_data rfl]
  declared?_scope := State.declared?_blank
  isNull_state s := by cases s <;> rfl
  kind?_state := State.kind?_blank
  processor_state s _ := State.processor_blank s
  branches?_state s _ := State.branches?_blank s
  nextIds_state := State.nextIds_blank
  edgeVariables_state := State.edgeVariables_blank

end Workflow
