import Workflow.Proofs.PathAgreement

/-!
# Changes that a state cannot see

Two kinds of changes around a state leave its variables in scope as they are.

* What an owner on its path binds may change: the bindings of a Map or Parallel state take effect
  when its nested scopes are finished.  This holds even where a loop leads from the owner back to
  itself, so that the walk in its scope goes through it.
* Nested scopes beside its path may change: those of any state that is no owner on the path, and
  all branches of a Parallel owner but the one that the path goes through.
-/

namespace Workflow

/-- The look-up of a name does not see whether the fields with other names are there. -/
theorem Fields.get?_filter
    {names : List Text} {name : Text} (hname : name ∉ names) (fields : Fields) :
    Fields.get? (fields.filter fun field => !names.contains field.1) name = fields.get? name := by
  induction fields with
  | nil => rfl
  | cons field fields ih =>
      rw [List.filter_cons]
      by_cases hfield : field.1 = name
      · have hkept : (!names.contains field.1) = true := by simpa [hfield] using hname
        rw [if_pos hkept, get?_cons, get?_cons, if_pos hfield, if_pos hfield]
      · split
        · rw [get?_cons, get?_cons, if_neg hfield, if_neg hfield, ih]
        · rw [get?_cons, if_neg hfield, ih]

namespace Value.AgreeBut

variable {names : List Text} {v w : Value}

/-- Objects agree when they have the same fields apart from those with the given names. -/
theorem of_fields
    {fields others : Fields}
    (h : (fields.filter fun field => !names.contains field.1) =
      others.filter fun field => !names.contains field.1) :
    AgreeBut names (.obj fields) (.obj others) where
  isObject := rfl
  field name hname := by
    have hget := congrArg (Fields.get? · name) h
    rw [Fields.get?_filter hname, Fields.get?_filter hname] at hget
    exact hget

theorem get_eq
    (h : AgreeBut names v w) {name : Text} (hname : name ∉ names) :
    v.get name = w.get name := by
  rw [Value.get, Value.get, h.field name hname]

end Value.AgreeBut

/-! ## What owners bind -/

/-- The values of two `Catch` fields whose rules differ in their Assign blocks only. -/
inductive CatchRebound : Value → Value → Prop
  | same (v : Value) :
      CatchRebound v v
  | rules
      {rules rules' : List Value} (h : List.Forall₂ (Value.AgreeBut ["Assign"]) rules rules') :
      CatchRebound (.arr rules) (.arr rules')

namespace State

/-- Names of the fields in which a state and its rebound form may differ. -/
def reboundFields : List Text := ["Assign", "Catch", "ItemProcessor", "Iterator", "Branches"]

/-- States that differ in what they and their Catch rules bind, and in their nested scopes. -/
structure Rebound (s s' : Value) : Prop where
  fields : Value.AgreeBut reboundFields s s'
  catches : Option.Rel CatchRebound (s.get? "Catch") (s'.get? "Catch")

namespace Rebound

variable {s s' : Value}

theorem kind?_eq
    (h : Rebound s s') :
    kind? s = kind? s' := by
  rw [kind?, kind?, h.fields.field "Type" (by decide)]

/-- New Assign blocks leave the targets of rules as they are. -/
theorem filterMap_next_eq
    {rules rules' : List Value} (h : List.Forall₂ (Value.AgreeBut ["Assign"]) rules rules') :
    (rules.filterMap fun rule => if rule.isObject then some (rule.get "Next") else none) =
      rules'.filterMap fun rule => if rule.isObject then some (rule.get "Next") else none := by
  induction h with
  | nil => rfl
  | @cons rule rule' _ _ hrule _ ih =>
      rw [List.filterMap_cons, List.filterMap_cons, hrule.isObject, hrule.get_eq (by decide), ih]

theorem ruleTargets_catch_eq
    (h : Rebound s s') :
    ruleTargets s "Catch" = ruleTargets s' "Catch" := by
  unfold ruleTargets
  rcases Option.rel_cases h.catches with ⟨hnone, hnone'⟩ | ⟨v, v', hsome, hsome', hcatches⟩
  · rw [hnone, hnone']
  · rw [hsome, hsome']
    cases hcatches with
    | same => rfl
    | rules hrules => exact filterMap_next_eq hrules

/-- States that are bound anew keep their kinds and their successors. -/
theorem sameEdges
    (h : Rebound s s') :
    SameEdges s s' where
  kind? := h.kind?_eq
  nextIds := by
    have hchoices : ruleTargets s "Choices" = ruleTargets s' "Choices" := by
      rw [ruleTargets, ruleTargets, h.fields.field "Choices" (by decide)]
    rw [nextIds, nextIds, targetValues, targetValues, h.ruleTargets_catch_eq, hchoices,
      h.fields.get_eq (by decide), h.fields.get_eq (by decide), isKind, isKind, handlesErrors,
      handlesErrors, kindHas, kindHas, h.kind?_eq]

end Rebound

end State

/-- The variables in scope at a state do not depend on what the owners on its path bind: the Assign
blocks of these Map and Parallel states and of their Catch rules may be added, replaced and removed
in any number of them. -/
theorem variableScope_rebound
    {w w' : Value} {p : Path} (h : AgreeAlong State.Rebound Eq p w w')
    (hw : w.Proper) (hw' : w'.Proper) {a : Address} (ha : findPath w p = some a) :
    variableScope w (Predecessors.ofWorkflow w) (.path p) none =
      variableScope w' (Predecessors.ofWorkflow w') (.path p) none := by
  have hbeside : ∀ s s', s = s' → State.SameEffects s s' := by
    rintro s _ rfl
    exact State.SameEffects.refl s
  have hsame := h.mono (fun _ _ => State.Rebound.sameEdges) hbeside
  exact hsame.variableScope_eq hw hw' ha

/-- A Map state on a loop, with fields of its own and a Catch rule with some. -/
def ownerInLoop (own caught : Fields) : Value :=
  .obj [("States", .obj [
    ("A", .obj [("Type", .str "Pass"), ("Assign", .obj [("x", .int 1)]), ("Next", .str "M")]),
    ("M", .obj (("Type", .str "Map") :: ("Next", .str "A") ::
      ("Catch", .arr [.obj (("Next", .str "A") :: caught)]) ::
      ("ItemProcessor", .obj [("States", .obj [
        ("B", .obj [("Type", .str "Pass"), ("Assign", .obj [("y", .int 1)]), ("Next", .str "C")]),
        ("C", .obj [("Type", .str "Succeed")])])]) :: own))])]

/-- Inside the Map state of the loop it makes no difference that the Map state and its Catch rule
bind variables on the way back to the state in front of it. -/
theorem variableScope_rebound_ownerInLoop :
    variableScope (ownerInLoop [] []) (Predecessors.ofWorkflow (ownerInLoop [] []))
        (.path [.name "M", .name "C"]) none =
      variableScope (ownerInLoop [("Assign", .obj [("z", .int 1)])] [("Assign", .str "$.e")])
        (Predecessors.ofWorkflow
          (ownerInLoop [("Assign", .obj [("z", .int 1)])] [("Assign", .str "$.e")]))
        (.path [.name "M", .name "C"]) none := by
  have hagrees : AgreeAlong State.Rebound Eq [.name "M", .name "C"] (ownerInLoop [] [])
      (ownerInLoop [("Assign", .obj [("z", .int 1)])] [("Assign", .str "$.e")]) := by
    refine .map ⟨.of_fields rfl, .some (.cons ?_ (.cons ?_ .nil))⟩ rfl rfl rfl
      (.state (.refl (fun _ => rfl) _))
    · exact ⟨rfl, fun h => absurd h (by decide), fun _ => rfl⟩
    · refine ⟨rfl, fun _ => ⟨.of_fields rfl, .some ?_⟩, fun h => absurd rfl h⟩
      exact .rules (.cons (.of_fields rfl) .nil)
  exact variableScope_rebound hagrees (by decide) (by decide) rfl

/-! ## What is nested elsewhere -/

/-- States have the same body when they agree in everything but their nested scopes. -/
theorem State.SameBody.of_agreeBut
    {s s' : Value} (h : Value.AgreeBut nestingFields s s') (hnull : s.isNull = s'.isNull) :
    SameBody s s' where
  isObject := h.isObject
  isNull := hnull
  field name hitem hiterator hbranches :=
    h.field name (by simp [nestingFields, hitem, hiterator, hbranches])

/-- The variables in scope at a state do not depend on the nested scopes beside its path: those of
the states that are no owners on the path, and the branches of its Parallel owners that the path
does not go through, may be any values. -/
theorem variableScope_beside
    {w w' : Value} {p : Path} (h : AgreeAlong State.SameBody State.SameBody p w w')
    (hw : w.Proper) (hw' : w'.Proper) {a : Address} (ha : findPath w p = some a) :
    variableScope w (Predecessors.ofWorkflow w) (.path p) none =
      variableScope w' (Predecessors.ofWorkflow w') (.path p) none := by
  have hsame := h.mono (fun _ _ hs => hs.sameEffects.toSameEdges)
    fun _ _ => State.SameBody.sameEffects
  exact hsame.variableScope_eq hw hw' ha

/-- A branch that ends in a Map state with a given processor. -/
def branchBeforeMap (inner : Value) : Value :=
  .obj [("States", .obj [
    ("B", .obj [("Type", .str "Pass"), ("Assign", .obj [("y", .int 1)]), ("Next", .str "M")]),
    ("M", .obj [("Type", .str "Map"), ("ItemProcessor", inner)])])]

/-- A Parallel state with a branch in the middle of two others, whose states may have the same ids
as those of the middle one. -/
def middleBranch (first last inner : Value) : Value :=
  .obj [("States", .obj [
    ("A", .obj [("Type", .str "Pass"), ("Assign", .obj [("x", .int 1)]), ("Next", .str "P")]),
    ("P", .obj [("Type", .str "Parallel"),
      ("Branches", .arr [first, branchBeforeMap inner, last])])])]

/-- What stands in the other branches, and in the Map state at the end of the path, may be one thing
or another. -/
theorem variableScope_beside_middleBranch :
    variableScope (middleBranch (branchBeforeMap .null) .null (.bool true))
        (Predecessors.ofWorkflow (middleBranch (branchBeforeMap .null) .null (.bool true)))
        (.path [.name "P", .index 1, .name "M"]) none =
      variableScope (middleBranch (.str "none") (.obj []) (branchBeforeMap (.int 1)))
        (Predecessors.ofWorkflow (middleBranch (.str "none") (.obj []) (branchBeforeMap (.int 1))))
        (.path [.name "P", .index 1, .name "M"]) none := by
  have hagrees : AgreeAlong State.SameBody State.SameBody [.name "P", .index 1, .name "M"]
      (middleBranch (branchBeforeMap .null) .null (.bool true))
      (middleBranch (.str "none") (.obj []) (branchBeforeMap (.int 1))) := by
    refine .branch ⟨.of_fields rfl, .some (.cons ?_ (.cons ?_ .nil))⟩ rfl rfl rfl rfl rfl
      (.state ⟨.of_fields rfl, .some (.cons ?_ (.cons ?_ .nil))⟩)
    · exact ⟨rfl, fun h => absurd h (by decide), fun _ => .of_agreeBut (.of_fields rfl) rfl⟩
    · exact ⟨rfl, fun _ => .of_agreeBut (.of_fields rfl) rfl, fun h => absurd rfl h⟩
    · exact ⟨rfl, nofun, fun _ => .of_agreeBut (.of_fields rfl) rfl⟩
    · exact ⟨rfl, nofun, fun _ => .of_agreeBut (.of_fields rfl) rfl⟩
  exact variableScope_beside hagrees (by decide) (by decide) rfl

end Workflow
