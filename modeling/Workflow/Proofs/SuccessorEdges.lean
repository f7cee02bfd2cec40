import Workflow.Proofs.KeyTrees
import Workflow.Scope.Binding
import Workflow.State.Edge

/-!
# Edges between states

The targets of a state, and the variables that it binds on the way to one of them.  A state binds
variables toward its successors only.
-/

namespace Workflow

/-- Only a text is the same as a text. -/
theorem Value.same_str_iff
    {v : Value} {t : Text} :
    v.same (.str t) = true ↔ v = .str t := by
  cases v <;> simp [Value.same, Value.sameLeaf, Value.index?]

namespace State

theorem mem_foldl_keepFirst
    (t : Text) (ts : List Text) :
    ∀ kept : List Text,
      t ∈ ts.foldl (fun kept t => if kept.contains t then kept else t :: kept) kept ↔
        t ∈ kept ∨ t ∈ ts := by
  induction ts with
  | nil => simp
  | cons u ts ih =>
      intro kept
      rw [List.foldl_cons, ih, List.mem_cons]
      by_cases hu : u ∈ kept
      · simp only [List.contains_iff_mem, hu, if_true]
        constructor
        · rintro (h | h)
          · exact Or.inl h
          · exact Or.inr (Or.inr h)
        · rintro (h | rfl | h)
          · exact Or.inl h
          · exact Or.inl hu
          · exact Or.inr h
      · simp only [List.contains_iff_mem, hu, if_false, List.mem_cons]
        rw [or_assoc, or_left_comm]

/-- Dropping repetitions loses no text. -/
theorem mem_keepFirst_iff
    {t : Text} {ts : List Text} :
    t ∈ keepFirst ts ↔ t ∈ ts := by
  rw [keepFirst, List.mem_reverse, mem_foldl_keepFirst]
  simp

/-- The successors of a state are its targets that are texts. -/
theorem mem_nextIds_iff
    {state : Value} {t : Text} :
    t ∈ nextIds state ↔ .str t ∈ targetValues state := by
  rw [nextIds, mem_keepFirst_iff, List.mem_filterMap]
  constructor
  · rintro ⟨v, hv, htext⟩
    cases v with
    | str u =>
        cases htext
        exact hv
    | _ => cases htext
  · intro h
    exact ⟨.str t, h, rfl⟩

/-- Only an object has successors. -/
theorem isObject_of_mem_nextIds
    {state : Value} {id : Text} (h : id ∈ nextIds state) :
    state.isObject = true := by
  cases state with
  | obj fields => rfl
  | _ => cases h

/-- Where the targets of a state stand. -/
theorem mem_targetValues_iff
    {state v : Value} :
    v ∈ targetValues state ↔
      v = state.get "Next" ∨
        (isKind state .choice = true ∧
          (v ∈ ruleTargets state "Choices" ∨ v = state.get "Default")) ∨
        (handlesErrors state = true ∧ v ∈ ruleTargets state "Catch") := by
  unfold targetValues
  simp only [List.mem_append, List.mem_singleton]
  by_cases hchoice : isKind state .choice = true
  · by_cases hcatch : handlesErrors state = true
    · simp [hchoice, hcatch, or_assoc]
    · simp [hchoice, hcatch]
  · by_cases hcatch : handlesErrors state = true
    · simp [hchoice, hcatch]
    · simp [hchoice, hcatch]

theorem mem_ruleTargets_iff
    {state v : Value} {field : Text} :
    v ∈ ruleTargets state field ↔
      ∃ rules, (state.get? field).bind Value.items? = some rules ∧
        ∃ rule ∈ rules, rule.isObject = true ∧ rule.get "Next" = v := by
  unfold ruleTargets
  cases hrules : (state.get? field).bind Value.items? with
  | none => simp
  | some rules => simp [List.mem_filterMap]

/-- A block is bound toward a successor only where a field names that successor. -/
theorem get_of_blockToward
    {v block : Value} {field t : Text}
    (h : blockToward v field (.str t) = some block) :
    v.isObject = true ∧ v.get field = .str t := by
  unfold blockToward at h
  by_cases hcond : (v.isObject && (v.get "Assign").truthy &&
      (v.get field).same (.str t)) = true
  · rw [Bool.and_eq_true, Bool.and_eq_true, Value.same_str_iff] at hcond
    exact ⟨hcond.1.1, hcond.2⟩
  · simp only [hcond] at h
    cases h

theorem mem_ruleTargets_of_ruleBlocks
    {state block : Value} {field t : Text}
    (h : block ∈ ruleBlocks state field (.str t)) :
    .str t ∈ ruleTargets state field := by
  unfold ruleBlocks at h
  cases hrules : (state.get? field).bind Value.items? with
  | none =>
      rw [hrules] at h
      cases h
  | some rules =>
      rw [hrules] at h
      obtain ⟨rule, hrule, hblock⟩ := List.mem_filterMap.mp h
      obtain ⟨hobject, hnext⟩ := get_of_blockToward hblock
      exact mem_ruleTargets_iff.mpr ⟨rules, hrules, rule, hrule, hobject, hnext⟩

/-- A block that takes effect toward an id belongs to an edge to that id. -/
theorem mem_nextIds_of_edgeBlocks
    {state block : Value} {t : Text}
    (h : block ∈ edgeBlocks state (.str t)) :
    t ∈ nextIds state := by
  rw [mem_nextIds_iff, mem_targetValues_iff]
  unfold edgeBlocks at h
  rcases List.mem_append.mp h with hcatch | hown
  · by_cases handles : handlesErrors state = true
    · rw [if_pos handles] at hcatch
      exact Or.inr (Or.inr ⟨handles, mem_ruleTargets_of_ruleBlocks hcatch⟩)
    · rw [if_neg handles] at hcatch
      cases hcatch
  · by_cases hchoice : isKind state .choice = true
    · rw [if_pos hchoice] at hown
      rcases List.mem_append.mp hown with hrule | hdefault
      · exact Or.inr (Or.inl ⟨hchoice, Or.inl (mem_ruleTargets_of_ruleBlocks hrule)⟩)
      · have hget := get_of_blockToward (Option.mem_toList.mp hdefault)
        exact Or.inr (Or.inl ⟨hchoice, Or.inr hget.2.symm⟩)
    · rw [if_neg hchoice] at hown
      have hget := get_of_blockToward (Option.mem_toList.mp hown)
      exact Or.inl hget.2.symm

theorem isObject_assignKeys
    (block : Value) :
    (assignKeys block).isObject = true := by
  cases block <;> rfl

/-- What a state binds on an edge is an object. -/
theorem isObject_edgeVariables
    (state successor : Value) :
    (edgeVariables state successor).isObject = true :=
  KeyTree.isObject_foldl_merge isObject_assignKeys _ KeyTree.isObject_empty

/-- The names that a state binds on an edge are those of the blocks that take effect there. -/
theorem mem_names_edgeVariables_iff
    {state successor : Value} {name : Text} :
    name ∈ (edgeVariables state successor).names ↔
      ∃ block ∈ edgeBlocks state successor, name ∈ (assignKeys block).names := by
  rw [edgeVariables, KeyTree.mem_names_foldl_merge_iff isObject_assignKeys name _
    KeyTree.isObject_empty]
  simp

/-- Variables are bound on edges only. -/
theorem mem_nextIds_of_edgeVariables
    {state : Value} {t name : Text}
    (h : name ∈ (edgeVariables state (.str t)).names) :
    t ∈ nextIds state := by
  obtain ⟨block, hblock, -⟩ := mem_names_edgeVariables_iff.mp h
  exact mem_nextIds_of_edgeBlocks hblock

end State

end Workflow
