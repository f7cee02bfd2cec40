import Workflow.Proofs.KeyPaths
import Workflow.Proofs.SuccessorEdges

/-!
# Equality of key trees

A key tree has objects, arrays and nulls only, and no object in it repeats a name.  What states bind
are key trees, and merging keeps them so.  Key trees with the same kinds along the same paths are
equal, whatever the order of the names in their objects.
-/

namespace Workflow

namespace KeyTree

open Value

/-- A key tree: no object repeats a name, and what has no parts is null. -/
structure Valid (v : Value) : Prop where
  proper : v.Proper
  kinds : ∀ p k, v.kindAlong? p = some k → k = .null ∨ k = .arr ∨ k = .obj

/-- The parts of proper values are proper. -/
theorem proper_of_child?
    {v w : Value} (hv : v.Proper) {s : TreeStep} (h : v.child? s = some w) :
    w.Proper := by
  cases v with
  | obj fields =>
      cases s with
      | key name => exact ((proper_obj_iff fields).mp hv).2 _ (Fields.mem_of_get? h)
      | item i => cases h
  | arr items =>
      cases s with
      | key name => cases h
      | item i => exact (proper_arr_iff items).mp hv w (List.mem_of_getElem? h)
  | _ => cases s <;> cases h

/-- The parts of a key tree are key trees. -/
theorem Valid.child
    {v w : Value} (hv : Valid v) {s : TreeStep} (h : v.child? s = some w) :
    Valid w where
  proper := proper_of_child? hv.proper h
  kinds p k hk := by
    refine hv.kinds (s :: p) k ?_
    rw [kindAlong?_cons, h]
    exact hk

theorem valid_empty :
    Valid empty where
  proper := by decide
  kinds := by
    intro p k hk
    cases p with
    | nil =>
        cases hk
        exact Or.inr (Or.inr rfl)
    | cons s p => cases s <;> cases hk

mutual

/-- Merging proper values repeats no name. -/
theorem merge_proper :
    ∀ v w : Value, v.Proper → w.Proper → (merge v w).Proper
  | .obj base, .obj others, hv, hw => by
      rw [proper_obj_iff] at hv hw
      have hbase := names_mergeFields others base
      rw [merge, proper_obj_iff]
      refine ⟨?_, fun field hfield => ?_⟩
      · unfold Fields.names at hbase ⊢
        rw [List.map_append, hbase]
        refine List.nodup_append.mpr
          ⟨hv.1, hw.1.sublist (List.Sublist.map _ List.filter_sublist), ?_⟩
        rintro name hname other hother rfl
        obtain ⟨field, hfield, hfst⟩ := List.mem_map.mp hother
        have hnew := (List.mem_filter.mp hfield).2
        rw [hfst, Fields.has_iff.mpr hname] at hnew
        cases hnew
      · rcases List.mem_append.mp hfield with hmerged | hnew
        · have hfields := mergeFields_proper base others ((fieldsProper_iff base).mpr hv.2) hw.2
          exact (fieldsProper_iff _).mp hfields field hmerged
        · exact hw.2 field (List.mem_of_mem_filter hnew)
  | .arr base, .arr others, hv, hw => by
      rw [merge]
      exact mergeItems_proper base others hv hw
  | .obj _, .null, _, hw => hw
  | .obj _, .bool _, _, hw => hw
  | .obj _, .int _, _, hw => hw
  | .obj _, .float _, _, hw => hw
  | .obj _, .str _, _, hw => hw
  | .obj _, .arr _, _, hw => hw
  | .arr _, .null, _, hw => hw
  | .arr _, .bool _, _, hw => hw
  | .arr _, .int _, _, hw => hw
  | .arr _, .float _, _, hw => hw
  | .arr _, .str _, _, hw => hw
  | .arr _, .obj _, _, hw => hw
  | .null, _, _, hw => hw
  | .bool _, _, _, hw => hw
  | .int _, _, _, hw => hw
  | .float _, _, _, hw => hw
  | .str _, _, _, hw => hw

theorem mergeFields_proper :
    ∀ (base : List (Text × Value)) (others : Fields), FieldsProper base →
      (∀ field ∈ others, field.2.Proper) → FieldsProper (mergeFields base others)
  | [], _, _, _ => trivial
  | (name, v) :: base, others, hbase, hothers => by
      rw [mergeFields]
      refine ⟨?_, mergeFields_proper base others hbase.2 hothers⟩
      cases hget : others.get? name with
      | none => exact hbase.1
      | some w => exact merge_proper v w hbase.1 (hothers _ (Fields.mem_of_get? hget))

theorem mergeItems_proper :
    ∀ base others : List Value, ItemsProper base → ItemsProper others →
      ItemsProper (mergeItems base others)
  | [], _, _, hothers => hothers
  | _ :: _, [], hbase, _ => hbase
  | v :: base, w :: others, hbase, hothers =>
      ⟨merge_proper v w hbase.1 hothers.1, mergeItems_proper base others hbase.2 hothers.2⟩

end

/-- Merging key trees gives a key tree. -/
theorem Valid.merge
    {v w : Value} (hv : Valid v) (hw : Valid w) :
    Valid (merge v w) where
  proper := merge_proper v w hv.proper hw.proper
  kinds p k hk := by
    rcases kindAlong?_of_merge hk with hk | hk
    · exact hv.kinds p k hk
    · exact hw.kinds p k hk

theorem valid_foldl_merge
    {α : Type} {f : α → Value} (xs : List α) (hf : ∀ x ∈ xs, Valid (f x)) :
    ∀ {tree : Value}, Valid tree → Valid (xs.foldl (fun tree x => merge tree (f x)) tree) := by
  induction xs with
  | nil => exact id
  | cons x xs ih =>
      intro tree htree
      exact ih (fun y hy => hf y (List.mem_cons_of_mem _ hy))
        (htree.merge (hf x List.mem_cons_self))

theorem shapeItems_eq_map :
    ∀ items : List Value, shapeItems items = items.map shape
  | [] => rfl
  | v :: items => by rw [shapeItems, shapeItems_eq_map items, List.map_cons]

theorem shapeFields_eq_map :
    ∀ fields : List (Text × Value),
      shapeFields fields = fields.map fun field => (field.1, shape field.2)
  | [] => rfl
  | (name, v) :: fields => by rw [shapeFields, shapeFields_eq_map fields, List.map_cons]

theorem names_shapeFields
    (fields : Fields) :
    Fields.names (shapeFields fields) = fields.names := by
  unfold Fields.names
  rw [shapeFields_eq_map, List.map_map]
  rfl

mutual

/-- Reducing a value to its shape keeps it proper. -/
theorem shape_proper :
    ∀ v : Value, v.Proper → (shape v).Proper
  | .arr items, hv => shapeItems_proper items hv
  | .obj fields, hv => ⟨(names_shapeFields fields).symm ▸ hv.1, shapeFields_proper fields hv.2⟩
  | .null, _ => trivial
  | .bool _, _ => trivial
  | .int _, _ => trivial
  | .float _, _ => trivial
  | .str _, _ => trivial

theorem shapeItems_proper :
    ∀ items : List Value, ItemsProper items → ItemsProper (shapeItems items)
  | [], _ => trivial
  | v :: items, h => ⟨shape_proper v h.1, shapeItems_proper items h.2⟩

theorem shapeFields_proper :
    ∀ fields : List (Text × Value), FieldsProper fields → FieldsProper (shapeFields fields)
  | [], _ => trivial
  | (_, v) :: fields, h => ⟨shape_proper v h.1, shapeFields_proper fields h.2⟩

end

/-- The parts of a shape are the shapes of the parts. -/
theorem child?_shape
    (v : Value) (s : TreeStep) :
    (shape v).child? s = (v.child? s).map shape := by
  cases v with
  | obj fields =>
      cases s with
      | item i => rfl
      | key name =>
          rw [shape, shapeFields_eq_map]
          simp only [child?]
          unfold Fields.get?
          rw [List.find?_map, Option.map_map, Option.map_map]
          rfl
  | arr items =>
      cases s with
      | key name => rfl
      | item i =>
          rw [shape, shapeItems_eq_map]
          exact List.getElem?_map
  | _ => cases s <;> rfl

/-- The shape of a proper value is a key tree. -/
theorem valid_shape
    {v : Value} (hv : v.Proper) :
    Valid (shape v) where
  proper := shape_proper v hv
  kinds := by
    intro p
    induction p generalizing v with
    | nil =>
        intro k hk
        cases hk
        cases v with
        | arr items => exact Or.inr (Or.inl rfl)
        | obj fields => exact Or.inr (Or.inr rfl)
        | _ => exact Or.inl rfl
    | cons s p ih =>
        intro k hk
        rw [kindAlong?_cons, child?_shape] at hk
        cases hchild : v.child? s with
        | none =>
            rw [hchild] at hk
            cases hk
        | some w =>
            rw [hchild] at hk
            exact ih (proper_of_child? hv hchild) k hk

end KeyTree

namespace State

/-- A proper Assign block is reduced to a key tree. -/
theorem valid_assignKeys
    {block : Value} (hblock : block.Proper) :
    KeyTree.Valid (assignKeys block) := by
  cases block with
  | obj fields =>
      have hfields := (Value.proper_obj_iff fields).mp hblock
      have hkept : (Value.obj (fields.filter fun field => field.1 != draftField)).Proper := by
        refine (Value.proper_obj_iff _).mpr ⟨?_, fun field hfield => ?_⟩
        · exact hfields.1.sublist (List.Sublist.map _ List.filter_sublist)
        · exact hfields.2 field (List.mem_of_mem_filter hfield)
      exact KeyTree.valid_shape hkept
  | _ => exact KeyTree.valid_empty

theorem proper_of_blockToward
    {v successor block : Value} {field : Text} (hv : v.Proper)
    (h : blockToward v field successor = some block) :
    block.Proper := by
  unfold blockToward at h
  dsimp only at h
  split at h
  · cases h
    exact hv.get _
  · cases h

/-- The blocks that take effect on the edges of a proper state are proper. -/
theorem proper_of_edgeBlocks
    {state successor block : Value} (hstate : state.Proper)
    (h : block ∈ edgeBlocks state successor) :
    block.Proper := by
  have hrules : ∀ field, block ∈ ruleBlocks state field successor → block.Proper := by
    intro field hmem
    unfold ruleBlocks at hmem
    split at hmem
    · next rules hitems =>
        obtain ⟨v, hv, hitems⟩ := Option.bind_eq_some_iff.mp hitems
        obtain ⟨rule, hrule, hblock⟩ := List.mem_filterMap.mp hmem
        exact proper_of_blockToward ((hstate.get? hv).items hitems rule hrule) hblock
    · cases hmem
  have hown : ∀ field, block ∈ (blockToward state field successor).toList → block.Proper :=
    fun field hmem => proper_of_blockToward hstate (Option.mem_toList.mp hmem)
  unfold edgeBlocks at h
  rcases List.mem_append.mp h with hcatch | hrest
  · split at hcatch
    · exact hrules _ hcatch
    · cases hcatch
  · split at hrest
    · rcases List.mem_append.mp hrest with hrule | hdefault
      · exact hrules _ hrule
      · exact hown _ hdefault
    · exact hown _ hrest

/-- What a proper state binds on an edge is a key tree. -/
theorem valid_edgeVariables
    {state : Value} (hstate : state.Proper) (successor : Value) :
    KeyTree.Valid (edgeVariables state successor) :=
  KeyTree.valid_foldl_merge _ (fun _ hblock => valid_assignKeys (proper_of_edgeBlocks hstate hblock))
    KeyTree.valid_empty

end State

namespace KeyTree

open Value

mutual

/-- Key trees of the same shape are equal up to the order of names. -/
theorem same_of_sameShape :
    ∀ v w : Value, Valid v → Valid w → SameShape v w → v.same w = true
  | .null, w, _, _, h => by
      cases w with
      | null => rfl
      | _ => cases h.kind
  | .arr items, w, hv, hw, h => by
      cases w with
      | arr others =>
          rw [same]
          exact sameItems_of_sameShape items others hv hw h
      | _ => cases h.kind
  | .obj fields, w, hv, hw, h => by
      cases w with
      | obj others =>
          obtain ⟨hnames, -⟩ := (proper_obj_iff fields).mp hv.proper
          obtain ⟨hothers, -⟩ := (proper_obj_iff others).mp hw.proper
          have hfield : ∀ field ∈ fields, Valid field.2 ∧
              ∃ w, Fields.get? others field.1 = some w ∧ Valid w ∧ SameShape field.2 w := by
            intro field hmem
            have hget : (Value.obj fields).child? (.key field.1) = some field.2 :=
              Fields.get?_of_mem hnames hmem
            have hpart := h.child (.key field.1)
            rw [hget] at hpart
            cases hother : (Value.obj others).child? (.key field.1) with
            | none =>
                rw [hother] at hpart
                cases hpart
            | some w =>
                rw [hother, Option.rel_some_some] at hpart
                exact ⟨hv.child hget, w, hother, hw.child hother, hpart⟩
          have hback : ∀ name ∈ Fields.names others, name ∈ Fields.names fields := by
            intro name hname
            obtain ⟨field, hmem, rfl⟩ := List.mem_map.mp hname
            have hget : (Value.obj others).child? (.key field.1) = some field.2 :=
              Fields.get?_of_mem hothers hmem
            have hpart := h.child (.key field.1)
            rw [hget] at hpart
            cases hown : (Value.obj fields).child? (.key field.1) with
            | none =>
                rw [hown] at hpart
                cases hpart
            | some v => exact List.mem_map.mpr ⟨_, Fields.mem_of_get? hown, rfl⟩
          have hforth : ∀ name ∈ Fields.names fields, name ∈ Fields.names others := by
            intro name hname
            obtain ⟨field, hmem, rfl⟩ := List.mem_map.mp hname
            obtain ⟨-, w, hget, -⟩ := hfield field hmem
            exact List.mem_map.mpr ⟨_, Fields.mem_of_get? hget, rfl⟩
          -- the names are the same, and none is repeated, so there are equally many fields
          have hperm : (Fields.names fields).Perm (Fields.names others) :=
            (List.perm_ext_iff_of_nodup hnames hothers).mpr fun name =>
              ⟨hforth name, hback name⟩
          have hlength : fields.length = others.length := by
            simpa [Fields.names] using hperm.length_eq
          rw [same, hlength, beq_self_eq_true, Bool.true_and]
          exact sameFields_of_sameShape fields others hfield
      | _ => cases h.kind
  | .bool _, _, hv, _, _ => by
      rcases hv.kinds [] _ rfl with h | h | h <;> cases h
  | .int _, _, hv, _, _ => by
      rcases hv.kinds [] _ rfl with h | h | h <;> cases h
  | .float _, _, hv, _, _ => by
      rcases hv.kinds [] _ rfl with h | h | h <;> cases h
  | .str _, _, hv, _, _ => by
      rcases hv.kinds [] _ rfl with h | h | h <;> cases h

theorem sameItems_of_sameShape :
    ∀ items others : List Value, Valid (.arr items) → Valid (.arr others) →
      SameShape (.arr items) (.arr others) → sameItems items others = true
  | [], [], _, _, _ => rfl
  | [], w :: others, _, _, h => by
      cases h.child (.item 0)
  | v :: items, [], _, _, h => by
      cases h.child (.item 0)
  | v :: items, w :: others, hv, hw, h => by
      have hhead : SameShape v w := Option.rel_some_some.mp (h.child (.item 0))
      have htail : SameShape (.arr items) (.arr others) := by
        intro p
        cases p with
        | nil => rfl
        | cons s p =>
            cases s with
            | key name => rfl
            | item i => exact h (.item (i + 1) :: p)
      have hrest : ∀ {u : Value} {us : List Value}, Valid (.arr (u :: us)) → Valid (.arr us) := by
        intro u us hus
        refine ⟨hus.proper.2, fun p k hk => ?_⟩
        cases p with
        | nil => exact hus.kinds [] k hk
        | cons s p =>
            cases s with
            | key name => cases hk
            | item i => exact hus.kinds (.item (i + 1) :: p) k hk
      rw [sameItems, same_of_sameShape v w (hv.child (s := .item 0) rfl)
        (hw.child (s := .item 0) rfl) hhead, Bool.true_and]
      exact sameItems_of_sameShape items others (hrest hv) (hrest hw) htail

theorem sameFields_of_sameShape :
    ∀ (fields : List (Text × Value)) (others : Fields),
      (∀ field ∈ fields, Valid field.2 ∧
        ∃ w, others.get? field.1 = some w ∧ Valid w ∧ SameShape field.2 w) →
      sameFields fields others = true
  | [], _, _ => rfl
  | (name, v) :: fields, others, h => by
      obtain ⟨hv, w, hget, hw, hsame⟩ := h (name, v) List.mem_cons_self
      rw [sameFields, hget]
      dsimp only
      rw [same_of_sameShape v w hv hw hsame, Bool.true_and]
      exact sameFields_of_sameShape fields others fun field hmem =>
        h field (List.mem_cons_of_mem _ hmem)

end

end KeyTree

end Workflow
