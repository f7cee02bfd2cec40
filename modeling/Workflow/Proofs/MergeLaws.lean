import Workflow.Proofs.TreeEquality

/-!
# The laws of merging key trees

A tree that is laid over itself stays as it is.  Every path of the later tree is a path of a merge,
and a merge has no paths but those of its two parts; where the parts clash the earlier one loses
what stands below.

Compatible trees do not clash.  Up to the order of names their merge is commutative and associative,
it keeps all paths of both, and it is compatible with whatever both are compatible with.
-/

namespace Workflow

namespace KeyTree

open Value

mutual

/-- A proper tree that is laid over itself stays as it is. -/
theorem merge_self :
    ∀ v : Value, v.Proper → merge v v = v
  | .arr items, hv => by
      rw [merge, mergeItems_self items hv]
  | .obj fields, hv => by
      have hknown : (fields.filter fun field => !Fields.has fields field.1) = [] := by
        rw [List.filter_eq_nil_iff]
        intro field hfield
        have hname : field.1 ∈ Fields.names fields := List.mem_map_of_mem hfield
        rw [Fields.has_iff.mpr hname]
        exact Bool.false_ne_true
      have hfound : ∀ field ∈ fields, Fields.get? fields field.1 = some field.2 :=
        fun field hfield => Fields.get?_of_mem hv.1 hfield
      rw [merge, mergeFields_self fields fields hv.2 hfound, hknown, List.append_nil]
  | .null, _ => rfl
  | .bool _, _ => rfl
  | .int _, _ => rfl
  | .float _, _ => rfl
  | .str _, _ => rfl

theorem mergeItems_self :
    ∀ items : List Value, ItemsProper items → mergeItems items items = items
  | [], _ => rfl
  | v :: items, h => by
      rw [mergeItems, merge_self v h.1, mergeItems_self items h.2]

/-- Fields stay as they are under others of which each has its equal among them. -/
theorem mergeFields_self
    (others : Fields) :
    ∀ fields : List (Text × Value), FieldsProper fields →
      (∀ field ∈ fields, others.get? field.1 = some field.2) → mergeFields fields others = fields
  | [], _, _ => rfl
  | (name, v) :: fields, h, hfound => by
      rw [mergeFields, hfound (name, v) List.mem_cons_self]
      dsimp only
      rw [merge_self v h.1, mergeFields_self others fields h.2
        fun field hfield => hfound field (List.mem_cons_of_mem _ hfield)]

end

/-- Every path of the later tree is a path of a merge, to a value of the same kind. -/
theorem kindAlong?_merge_of_later
    {v w : Value} {p : List TreeStep} {k : ValueKind} (h : w.kindAlong? p = some k) :
    (merge v w).kindAlong? p = some k := by
  induction p generalizing v w with
  | nil =>
      rw [kindAlong?_nil, kind_merge]
      exact h
  | cons s p ih =>
      by_cases hkind : v.kind = w.kind
      · rw [kindAlong?_cons, child?_merge hkind]
        obtain ⟨b, hb, hp⟩ := Option.bind_eq_some_iff.mp h
        rw [hb]
        cases v.child? s with
        | none => exact hp
        | some a => exact ih hp
      · rw [merge_of_kind_ne hkind]
        exact h

section Compatible

variable {u v w : Value}

/-- Compatible trees have a merge of the same shape in either order. -/
theorem sameShape_merge_comm
    (h : Compatible v w) :
    SameShape (merge v w) (merge w v) := by
  intro p
  refine Option.ext fun k => ?_
  rw [kindAlong?_merge_iff h, kindAlong?_merge_iff h.symm, or_comm]

/-- Compatible trees have a merge of the same shape whichever two of them are merged first. -/
theorem sameShape_merge_assoc
    (huv : Compatible u v) (huw : Compatible u w) (hvw : Compatible v w) :
    SameShape (merge (merge u v) w) (merge u (merge v w)) := by
  have hlater : Compatible u (merge v w) := (compatible_merge huv.symm huw.symm).symm
  intro p
  refine Option.ext fun k => ?_
  rw [kindAlong?_merge_iff (compatible_merge huw hvw), kindAlong?_merge_iff huv,
    kindAlong?_merge_iff hlater, kindAlong?_merge_iff hvw, or_assoc]

end Compatible

/-- The laws of merging key trees.  Merging gives a key tree, and a tree that is merged with itself
stays as it is; every path of the later tree is a path of the merge, and every path of the merge is
one of its parts.  The merge of compatible trees has all paths of both and is the same in either
order; a third tree that is compatible with both is compatible with their merge, and it makes no
difference which two of the three are merged first. -/
theorem merge_laws
    {a b c : Value} (ha : Valid a) (hb : Valid b) (hc : Valid c) :
    Valid (merge a b) ∧
      merge a a = a ∧
      (∀ p k, b.kindAlong? p = some k → (merge a b).kindAlong? p = some k) ∧
      (∀ p k, (merge a b).kindAlong? p = some k →
        a.kindAlong? p = some k ∨ b.kindAlong? p = some k) ∧
      (Compatible a b →
        (∀ p k, a.kindAlong? p = some k → (merge a b).kindAlong? p = some k) ∧
        (merge a b).same (merge b a) = true ∧
        (Compatible a c → Compatible b c →
          Compatible (merge a b) c ∧
          (merge (merge a b) c).same (merge a (merge b c)) = true)) := by
  have hab := ha.merge hb
  refine ⟨hab, merge_self a ha.proper, fun p k => kindAlong?_merge_of_later,
    fun p k => kindAlong?_of_merge, fun hcompatible => ⟨?_, ?_, ?_⟩⟩
  · intro p k hk
    exact (kindAlong?_merge_iff hcompatible).mpr (Or.inl hk)
  · exact same_of_sameShape _ _ hab (hb.merge ha) (sameShape_merge_comm hcompatible)
  · intro hac hbc
    refine ⟨compatible_merge hac hbc, ?_⟩
    exact same_of_sameShape _ _ (hab.merge hc) (ha.merge (hb.merge hc))
      (sameShape_merge_assoc hcompatible hac hbc)

/-- A tree with an object and an array below its names. -/
def earlierTree : Value :=
  .obj [("x", .obj [("p", .null)]), ("y", .arr [.obj [], .null])]

/-- A tree that overlaps with it in both of them. -/
def laterTree : Value :=
  .obj [("y", .arr [.obj [("q", .null)]]), ("z", .null), ("x", .obj [("r", .arr [])])]

/-- A tree that overlaps with the other two. -/
def thirdTree : Value :=
  .obj [("z", .null), ("y", .arr [.obj [], .null, .arr [.null]])]

/-- The order in which these trees are merged shows in the order of names only. -/
theorem merge_laws_overlapping :
    Valid earlierTree ∧ Valid laterTree ∧ Valid thirdTree ∧
      merge earlierTree laterTree ≠ merge laterTree earlierTree ∧
      (merge earlierTree laterTree).same (merge laterTree earlierTree) = true ∧
      Compatible (merge earlierTree laterTree) thirdTree ∧
      (merge (merge earlierTree laterTree) thirdTree).same
        (merge earlierTree (merge laterTree thirdTree)) = true := by
  have ha : Valid earlierTree := valid_shape (v := earlierTree) (by decide)
  have hb : Valid laterTree := valid_shape (v := laterTree) (by decide)
  have hc : Valid thirdTree := valid_shape (v := thirdTree) (by decide)
  obtain ⟨-, -, -, -, hcompatible⟩ := merge_laws ha hb hc
  obtain ⟨-, hcomm, hassoc⟩ := hcompatible (compatible_of_agree rfl)
  exact ⟨ha, hb, hc, by decide, hcomm,
    hassoc (compatible_of_agree rfl) (compatible_of_agree rfl)⟩

/-- Where trees clash the later one stays, so there the order matters. -/
example :
    merge (.obj [("x", .obj [("p", .null)])]) (.obj [("x", .arr [])]) = .obj [("x", .arr [])] :=
  rfl

end KeyTree

end Workflow
