import Workflow.Proofs.KeyTrees
import Workflow.Value.Kind

/-!
# Key trees by the kinds along their paths

A path leads into a tree by names and positions.  What a merge holds along a path is decided step by
step: two objects or two arrays are merged part by part, and of values of different kinds the later
one stays.

Trees that agree in kind wherever both go are compatible.  Merged, they hold exactly what one of
them holds, so the order in which compatible trees are merged makes no difference.  Whether trees
are compatible can be checked part by part.
-/

namespace Workflow

/-- One step into a tree: a name of an object, or a position in an array. -/
inductive TreeStep where
  | key (name : Text)
  | item (i : Nat)

namespace Value

/-- The part of a value that a step leads to. -/
def child? : Value → TreeStep → Option Value
  | .obj fields, .key name => Fields.get? fields name
  | .arr items, .item i => items[i]?
  | _, _ => none

/-- The kind of the value that a path leads to. -/
def kindAlong? : Value → List TreeStep → Option ValueKind
  | v, [] => some v.kind
  | v, s :: p => (v.child? s).bind fun w => kindAlong? w p

/-- The same kinds stand along the same paths. -/
def SameShape (v w : Value) : Prop := ∀ p, v.kindAlong? p = w.kindAlong? p

/-- No path leads to different kinds. -/
def Compatible (v w : Value) : Prop :=
  ∀ p k l, v.kindAlong? p = some k → w.kindAlong? p = some l → k = l

@[simp] theorem kindAlong?_nil
    (v : Value) :
    v.kindAlong? [] = some v.kind := by
  rfl

theorem kindAlong?_cons
    (v : Value) (s : TreeStep) (p : List TreeStep) :
    v.kindAlong? (s :: p) = (v.child? s).bind fun w => w.kindAlong? p := by
  rfl

namespace Compatible

variable {u v w : Value}

theorem symm
    (h : Compatible v w) :
    Compatible w v :=
  fun p k l hk hl => (h p l k hl hk).symm

theorem kind
    (h : Compatible v w) :
    v.kind = w.kind :=
  h [] _ _ rfl rfl

/-- Parts of compatible trees under the same step are compatible. -/
theorem child
    (h : Compatible v w) {s : TreeStep} {a b : Value}
    (ha : v.child? s = some a) (hb : w.child? s = some b) :
    Compatible a b := by
  intro p k l hk hl
  refine h (s :: p) k l ?_ ?_
  · rw [kindAlong?_cons, ha]
    exact hk
  · rw [kindAlong?_cons, hb]
    exact hl

end Compatible

namespace SameShape

variable {u v w : Value}

theorem refl
    (v : Value) :
    SameShape v v :=
  fun _ => rfl

theorem kind
    (h : SameShape v w) :
    v.kind = w.kind :=
  Option.some.inj (h [])

/-- Trees of the same shape have parts of the same shape under the same steps. -/
theorem child
    (h : SameShape v w) (s : TreeStep) :
    Option.Rel SameShape (v.child? s) (w.child? s) := by
  have hrest : ∀ p, ((v.child? s).bind fun a => a.kindAlong? p) =
      (w.child? s).bind fun b => b.kindAlong? p := fun p => h (s :: p)
  have hsome := hrest []
  cases ha : v.child? s with
  | none =>
      cases hb : w.child? s with
      | none => exact Option.Rel.none
      | some b =>
          rw [ha, hb] at hsome
          cases hsome
  | some a =>
      cases hb : w.child? s with
      | none =>
          rw [ha, hb] at hsome
          cases hsome
      | some b =>
          refine Option.Rel.some fun p => ?_
          have hp := hrest p
          rw [ha, hb] at hp
          exact hp

end SameShape

end Value

namespace Fields

theorem get?_cons
    (other : Text) (v : Value) (fields : Fields) (name : Text) :
    get? ((other, v) :: fields) name = if other = name then some v else get? fields name := by
  unfold get?
  by_cases hname : other = name <;> simp [hname]

theorem get?_append
    (fields others : Fields) (name : Text) :
    get? (fields ++ others) name = (get? fields name).or (get? others name) := by
  unfold get?
  rw [List.find?_append]
  cases fields.find? fun field => field.1 == name with
  | none => rfl
  | some field => rfl

/-- A look-up among the fields whose names are not taken. -/
theorem get?_filter_new
    {fields : Fields} {name : Text} (h : get? fields name = none) (others : Fields) :
    get? (others.filter fun field => !has fields field.1) name = get? others name := by
  have hnew : has fields name = false := by
    unfold get? at h
    rw [Option.map_eq_none_iff, List.find?_eq_none] at h
    rw [has, List.any_eq_false]
    exact h
  unfold get?
  congr 1
  rw [List.find?_filter]
  congr 1
  funext field
  by_cases hname : field.1 = name
  · simp [hname, hnew]
  · simp [hname]

end Fields

namespace KeyTree

open Value

/-- A field of merged fields that has its equal among the others is merged with it. -/
theorem get?_mergeFields
    (others : Fields) (name : Text) :
    ∀ base : Fields, Fields.get? (mergeFields base others) name =
      (base.get? name).map fun v =>
        match others.get? name with
        | some w => merge v w
        | none => v
  | [] => rfl
  | (other, v) :: base => by
      rw [mergeFields, Fields.get?_cons, Fields.get?_cons]
      by_cases hname : other = name
      · rw [if_pos hname, if_pos hname, hname]
        rfl
      · rw [if_neg hname, if_neg hname]
        exact get?_mergeFields others name base

/-- Arrays are merged position by position. -/
theorem getElem?_mergeItems :
    ∀ (base others : List Value) (i : Nat),
      (mergeItems base others)[i]? = Option.merge merge base[i]? others[i]?
  | [], others, i => by
      rw [mergeItems, List.getElem?_nil]
      cases others[i]? <;> rfl
  | v :: base, [], i => by
      rw [mergeItems, List.getElem?_nil]
      cases (v :: base)[i]? <;> rfl
  | v :: base, w :: others, 0 => by
      rw [mergeItems]
      rfl
  | v :: base, w :: others, i + 1 => by
      rw [mergeItems, List.getElem?_cons_succ, List.getElem?_cons_succ, List.getElem?_cons_succ]
      exact getElem?_mergeItems base others i

/-- A merge is of the kind of the later tree. -/
theorem kind_merge
    (v w : Value) :
    (merge v w).kind = w.kind := by
  cases v with
  | obj base =>
      cases w <;> rfl
  | arr base =>
      cases w <;> rfl
  | _ => rfl

/-- Of trees of different kinds the later one stays. -/
theorem merge_of_kind_ne
    {v w : Value} (h : v.kind ≠ w.kind) :
    merge v w = w := by
  cases v with
  | obj base =>
      cases w with
      | obj others => exact absurd rfl h
      | _ => rfl
  | arr base =>
      cases w with
      | arr others => exact absurd rfl h
      | _ => rfl
  | _ => rfl

/-- Trees of the same kind are merged part by part. -/
theorem child?_merge
    {v w : Value} (h : v.kind = w.kind) (s : TreeStep) :
    (merge v w).child? s = Option.merge merge (v.child? s) (w.child? s) := by
  cases v with
  | obj base =>
      cases w with
      | obj others =>
          cases s with
          | item i => rfl
          | key name =>
              rw [merge]
              simp only [child?, Fields.get?_append, get?_mergeFields]
              cases hbase : Fields.get? base name with
              | none =>
                  rw [Fields.get?_filter_new hbase]
                  cases Fields.get? others name <;> rfl
              | some v =>
                  cases Fields.get? others name <;> rfl
      | _ => cases h
  | arr base =>
      cases w with
      | arr others =>
          cases s with
          | key name => rfl
          | item i => exact getElem?_mergeItems base others i
      | _ => cases h
  | _ =>
      -- values without parts
      cases w with
      | obj others => cases h
      | arr others => cases h
      | _ => cases s <;> rfl

/-- Merging respects shapes. -/
theorem sameShape_merge
    {v v' w w' : Value} (hv : SameShape v v') (hw : SameShape w w') :
    SameShape (merge v w) (merge v' w') := by
  intro p
  induction p generalizing v v' w w' with
  | nil =>
      rw [kindAlong?_nil, kindAlong?_nil, kind_merge, kind_merge, hw.kind]
  | cons s p ih =>
      by_cases hkind : v.kind = w.kind
      · have hkind' : v'.kind = w'.kind := by
          rw [← hv.kind, ← hw.kind, hkind]
        rw [kindAlong?_cons, kindAlong?_cons, child?_merge hkind, child?_merge hkind']
        have hpart := hv.child s
        have hother := hw.child s
        revert hpart hother
        generalize v.child? s = a, v'.child? s = a', w.child? s = b, w'.child? s = b'
        intro hpart hother
        cases hpart with
        | none =>
            cases hother with
            | none => rfl
            | some hb => exact hb p
        | some ha =>
            cases hother with
            | none => exact ha p
            | some hb => exact ih ha hb
      · have hkind' : v'.kind ≠ w'.kind := by
          rw [← hv.kind, ← hw.kind]
          exact hkind
        rw [merge_of_kind_ne hkind, merge_of_kind_ne hkind']
        exact hw (s :: p)

/-- A path of a merge is a path of one of its parts. -/
theorem kindAlong?_of_merge
    {v w : Value} {p : List TreeStep} {k : ValueKind}
    (h : (merge v w).kindAlong? p = some k) :
    v.kindAlong? p = some k ∨ w.kindAlong? p = some k := by
  induction p generalizing v w with
  | nil =>
      rw [kindAlong?_nil, kind_merge] at h
      exact Or.inr h
  | cons s p ih =>
      by_cases hkind : v.kind = w.kind
      · rw [kindAlong?_cons, child?_merge hkind] at h
        rw [kindAlong?_cons, kindAlong?_cons]
        revert h
        generalize v.child? s = a, w.child? s = b
        intro h
        cases a with
        | none =>
            cases b with
            | none => cases h
            | some b => exact Or.inr h
        | some a =>
            cases b with
            | none => exact Or.inl h
            | some b => exact ih h
      · rw [merge_of_kind_ne hkind] at h
        exact Or.inr h

/-- Merged, compatible trees hold what one of them holds. -/
theorem kindAlong?_merge_iff
    {v w : Value} (h : Compatible v w) {p : List TreeStep} {k : ValueKind} :
    (merge v w).kindAlong? p = some k ↔ v.kindAlong? p = some k ∨ w.kindAlong? p = some k := by
  refine ⟨kindAlong?_of_merge, ?_⟩
  induction p generalizing v w with
  | nil =>
      rw [kindAlong?_nil, kindAlong?_nil, kindAlong?_nil, kind_merge, h.kind, or_self]
      exact id
  | cons s p ih =>
      rw [kindAlong?_cons, kindAlong?_cons, kindAlong?_cons, child?_merge h.kind]
      -- compatible trees have compatible parts, so the induction goes on where both have a part
      have hparts := fun a b => h.child (s := s) (a := a) (b := b)
      revert hparts
      generalize v.child? s = a, w.child? s = b
      intro hparts
      cases a with
      | none =>
          cases b with
          | none => simp
          | some b => simp [Option.merge]
      | some a =>
          cases b with
          | none => simp [Option.merge]
          | some b => exact ih (hparts a b rfl rfl)

/-- The tree without names is compatible with every object. -/
theorem compatible_empty
    {v : Value} (hv : v.isObject = true) :
    Compatible empty v := by
  intro p k l hk hl
  cases v with
  | obj fields =>
      cases p with
      | nil =>
          cases hk
          cases hl
          rfl
      | cons s p => cases s <;> cases hk
  | _ => cases hv

theorem compatible_merge
    {u v w : Value} (hv : Compatible v u) (hw : Compatible w u) :
    Compatible (merge v w) u := by
  intro p k l hk hl
  rcases kindAlong?_of_merge hk with hk | hk
  · exact hv p k l hk hl
  · exact hw p k l hk hl

section Fold

variable {α : Type} {f : α → Value}

/-- Compatible trees laid over each other hold what one of them holds. -/
theorem kindAlong?_foldl_merge_iff
    {p : List TreeStep} {k : ValueKind} (xs : List α) :
    ∀ {tree : Value}, (∀ x ∈ xs, Compatible tree (f x)) →
      (∀ x ∈ xs, ∀ y ∈ xs, Compatible (f x) (f y)) →
      ((xs.foldl (fun tree x => merge tree (f x)) tree).kindAlong? p = some k ↔
        tree.kindAlong? p = some k ∨ ∃ x ∈ xs, (f x).kindAlong? p = some k) := by
  induction xs with
  | nil => simp
  | cons x xs ih =>
      intro tree htree hxs
      have hx := htree x List.mem_cons_self
      have hrest : ∀ y ∈ xs, Compatible (merge tree (f x)) (f y) := fun y hy =>
        compatible_merge (htree y (List.mem_cons_of_mem _ hy))
          (hxs x List.mem_cons_self y (List.mem_cons_of_mem _ hy))
      rw [List.foldl_cons,
        ih hrest fun y hy z hz =>
          hxs y (List.mem_cons_of_mem _ hy) z (List.mem_cons_of_mem _ hz),
        kindAlong?_merge_iff hx]
      simp [or_assoc]

/-- The order in which compatible trees are laid over each other makes no difference. -/
theorem sameShape_foldl_merge_of_perm
    {xs ys : List α} (hperm : xs.Perm ys) {tree : Value}
    (htree : ∀ x ∈ xs, Compatible tree (f x))
    (hxs : ∀ x ∈ xs, ∀ y ∈ xs, Compatible (f x) (f y)) :
    SameShape (xs.foldl (fun tree x => merge tree (f x)) tree)
      (ys.foldl (fun tree x => merge tree (f x)) tree) := by
  intro p
  refine Option.ext fun k => ?_
  rw [kindAlong?_foldl_merge_iff xs htree hxs,
    kindAlong?_foldl_merge_iff ys (fun y hy => htree y (hperm.mem_iff.mpr hy))
      fun y hy z hz => hxs y (hperm.mem_iff.mpr hy) z (hperm.mem_iff.mpr hz)]
  simp [hperm.mem_iff]

end Fold

/-! ## Checking compatibility -/

mutual

/-- Whether two trees are of the same kinds wherever both go. -/
def agree : Value → Value → Bool
  | .arr items, w =>
    match w with
    | .arr others => agreeItems items others
    | w => w.kind == .arr
  | .obj fields, w =>
    match w with
    | .obj others => agreeFields fields others
    | w => w.kind == .obj
  | v, w => v.kind == w.kind

/-- Whether the items at the same positions agree. -/
def agreeItems : List Value → List Value → Bool
  | [], _ => true
  | v :: items, others =>
    match others with
    | [] => true
    | w :: others => agree v w && agreeItems items others

/-- Whether the fields of the same name agree. -/
def agreeFields : List (Text × Value) → Fields → Bool
  | [], _ => true
  | (name, v) :: fields, others =>
    (match others.get? name with | some w => agree v w | none => true) && agreeFields fields others

end

theorem kind_of_agree
    {v w : Value} (h : agree v w = true) :
    v.kind = w.kind := by
  cases v with
  | arr items =>
      cases w with
      | arr others => rfl
      | _ => cases h
  | obj fields =>
      cases w with
      | obj others => rfl
      | _ => cases h
  | _ => exact beq_iff_eq.mp h

theorem agree_of_agreeItems :
    ∀ {items others : List Value}, agreeItems items others = true → ∀ {i : Nat} {v w : Value},
      items[i]? = some v → others[i]? = some w → agree v w = true
  | [], _, _, _, _, _, hv, _ => by cases hv
  | _ :: _, [], _, _, _, _, _, hw => by cases hw
  | v :: items, w :: others, h, i, _, _, hv, hw => by
      rw [agreeItems, Bool.and_eq_true] at h
      cases i with
      | zero =>
          cases hv
          cases hw
          exact h.1
      | succ i => exact agree_of_agreeItems h.2 hv hw

theorem agree_of_agreeFields
    {others : Fields} :
    ∀ {fields : Fields}, agreeFields fields others = true → ∀ {name : Text} {v w : Value},
      fields.get? name = some v → others.get? name = some w → agree v w = true
  | [], _, _, _, _, hv, _ => by cases hv
  | (other, u) :: fields, h, name, v, w, hv, hw => by
      rw [agreeFields, Bool.and_eq_true] at h
      rw [Fields.get?_cons] at hv
      split at hv
      · next hname =>
          cases hv
          rw [hname, hw] at h
          exact h.1
      · exact agree_of_agreeFields h.2 hv hw

/-- Parts of agreeing trees under the same step agree. -/
theorem agree_child
    {v w : Value} (h : agree v w = true) {s : TreeStep} {a b : Value}
    (ha : v.child? s = some a) (hb : w.child? s = some b) :
    agree a b = true := by
  cases v with
  | arr items =>
      cases w with
      | arr others =>
          cases s with
          | key name => cases ha
          | item i => exact agree_of_agreeItems h ha hb
      | _ => cases h
  | obj fields =>
      cases w with
      | obj others =>
          cases s with
          | key name => exact agree_of_agreeFields h ha hb
          | item i => cases ha
      | _ => cases h
  | _ => cases s <;> cases ha

/-- Trees that agree are compatible. -/
theorem compatible_of_agree
    {v w : Value} (h : agree v w = true) :
    Compatible v w := by
  intro p
  induction p generalizing v w with
  | nil =>
      intro k l hk hl
      cases hk
      cases hl
      exact kind_of_agree h
  | cons s p ih =>
      intro k l hk hl
      obtain ⟨a, ha, hk⟩ := Option.bind_eq_some_iff.mp hk
      obtain ⟨b, hb, hl⟩ := Option.bind_eq_some_iff.mp hl
      exact ih (agree_child h ha hb) k l hk hl

end KeyTree

end Workflow
