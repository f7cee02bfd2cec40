import Workflow.Proofs.ProperValues
import Workflow.State.Lookup

/-!
# Paths through owners

A scope path is read as a sequence of owners: a Map state, or a Parallel state with one of its
branches.  `OwnerPath` is that reading as a relation; search by path decides it.  Only names and
branch indexes occur on such a path, so every scope is addressed by one plain path, in which the
branch indexes are integers.
-/

namespace Workflow

namespace Segment

/-- Only names and branch indexes lead anywhere. -/
def Leads (s : Segment) : Prop := s.name?.isSome = true ∨ s.index?.isSome = true

/-- The form of a segment in the paths that a visit reports: branch indexes are integers. -/
def plain (s : Segment) : Segment :=
  match s.index? with
  | some i => .index i
  | none => s

@[simp] theorem plain_name
    (id : Text) :
    (name id).plain = name id := by
  rfl

@[simp] theorem plain_index
    (i : Int) :
    (index i).plain = index i := by
  rfl

theorem plain_of_index?
    {s : Segment} {i : Int} (h : s.index? = some i) :
    s.plain = index i := by
  simp [plain, h]

theorem leads_of_index?
    {s : Segment} {i : Int} (h : s.index? = some i) :
    s.Leads := by
  refine Or.inr ?_
  rw [h]
  rfl

/-- A segment with an index has no name. -/
theorem name?_eq_none_of_index?
    {s : Segment} {i : Int} (h : s.index? = some i) :
    s.name? = none := by
  cases s with
  | name id => cases h
  | index n => rfl
  | other v => rfl

/-- The segments that lead anywhere; a truth value counts as a branch index. -/
theorem leads_cases
    {s : Segment} (hs : s.Leads) :
    (∃ id, s = name id) ∨ (∃ n, s = index n) ∨
      (∃ b, s = other (.bool b)) ∨ ∃ n, s = other (.int n) := by
  cases s with
  | name id => exact Or.inl ⟨id, rfl⟩
  | index n => exact Or.inr (Or.inl ⟨n, rfl⟩)
  | other v =>
      have hindex : v.index?.isSome = true := by
        rcases hs with hname | hindex
        · cases hname
        · exact hindex
      cases v with
      | bool b => exact Or.inr (Or.inr (Or.inl ⟨b, rfl⟩))
      | int n => exact Or.inr (Or.inr (Or.inr ⟨n, rfl⟩))
      | _ => simp [Value.index?] at hindex

theorem isKey_of_leads
    {s : Segment} (hs : s.Leads) :
    s.isKey = true := by
  rcases leads_cases hs with ⟨id, rfl⟩ | ⟨n, rfl⟩ | ⟨b, rfl⟩ | ⟨n, rfl⟩ <;> rfl

theorem same_self
    {s : Segment} (hs : s.Leads) :
    s.same s = true := by
  rcases leads_cases hs with ⟨id, rfl⟩ | ⟨n, rfl⟩ | ⟨b, rfl⟩ | ⟨n, rfl⟩ <;>
    simp [same, toValue, Value.same, Value.sameLeaf, Value.index?]

/-- A segment addresses what its plain form addresses, and nothing else does. -/
theorem same_iff
    {s t : Segment}
    (hs : s.Leads) (hplain : s.plain = s) (ht : t.Leads) :
    s.same t = true ↔ s = t.plain := by
  rcases leads_cases hs with ⟨id, rfl⟩ | ⟨n, rfl⟩ | ⟨b, rfl⟩ | ⟨n, rfl⟩
  · rcases leads_cases ht with ⟨id', rfl⟩ | ⟨m, rfl⟩ | ⟨b, rfl⟩ | ⟨m, rfl⟩ <;>
      simp [same, plain, index?, toValue, Value.same, Value.sameLeaf, Value.index?]
  · rcases leads_cases ht with ⟨id', rfl⟩ | ⟨m, rfl⟩ | ⟨b, rfl⟩ | ⟨m, rfl⟩ <;>
      simp [same, plain, index?, toValue, Value.same, Value.sameLeaf, Value.index?]
  · cases hplain
  · cases hplain

end Segment

namespace Path

/-- Every segment is a name or a branch index. -/
def Leads (p : Path) : Prop := ∀ s ∈ p, s.Leads

/-- The form of a path in which branch indexes are integers. -/
def plain (p : Path) : Path := p.map Segment.plain

/-- The number of owners on a scope path. -/
def owners (p : Path) : Nat := p.countP fun s => s.name?.isSome

@[simp] theorem plain_nil :
    plain [] = [] := by
  rfl

@[simp] theorem plain_cons
    (s : Segment) (p : Path) :
    plain (s :: p) = s.plain :: plain p := by
  rfl

@[simp] theorem plain_append
    (p q : Path) :
    plain (p ++ q) = plain p ++ plain q := by
  simp [plain]

@[simp] theorem owners_nil :
    owners [] = 0 := by
  rfl

@[simp] theorem owners_name
    (id : Text) (p : Path) :
    owners (.name id :: p) = owners p + 1 := by
  simp [owners, Segment.name?]

theorem owners_index
    {s : Segment} {i : Int} (h : s.index? = some i) (p : Path) :
    owners (s :: p) = owners p := by
  simp [owners, Segment.name?_eq_none_of_index? h]

theorem leads_nil : Leads [] := by
  intro s hs
  cases hs

theorem leads_cons
    {s : Segment} {p : Path} :
    Leads (s :: p) ↔ s.Leads ∧ Leads p := by
  simp [Leads]

theorem leads_append
    {p q : Path} :
    Leads (p ++ q) ↔ Leads p ∧ Leads q := by
  simp [Leads, or_imp, forall_and]

theorem leads_concat
    {p : Path} {s : Segment} (hp : p.Leads) (hs : s.Leads) :
    Leads (p ++ [s]) :=
  leads_append.mpr ⟨hp, leads_cons.mpr ⟨hs, leads_nil⟩⟩

/-- A path addresses what its plain form addresses, and nothing else does. -/
theorem same_iff :
    ∀ {p q : Path}, p.Leads → p.plain = p → q.Leads → (same p q = true ↔ p = q.plain)
  | [], [], _, _, _ => by simp [same]
  | [], t :: q, _, _, _ => by simp [same]
  | s :: p, [], _, _, _ => by simp [same]
  | s :: p, t :: q, hp, hplain, hq => by
      rw [leads_cons] at hp hq
      simp only [plain_cons, List.cons.injEq] at hplain
      have hhead := Segment.same_iff hp.1 hplain.1 hq.1
      have htail := same_iff hp.2 hplain.2 hq.2
      simp [same, hhead, htail]

theorem same_self
    {p : Path} (hp : p.Leads) :
    same p p = true := by
  induction p with
  | nil => rfl
  | cons s p ih =>
      rw [leads_cons] at hp
      simp [same, Segment.same_self hp.1, ih hp.2]

end Path

/-- A scope path read as a sequence of owners, from a scope to a scope nested in it. -/
inductive OwnerPath : Value → Path → Value → Prop
  | here (scope : Value) :
      OwnerPath scope [] scope
  | map
      {scope : Value} {id : Text} {owner : Value} {rest : Path} {inner : Value}
      (howner : (State.declared? scope).bind (Fields.get? · id) = some owner)
      (hkind : State.kind? owner = some .map)
      (hrest : OwnerPath (State.processor owner) rest inner) :
      OwnerPath scope (.name id :: rest) inner
  | branch
      {scope : Value} {id : Text} {owner : Value} {scopes : List Value}
      {s : Segment} {i : Nat} {branch : Value} {rest : Path} {inner : Value}
      (howner : (State.declared? scope).bind (Fields.get? · id) = some owner)
      (hkind : State.kind? owner = some .parallel)
      (hscopes : State.branches? owner = some scopes)
      (hindex : s.index? = some (i : Int))
      (hbranch : scopes[i]? = some branch)
      (hrest : OwnerPath branch rest inner) :
      OwnerPath scope (.name id :: s :: rest) inner

namespace OwnerPath

/-- The search goes on from the scope that the beginning of a path leads to. -/
theorem ownedScope_append
    {scope middle : Value} {b : Path}
    (h : OwnerPath scope b middle) (c : Path) :
    ownedScope scope (b ++ c) = ownedScope middle c := by
  induction h with
  | here scope =>
      rfl
  | map howner hkind hrest ih =>
      rw [List.cons_append, ownedScope, howner]
      simp only [hkind, ih]
  | @branch scope id owner scopes s i branch rest inner howner hkind hscopes hindex hbranch
      hrest ih =>
      rw [List.cons_append, List.cons_append, ownedScope, howner]
      have hnonneg : ¬ (i : Int) < 0 := Int.not_lt.mpr (Int.natCast_nonneg i)
      simp only [hkind, hindex, hscopes, hnonneg, if_false, Int.toNat_natCast, hbranch, ih]

/-- The search along owners finds the scope at the end of an owner path. -/
theorem ownedScope_eq
    {scope inner : Value} {b : Path}
    (h : OwnerPath scope b inner) :
    ownedScope scope b = some inner := by
  rw [← List.append_nil b, h.ownedScope_append, ownedScope]

/-- Whatever the search along owners finds stands at the end of an owner path. -/
theorem of_ownedScope
    {scope inner : Value} {b : Path}
    (h : ownedScope scope b = some inner) :
    OwnerPath scope b inner := by
  fun_induction ownedScope scope b with
  | case1 scope =>
      cases h
      exact OwnerPath.here _
  | case3 scope id owner howner rest hkind ih =>
      exact OwnerPath.map howner hkind (ih h)
  | case5 scope id owner howner s rest hkind i scopes hscopes hindex hnonneg branch hbranch ih =>
      obtain ⟨n, rfl⟩ := Int.eq_ofNat_of_zero_le (Int.not_lt.mp hnonneg)
      exact OwnerPath.branch howner hkind hscopes hindex hbranch (ih h)
  | _ => cases h

/-- A path leads to one scope only. -/
theorem unique
    {scope inner other : Value} {b : Path}
    (h : OwnerPath scope b inner) (h' : OwnerPath scope b other) :
    inner = other := by
  have heq := h.ownedScope_eq.symm.trans h'.ownedScope_eq
  exact Option.some.inj heq

/-- Only names and branch indexes occur on an owner path. -/
theorem leads
    {scope inner : Value} {b : Path} (h : OwnerPath scope b inner) :
    b.Leads := by
  induction h with
  | here scope =>
      exact Path.leads_nil
  | map howner hkind hrest ih =>
      exact Path.leads_cons.mpr ⟨Or.inl rfl, ih⟩
  | branch howner hkind hscopes hindex hbranch hrest ih =>
      exact Path.leads_cons.mpr
        ⟨Or.inl rfl, Path.leads_cons.mpr ⟨Segment.leads_of_index? hindex, ih⟩⟩

/-- The plain form of a path leads to the same scope. -/
theorem plain
    {scope inner : Value} {b : Path} (h : OwnerPath scope b inner) :
    OwnerPath scope b.plain inner := by
  induction h with
  | here scope =>
      exact OwnerPath.here scope
  | map howner hkind hrest ih =>
      exact OwnerPath.map howner hkind ih
  | branch howner hkind hscopes hindex hbranch hrest ih =>
      rw [Path.plain_cons, Path.plain_cons, Segment.plain_of_index? hindex]
      exact OwnerPath.branch howner hkind hscopes rfl hbranch ih

/-- A state that owns nested scopes is proper in a proper scope. -/
theorem owner_proper
    {scope owner : Value} {id : Text} (hscope : scope.Proper)
    (howner : (State.declared? scope).bind (Fields.get? · id) = some owner) :
    owner.Proper := by
  obtain ⟨states, hstates, hget⟩ := Option.bind_eq_some_iff.mp howner
  exact (State.declared?_proper hscope hstates).2 _ (Fields.mem_of_get? hget)

/-- Everything nested in a proper scope is proper. -/
theorem proper
    {scope inner : Value} {b : Path} (h : OwnerPath scope b inner)
    (hscope : scope.Proper) :
    inner.Proper := by
  induction h with
  | here scope =>
      exact hscope
  | map howner hkind hrest ih =>
      exact ih (State.processor_proper (owner_proper hscope howner))
  | branch howner hkind hscopes hindex hbranch hrest ih =>
      have hproper := State.branches?_proper (owner_proper hscope howner) hscopes
      exact ih (hproper _ (List.mem_of_getElem? hbranch))

end OwnerPath

end Workflow
