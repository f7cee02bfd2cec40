import Workflow.Proofs.EnclosingOwners

/-!
# What a path leads to

A path of names and indexes either can be read as owners on the way to a scope, or it goes astray:
at some place on it stands a segment at which no reading goes on.  `OwnerPath` is the one, `Astray`
is the other, and a search by path decides between them.  So the outcome of a search is described
on both sides, by what stands at the path when there is a state, and by the place where the path
goes wrong when there is none.
-/

namespace Workflow

/-- A scope path that leads nowhere: what stands before its first segment without a meaning can be
read as owners. -/
inductive Astray : Value → Path → Prop
  /-- The scope declares no state under the segment, or the segment is no name at all. -/
  | undeclared
      {scope : Value} {s : Segment} {rest : Path}
      (hmissing : ∀ id, s = .name id → (State.declared? scope).bind (Fields.get? · id) = none) :
      Astray scope (s :: rest)
  /-- The state owns no scopes. -/
  | unowned
      {scope : Value} {id : Text} {owner : Value} {rest : Path}
      (howner : (State.declared? scope).bind (Fields.get? · id) = some owner)
      (hmap : State.kind? owner ≠ some .map)
      (hparallel : State.kind? owner ≠ some .parallel) :
      Astray scope (.name id :: rest)
  /-- The path names a Parallel state, but none of its branches. -/
  | unindexed
      {scope : Value} {id : Text} {owner : Value} {rest : Path}
      (howner : (State.declared? scope).bind (Fields.get? · id) = some owner)
      (hkind : State.kind? owner = some .parallel)
      (hindex : ∀ s ∈ rest.head?, s.index? = none) :
      Astray scope (.name id :: rest)
  /-- The Parallel state has no branch at the index. -/
  | outside
      {scope : Value} {id : Text} {owner : Value} {s : Segment} {i : Int} {rest : Path}
      (howner : (State.declared? scope).bind (Fields.get? · id) = some owner)
      (hkind : State.kind? owner = some .parallel)
      (hindex : s.index? = some i)
      (hbranch : ∀ scopes, State.branches? owner = some scopes →
        i < 0 ∨ (scopes.length : Int) ≤ i) :
      Astray scope (.name id :: s :: rest)
  | map
      {scope : Value} {id : Text} {owner : Value} {rest : Path}
      (howner : (State.declared? scope).bind (Fields.get? · id) = some owner)
      (hkind : State.kind? owner = some .map)
      (hrest : Astray (State.processor owner) rest) :
      Astray scope (.name id :: rest)
  | branch
      {scope : Value} {id : Text} {owner : Value} {scopes : List Value}
      {s : Segment} {i : Nat} {branch : Value} {rest : Path}
      (howner : (State.declared? scope).bind (Fields.get? · id) = some owner)
      (hkind : State.kind? owner = some .parallel)
      (hscopes : State.branches? owner = some scopes)
      (hindex : s.index? = some (i : Int))
      (hbranch : scopes[i]? = some branch)
      (hrest : Astray branch rest) :
      Astray scope (.name id :: s :: rest)

namespace Astray

/-- A path goes astray where the search along owners finds nothing. -/
theorem of_ownedScope
    {scope : Value} {b : Path} (h : ownedScope scope b = none) :
    Astray scope b := by
  fun_induction ownedScope scope b with
  | case1 scope => cases h
  | case2 scope id rest howner =>
      refine Astray.undeclared fun id' hname => ?_
      cases hname
      exact howner
  | case3 scope id owner howner rest hkind ih =>
      exact Astray.map howner hkind (ih h)
  | case4 scope id owner howner s rest hkind i scopes hscopes hindex hnegative =>
      exact Astray.outside howner hkind hindex fun _ _ => Or.inl hnegative
  | case5 scope id owner howner s rest hkind i scopes hscopes hindex hnonneg branch hbranch ih =>
      obtain ⟨n, rfl⟩ := Int.eq_ofNat_of_zero_le (Int.not_lt.mp hnonneg)
      exact Astray.branch howner hkind hscopes hindex hbranch (ih h)
  | case6 scope id owner howner s rest hkind i scopes hscopes hindex hnonneg hbranch =>
      refine Astray.outside howner hkind hindex fun scopes' hscopes' => Or.inr ?_
      rw [hscopes, Option.some.injEq] at hscopes'
      subst hscopes'
      have hlength := List.getElem?_eq_none_iff.mp hbranch
      omega
  | case7 scope id owner howner s rest hkind hnone =>
      -- either the segment is no index, or `Branches` is no array
      cases hindex : s.index? with
      | none =>
          refine Astray.unindexed howner hkind fun s' hs' => ?_
          cases hs'
          exact hindex
      | some i =>
          exact Astray.outside howner hkind hindex fun scopes hscopes =>
            (hnone i scopes hindex hscopes).elim
  | case8 scope id rest owner howner hmap hparallel =>
      by_cases hkind : State.kind? owner = some .parallel
      · refine Astray.unindexed howner hkind fun s hs => ?_
        obtain ⟨rest', rfl⟩ := List.head?_eq_some_iff.mp hs
        exact (hparallel s rest' hkind rfl).elim
      · exact Astray.unowned howner hmap hkind
  | case9 scope s rest hname =>
      exact Astray.undeclared fun id hid => (hname id hid).elim

/-- The search along owners finds nothing where a path goes astray. -/
theorem ownedScope_eq
    {scope : Value} {b : Path} (h : Astray scope b) :
    ownedScope scope b = none := by
  induction h with
  | @undeclared scope s rest hmissing =>
      cases s with
      | name id => rw [ownedScope, hmissing id rfl]
      | index i => rfl
      | other v => rfl
  | @unowned scope id owner rest howner hmap hparallel =>
      rw [ownedScope, howner]
      dsimp only
      split
      · next hkind => exact absurd hkind hmap
      · next hkind => exact absurd hkind hparallel
      · rfl
  | @unindexed scope id owner rest howner hkind hindex =>
      rw [ownedScope, howner]
      cases rest with
      | nil => simp only [hkind]
      | cons s rest => simp only [hkind, hindex s rfl]
  | @outside scope id owner s i rest howner hkind hindex hbranch =>
      rw [ownedScope, howner]
      simp only [hkind, hindex]
      cases hscopes : State.branches? owner with
      | none => rfl
      | some scopes =>
          dsimp only
          split
          · rfl
          · next hnonneg =>
              have hlength := (hbranch scopes hscopes).resolve_left hnonneg
              have hmissing : scopes[i.toNat]? = none := by
                rw [List.getElem?_eq_none_iff]
                omega
              rw [hmissing]
  | map howner hkind hrest ih =>
      rw [ownedScope, howner]
      simp only [hkind, ih]
  | @branch scope id owner scopes s i branch rest howner hkind hscopes hindex hbranch hrest ih =>
      have hnonneg : ¬ (i : Int) < 0 := Int.not_lt.mpr (Int.natCast_nonneg i)
      rw [ownedScope, howner]
      simp only [hkind, hindex, hscopes, hnonneg, if_false, Int.toNat_natCast, hbranch, ih]

/-- A path goes astray exactly if it cannot be read as owners. -/
theorem iff_not_ownerPath
    {scope : Value} {b : Path} :
    Astray scope b ↔ ∀ inner, ¬ OwnerPath scope b inner := by
  constructor
  · intro h inner hinner
    have hfound := hinner.ownedScope_eq
    rw [h.ownedScope_eq] at hfound
    cases hfound
  · intro h
    refine of_ownedScope (Option.eq_none_iff_forall_ne_some.mpr fun inner hinner => ?_)
    exact h inner (OwnerPath.of_ownedScope hinner)

end Astray

/-- Search by path finds nothing where the path is too long, where it does not end in a name, where
the path in front of this name goes astray, and where the scope at its end does not declare the
name. -/
theorem findPath_eq_none_iff
    {root : Value} {p : Path} :
    findPath root p = none ↔
      maxPathLength < p.length ∨ (∀ b id, p ≠ b ++ [.name id]) ∨
        ∃ b id, p = b ++ [.name id] ∧ (Astray root b ∨
          ∃ scope, OwnerPath root b scope ∧
            (State.declared? scope).bind (Fields.get? · id) = none) := by
  constructor
  · intro h
    by_cases hlong : maxPathLength < p.length
    · exact Or.inl hlong
    by_cases hname : ∀ b id, p ≠ b ++ [.name id]
    · exact Or.inr (Or.inl hname)
    push Not at hname
    obtain ⟨b, id, rfl⟩ := hname
    refine Or.inr (Or.inr ⟨b, id, rfl, ?_⟩)
    by_cases hastray : Astray root b
    · exact Or.inl hastray
    rw [Astray.iff_not_ownerPath] at hastray
    push Not at hastray
    obtain ⟨scope, hscope⟩ := hastray
    refine Or.inr ⟨scope, hscope, Option.eq_none_iff_forall_ne_some.mpr fun state hstate => ?_⟩
    have hfound : findPath root (b ++ [.name id]) = some ⟨state, scope, b ++ [.name id], b⟩ :=
      findPath_eq_some_iff.mpr ⟨rfl, Nat.le_of_not_lt hlong, id, rfl, hscope, hstate⟩
    rw [h] at hfound
    cases hfound
  · intro h
    refine Option.eq_none_iff_forall_ne_some.mpr fun a ha => ?_
    obtain ⟨rfl, hlength, id, hlocated⟩ := findPath_eq_some_iff.mp ha
    rcases h with hlong | hname | ⟨b, id', hpath, hfront⟩
    · exact Nat.not_lt.mpr hlength hlong
    · exact hname _ _ hlocated.path_eq
    · obtain ⟨hb, hid⟩ := List.append_inj' (hlocated.path_eq.symm.trans hpath) rfl
      cases hid
      subst hb
      rcases hfront with hastray | ⟨scope, hscope, hmissing⟩
      · exact Astray.iff_not_ownerPath.mp hastray _ hlocated.scope
      · have hdeclared := hlocated.declared
        rw [hlocated.scope.unique hscope, hmissing] at hdeclared
        cases hdeclared

/-- A path of names and indexes that does not end in a name is empty or ends in an index. -/
theorem Path.Leads.endsInIndex_iff
    {p : Path} (hp : p.Leads) :
    (∀ b id, p ≠ b ++ [.name id]) ↔ p = [] ∨ ∃ b s i, p = b ++ [s] ∧ s.index? = some i := by
  rcases List.eq_nil_or_concat p with rfl | ⟨b, s, rfl⟩
  · simp
  · rw [List.concat_eq_append] at hp ⊢
    constructor
    · intro hname
      have hlast : s.Leads := hp s (by simp)
      rcases hlast with hid | hindex
      · cases s with
        | name id => exact absurd rfl (hname b id)
        | index i => cases hid
        | other v => cases hid
      · obtain ⟨i, hi⟩ := Option.isSome_iff_exists.mp hindex
        exact Or.inr ⟨b, s, i, rfl, hi⟩
    · rintro (hnil | ⟨b', s', i, heq, hi⟩) b'' id hname
      · simp at hnil
      · obtain ⟨-, hs⟩ := List.append_inj' heq rfl
        obtain ⟨-, hs'⟩ := List.append_inj' hname rfl
        cases hs
        cases hs'
        cases hi

/-- Search by path answers on every path of names and indexes.  It finds a state exactly if the path
has no more segments than its limit and can be read as owners on the way to a scope and a name that
this scope declares; the address is then this state, this scope, the path and the path without the
name.  It finds nothing exactly if the path is too long, empty, or ends in an index, if it goes
astray on the way to the scope, or if the scope does not declare the name. -/
theorem path_lookup_exact
    {p : Path} (hp : p.Leads) (root : Value) :
    (∀ a, findPath? root p = .ok (some a) ↔
        p.length ≤ maxNesting * 2 ∧ ∃ b id, p = b ++ [.name id] ∧ OwnerPath root b a.parent ∧
          (State.declared? a.parent).bind (Fields.get? · id) = some a.state ∧
          a.path = p ∧ a.parentPath = b) ∧
      (findPath? root p = .ok none ↔
        maxNesting * 2 < p.length ∨ p = [] ∨ (∃ b s i, p = b ++ [s] ∧ s.index? = some i) ∨
          ∃ b id, p = b ++ [.name id] ∧ (Astray root b ∨
            ∃ scope, OwnerPath root b scope ∧
              (State.declared? scope).bind (Fields.get? · id) = none)) := by
  rw [findPath?_of_leads hp]
  constructor
  · intro a
    rw [Except.ok.injEq, findPath_eq_some_iff]
    constructor
    · rintro ⟨rfl, hlength, id, hpath, hscope, hstate⟩
      exact ⟨hlength, a.parentPath, id, hpath, hscope, hstate, rfl, rfl⟩
    · rintro ⟨hlength, b, id, hpath, hscope, hstate, rfl, rfl⟩
      exact ⟨rfl, hlength, id, hpath, hscope, hstate⟩
  · rw [Except.ok.injEq, findPath_eq_none_iff, hp.endsInIndex_iff, or_assoc]
    rfl

/-- A branch with one state. -/
def lastBranch : Value := .obj [("States", .obj [("A", .obj [("Type", .str "Succeed")])])]

/-- A Map state around a Parallel state, of whose branches only the second one is a scope. -/
def mixedOwners : Value :=
  .obj [("States", .obj [
    ("M", .obj [("Type", .str "Map"), ("Iterator", .obj [("States", .obj [
      ("P", .obj [("Type", .str "Parallel"), ("Branches", .arr [.null, lastBranch])])])])])])]

/-- The path through the second branch leads to the state in it; the first branch declares nothing,
and a branch of negative index does not exist. -/
theorem path_lookup_exact_mixedOwners :
    findPath? mixedOwners [.name "M", .name "P", .index 1, .name "A"] =
        .ok (some ⟨.obj [("Type", .str "Succeed")], lastBranch,
          [.name "M", .name "P", .index 1, .name "A"], [.name "M", .name "P", .index 1]⟩) ∧
      findPath? mixedOwners [.name "M", .name "P", .index 0, .name "A"] = .ok none ∧
      findPath? mixedOwners [.name "M", .name "P", .index (-1), .name "A"] = .ok none := by
  have hleads : ∀ i, Path.Leads [.name "M", .name "P", .index i, .name "A"] := by
    intro i
    simp [Path.Leads, Segment.Leads, Segment.name?, Segment.index?, Segment.toValue, Value.index?]
  refine ⟨?_, ?_, ?_⟩
  · refine ((path_lookup_exact (hleads 1) mixedOwners).1 _).mpr ⟨by decide,
      [.name "M", .name "P", .index 1], "A", rfl, ?_, rfl, rfl, rfl⟩
    exact OwnerPath.map rfl rfl
      (OwnerPath.branch (i := 1) rfl rfl rfl rfl rfl (OwnerPath.here lastBranch))
  · refine (path_lookup_exact (hleads 0) mixedOwners).2.mpr (Or.inr (Or.inr (Or.inr
      ⟨[.name "M", .name "P", .index 0], "A", rfl, Or.inr ⟨.null, ?_, rfl⟩⟩)))
    exact OwnerPath.map rfl rfl
      (OwnerPath.branch (i := 0) rfl rfl rfl rfl rfl (OwnerPath.here .null))
  · refine (path_lookup_exact (hleads (-1)) mixedOwners).2.mpr (Or.inr (Or.inr (Or.inr
      ⟨[.name "M", .name "P", .index (-1)], "A", rfl, Or.inl ?_⟩)))
    exact Astray.map rfl rfl (Astray.outside rfl rfl rfl fun _ _ => Or.inl (by decide))

end Workflow
