import Workflow.Proofs.AddressAgreement

/-!
# The descendants of a state

The descendants of a state are listed by a traversal that starts in the middle of the workflow, at
the scopes that the state owns.  In the whole preorder, the visits with paths below that of a state
are the visits of these scopes, in the same order.  What is left to compare is the depth: a visit
counts the owners around a scope, whereas the list of descendants starts from the length of a path,
in which every branch index counts as one more owner.  So the list ends too early by as many levels
as there are branch indexes on the path, and it is complete as long as nothing stands so deep.
-/

namespace Workflow

namespace Path

/-- Whether the second path goes on from the first one. -/
def goesBelow : Path → Path → Bool
  | [], q => !q.isEmpty
  | _ :: _, [] => false
  | s :: p, t :: q => s.same t && goesBelow p q

/-- The number of branch indexes on a path. -/
def branches (p : Path) : Nat := p.countP fun s => s.index?.isSome

theorem goesBelow_iff :
    ∀ {p q : Path}, p.Leads → p.plain = p → q.Leads → q.plain = q →
      (goesBelow p q = true ↔ ∃ rest, rest ≠ [] ∧ q = p ++ rest)
  | [], q, _, _, _, _ => by
      cases q <;> simp [goesBelow]
  | s :: p, [], _, _, _, _ => by simp [goesBelow]
  | s :: p, t :: q, hp, hplain, hq, hqplain => by
      rw [leads_cons] at hp hq
      simp only [plain_cons, List.cons.injEq] at hplain hqplain
      have hhead := Segment.same_iff hp.1 hplain.1 hq.1
      have htail := goesBelow_iff hp.2 hplain.2 hq.2 hqplain.2
      rw [hqplain.1] at hhead
      rw [goesBelow, Bool.and_eq_true, hhead, htail]
      constructor
      · rintro ⟨rfl, rest, hrest, rfl⟩
        exact ⟨rest, hrest, rfl⟩
      · rintro ⟨rest, hrest, heq⟩
        rw [List.cons_append, List.cons.injEq] at heq
        exact ⟨heq.1.symm, rest, hrest, heq.2⟩

/-- Each segment of a path that a visit reports is a name or a branch index. -/
theorem length_eq
    {p : Path} (hp : p.Leads) :
    p.length = p.owners + p.branches := by
  induction p with
  | nil => rfl
  | cons s p ih =>
      rw [leads_cons] at hp
      have hrest := ih hp.2
      cases hindex : s.index? with
      | some i =>
          rw [List.length_cons, owners_index hindex, branches, List.countP_cons, hindex]
          rw [branches] at hrest
          simp only [Option.isSome_some, if_true]
          omega
      | none =>
          obtain ⟨id, hid⟩ := Option.isSome_iff_exists.mp
            (hp.1.resolve_right (by rw [hindex]; exact Bool.false_ne_true))
          rw [List.length_cons, owners, branches, List.countP_cons, List.countP_cons, hindex, hid]
          rw [owners, branches] at hrest
          simp only [Option.isSome_some, Option.isSome_none, if_true, Bool.false_eq_true, if_false]
          omega

end Path

/-- The visit of a state below the state at a path. -/
def Visit.liesBelow (p : Path) (v : Visit) : Bool := p.goesBelow v.path

/-- The number of owners around a visited state. -/
def Visit.depth (v : Visit) : Nat := Path.owners v.path.dropLast

section Below

variable {levels : Nat} {scope : Value} {path : Path}

/-- The paths of a visit go on from where it starts, by names and plain indexes. -/
theorem exists_plain_path_of_mem_preorder
    {v : Visit} (hscope : scope.Proper) (h : v ∈ preorder levels scope path) :
    ∃ rest : Path, v.path = path ++ rest ∧ rest ≠ [] ∧ rest.Leads ∧ rest.plain = rest := by
  obtain ⟨b, inner, hb, hplain, -, hv⟩ := exists_ownerPath_of_mem_preorder hscope h
  obtain ⟨states, -, -, -, hpath⟩ := mem_declaredVisits_iff.mp hv
  refine ⟨b ++ [.name v.id], by rw [hpath, List.append_assoc], by simp, ?_, by simp [hplain]⟩
  exact Path.leads_concat hb.leads (Or.inl rfl)

/-- The visits of the scopes nested in a state lie below it. -/
theorem exists_plain_path_of_mem_nested
    {v : Visit} {state : Value} {here : Path} (hstate : state.Proper)
    (h : v ∈ (State.nestedScopes state here).flatMap fun nested =>
      preorder levels nested.1 nested.2) :
    ∃ rest : Path, v.path = here ++ rest ∧ rest ≠ [] ∧ rest.Leads ∧ rest.plain = rest := by
  obtain ⟨⟨inner, p⟩, hnested, hv⟩ := List.mem_flatMap.mp h
  obtain ⟨-, ⟨-, rfl, rfl⟩ | ⟨-, scopes, i, hscopes, hi, rfl⟩⟩ :=
    State.mem_nestedScopes_iff.mp hnested
  · exact exists_plain_path_of_mem_preorder (State.processor_proper hstate) hv
  · have hbranch := State.branches?_proper hstate hscopes _ (List.mem_of_getElem? hi)
    obtain ⟨rest, hpath, -, hleads, hplain⟩ := exists_plain_path_of_mem_preorder hbranch hv
    refine ⟨.index i :: rest, by simpa using hpath, by simp, ?_, by simp [hplain]⟩
    exact Path.leads_cons.mpr ⟨Or.inr rfl, hleads⟩

theorem liesBelow_iff
    {v : Visit} {c q : Path} (hv : v.path = path ++ c) (hpath : path.Leads)
    (hplain : path.plain = path) (hc : c.Leads) (hcplain : c.plain = c) (hq : q.Leads)
    (hqplain : q.plain = q) :
    v.liesBelow (path ++ q) = true ↔ ∃ rest, rest ≠ [] ∧ c = q ++ rest := by
  rw [Visit.liesBelow, hv, Path.goesBelow_iff (Path.leads_append.mpr ⟨hpath, hq⟩)
    (by simp [hplain, hqplain]) (Path.leads_append.mpr ⟨hpath, hc⟩) (by simp [hplain, hcplain])]
  simp only [List.append_assoc, List.append_cancel_left_eq]

/-- None of the visits around a state lie below another state, or below anything nested in it. -/
theorem filter_liesBelow_block_of_ne
    {id other : Text} {state : Value} {q : Path} (hstate : state.Proper) (hpath : path.Leads)
    (hplain : path.plain = path) (hq : q.Leads) (hqplain : q.plain = q) (hne : other ≠ id) :
    ((⟨other, state, scope, path ++ [.name other]⟩ ::
        (State.nestedScopes state (path ++ [.name other])).flatMap fun nested =>
          preorder levels nested.1 nested.2 : List Visit).filter
      (Visit.liesBelow (path ++ .name id :: q))) = [] := by
  rw [List.filter_eq_nil_iff]
  intro v hv hlies
  have hbelow : ∃ c : Path, v.path = path ++ .name other :: c ∧ c.Leads ∧ c.plain = c := by
    rcases List.mem_cons.mp hv with rfl | hv
    · exact ⟨[], rfl, Path.leads_nil, rfl⟩
    · obtain ⟨c, hc, -, hleads, hcplain⟩ := exists_plain_path_of_mem_nested hstate hv
      exact ⟨c, by simpa using hc, hleads, hcplain⟩
  obtain ⟨c, hc, hleads, hcplain⟩ := hbelow
  obtain ⟨rest, -, heq⟩ := (liesBelow_iff hc hpath hplain
    (Path.leads_cons.mpr ⟨Or.inl rfl, hleads⟩) (by simp [hcplain])
    (Path.leads_cons.mpr ⟨Or.inl rfl, hq⟩) (by simp [hqplain])).mp hlies
  rw [List.cons_append, List.cons.injEq, Segment.name.injEq] at heq
  exact hne heq.1

/-- The visits below a state, or below anything nested in it, are visits of its scopes. -/
theorem filter_liesBelow_preorder
    {id : Text} {owner : Value} {q : Path} (hscope : scope.Proper)
    (howner : (State.declared? scope).bind (Fields.get? · id) = some owner) (hpath : path.Leads)
    (hplain : path.plain = path) (hq : q.Leads) (hqplain : q.plain = q) :
    (preorder (levels + 1) scope path).filter (Visit.liesBelow (path ++ .name id :: q)) =
      (State.nestedScopes owner (path ++ [.name id])).flatMap fun nested =>
        (preorder levels nested.1 nested.2).filter
          (Visit.liesBelow (path ++ .name id :: q)) := by
  obtain ⟨states, hstates, hget⟩ := Option.bind_eq_some_iff.mp howner
  obtain ⟨hnames, hproper⟩ := State.declared?_proper hscope hstates
  have hown : ¬ Visit.liesBelow (path ++ .name id :: q) ⟨id, owner, scope, path ++ [.name id]⟩ := by
    intro hlies
    obtain ⟨rest, hrest, heq⟩ := (liesBelow_iff (c := [.name id]) rfl hpath hplain
      (Path.leads_concat Path.leads_nil (Or.inl rfl)) rfl
      (Path.leads_cons.mpr ⟨Or.inl rfl, hq⟩) (by simp [hqplain])).mp hlies
    rw [List.cons_append, List.cons.injEq] at heq
    exact hrest (List.append_eq_nil_iff.mp heq.2.symm).2
  rw [preorder_succ hstates, List.filter_flatMap,
    flatMap_eq_of_key Prod.fst hnames (Fields.mem_of_get? hget) fun field hfield hne =>
      filter_liesBelow_block_of_ne (hproper _ hfield) hpath hplain hq hqplain hne,
    List.filter_cons_of_neg hown, List.filter_flatMap]

/-- None of the visits in a branch lie below anything in another branch. -/
theorem filter_liesBelow_branch_of_ne
    {i j : Nat} {q : Path} (hscope : scope.Proper) (hpath : path.Leads)
    (hplain : path.plain = path) (hq : q.Leads) (hqplain : q.plain = q) (hne : j ≠ i) :
    (preorder levels scope (path ++ [.index j])).filter
      (Visit.liesBelow (path ++ .index i :: q)) = [] := by
  rw [List.filter_eq_nil_iff]
  intro v hv hlies
  obtain ⟨c, hc, -, hleads, hcplain⟩ := exists_plain_path_of_mem_preorder hscope hv
  rw [List.append_assoc] at hc
  obtain ⟨rest, -, heq⟩ := (liesBelow_iff hc hpath hplain
    (Path.leads_cons.mpr ⟨Or.inr rfl, hleads⟩) (by simp [hcplain])
    (Path.leads_cons.mpr ⟨Or.inr rfl, hq⟩) (by simp [hqplain])).mp hlies
  simp only [List.cons_append, List.nil_append, List.cons.injEq, Segment.index.injEq,
    Int.natCast_inj] at heq
  exact hne heq.1

/-- The visits below a state that a scope declares are all visits of the scopes that it owns. -/
theorem filter_liesBelow_declared
    {id : Text} {state : Value} (hscope : scope.Proper)
    (hstate : (State.declared? scope).bind (Fields.get? · id) = some state) (hpath : path.Leads)
    (hplain : path.plain = path) :
    (preorder (levels + 1) scope path).filter (Visit.liesBelow (path ++ [.name id])) =
      (State.nestedScopes state (path ++ [.name id])).flatMap fun nested =>
        preorder levels nested.1 nested.2 := by
  have hname : Path.Leads [.name id] := Path.leads_concat Path.leads_nil (Or.inl rfl)
  rw [filter_liesBelow_preorder hscope hstate hpath hplain Path.leads_nil rfl]
  refine List.flatMap_congr fun nested hnested => List.filter_eq_self.mpr fun v hv => ?_
  obtain ⟨c, hc, hne, hleads, hcplain⟩ :=
    exists_plain_path_of_mem_nested (OwnerPath.owner_proper hscope hstate)
      (List.mem_flatMap.mpr ⟨nested, hnested, hv⟩)
  rw [List.append_assoc] at hc
  exact (liesBelow_iff hc hpath hplain (Path.leads_append.mpr ⟨hname, hleads⟩)
    (by simp [hcplain]) hname rfl).mpr ⟨c, hne, rfl⟩

end Below

/-- The visits below a state are the visits of the scopes that it owns, in the same order, with the
levels that are left at its depth. -/
theorem filter_liesBelow
    {scope inner state : Value} {b : Path} {id : Text} (h : OwnerPath scope b inner)
    (hb : b.plain = b) (hstate : (State.declared? inner).bind (Fields.get? · id) = some state) :
    ∀ (levels : Nat) (path : Path), scope.Proper → path.Leads → path.plain = path →
      (preorder levels scope path).filter (Visit.liesBelow (path ++ (b ++ [.name id]))) =
        (State.nestedScopes state (path ++ (b ++ [.name id]))).flatMap fun nested =>
          preorder (levels - (b.owners + 1)) nested.1 nested.2 := by
  have hname : Path.Leads [.name id] := Path.leads_concat Path.leads_nil (Or.inl rfl)
  induction h with
  | here scope =>
      intro levels path hscope hpath hplain
      cases levels with
      | zero => simp [preorder]
      | succ levels =>
          rw [List.nil_append, filter_liesBelow_declared hscope hstate hpath hplain,
            Path.owners_nil, Nat.zero_add, Nat.add_sub_cancel]
  | @map scope o owner rest inner howner hkind hrest ih =>
      intro levels path hscope hpath hplain
      rw [Path.plain_cons, List.cons.injEq] at hb
      cases levels with
      | zero => simp [preorder]
      | succ levels =>
          have hproper := OwnerPath.owner_proper hscope howner
          have hinner := ih hb.2 hstate levels (path ++ [.name o]) (State.processor_proper hproper)
            (Path.leads_concat hpath (Or.inl rfl)) (by simp [hplain])
          rw [List.cons_append, filter_liesBelow_preorder hscope howner hpath hplain
              (Path.leads_append.mpr ⟨hrest.leads, hname⟩) (by simp [hb.2]),
            State.flatMap_nestedScopes_map hkind _ _ fun v p hv => by
              simp [preorder_of_not_object levels p hv]]
          simpa using hinner
  | @branch scope o owner scopes s i branch rest inner howner hkind hscopes hindex hbranch
      hrest ih =>
      intro levels path hscope hpath hplain
      rw [Path.plain_cons, Path.plain_cons, List.cons.injEq, List.cons.injEq,
        Segment.plain_of_index? hindex] at hb
      obtain ⟨-, rfl, hrestPlain⟩ := hb
      cases levels with
      | zero => simp [preorder]
      | succ levels =>
          have hproper := State.branches?_proper (OwnerPath.owner_proper hscope howner) hscopes
          have hhere : Path.Leads (path ++ [.name o]) := Path.leads_concat hpath (Or.inl rfl)
          have hherePlain : Path.plain (path ++ [.name o]) = path ++ [.name o] := by
            simp [hplain]
          have htail : Path.Leads (rest ++ [.name id]) :=
            Path.leads_append.mpr ⟨hrest.leads, hname⟩
          have hinner := ih hrestPlain hstate levels (path ++ [.name o] ++ [.index i])
            (hproper _ (List.mem_of_getElem? hbranch)) (Path.leads_concat hhere (Or.inr rfl))
            (by simp [hplain])
          rw [List.cons_append, List.cons_append, filter_liesBelow_preorder hscope howner hpath
              hplain (Path.leads_cons.mpr ⟨Or.inr rfl, htail⟩) (by simp [hrestPlain]),
            List.append_cons path (.name o) (.index i :: _)]
          -- of all branches only the one at the index contributes
          rw [State.flatMap_nestedScopes_branch hkind _ hscopes hbranch _
              (fun v p hv => by simp [preorder_of_not_object levels p hv])
              (fun other hother j hne => filter_liesBelow_branch_of_ne (hproper _ hother) hhere
                hherePlain htail (by simp [hrestPlain]) hne)]
          simpa [Path.owners_index hindex] using hinner

section Depth

variable {state : Value} {here : Path} {nested : Value × Path}

/-- The scopes that a state owns stand as deep as its path says. -/
theorem owners_of_mem_nestedScopes
    (h : nested ∈ State.nestedScopes state here) :
    Path.owners nested.2 = here.owners := by
  obtain ⟨-, ⟨-, -, hpath⟩ | ⟨-, -, i, -, -, hpath⟩⟩ := State.mem_nestedScopes_iff.mp h
  · rw [hpath]
  · rw [hpath, Path.owners_append, Path.owners_index rfl, Path.owners_nil, Nat.add_zero]

theorem proper_of_mem_nestedScopes
    (hstate : state.Proper) (h : nested ∈ State.nestedScopes state here) :
    nested.1.Proper := by
  obtain ⟨-, ⟨-, hinner, -⟩ | ⟨-, scopes, i, hscopes, hi, -⟩⟩ := State.mem_nestedScopes_iff.mp h
  · rw [hinner]
    exact State.processor_proper hstate
  · exact State.branches?_proper hstate hscopes _ (List.mem_of_getElem? hi)

/-- A visit stands at least as deep as the scope where the visiting starts. -/
theorem owners_le_depth
    {v : Visit} {levels : Nat} {scope : Value} {path : Path} (hscope : scope.Proper)
    (h : v ∈ preorder levels scope path) :
    path.owners ≤ v.depth := by
  obtain ⟨c, hc, -, -⟩ := dropLast_of_mem_preorder hscope h
  rw [Visit.depth, hc, Path.owners_append]
  exact Nat.le_add_right _ _

/-- With fewer levels, a visit comes to the same states but for those that stand too deep. -/
theorem filter_depth_preorder
    {fewer : Nat} :
    ∀ {levels : Nat} {scope : Value} {path : Path}, scope.Proper → fewer ≤ levels →
      (preorder levels scope path).filter (fun v => decide (v.depth < path.owners + fewer)) =
        preorder fewer scope path := by
  induction fewer with
  | zero =>
      intro levels scope path hscope _
      rw [preorder, List.filter_eq_nil_iff]
      intro v hv
      rw [decide_eq_true_eq, Nat.not_lt]
      exact owners_le_depth hscope hv
  | succ fewer ih =>
      intro levels scope path hscope hlevels
      obtain ⟨levels, rfl⟩ := Nat.exists_eq_add_of_lt hlevels
      cases hstates : State.declared? scope with
      | none => rw [preorder, preorder, hstates, List.filter_nil]
      | some states =>
          rw [preorder_succ hstates, preorder_succ hstates, List.filter_flatMap]
          refine List.flatMap_congr fun field hfield => ?_
          have hproper := (State.declared?_proper hscope hstates).2 _ hfield
          have howners : Path.owners (path ++ [.name field.1]) = path.owners + 1 := by
            rw [Path.owners_append, Path.owners_name, Path.owners_nil]
          rw [List.filter_cons_of_pos, List.filter_flatMap]
          · congr 1
            refine List.flatMap_congr fun nested hnested => ?_
            rw [← ih (proper_of_mem_nestedScopes hproper hnested) (Nat.le_add_right fewer levels),
              owners_of_mem_nestedScopes hnested, howners, Nat.add_right_comm, Nat.add_assoc]
          · rw [decide_eq_true_eq, Visit.depth, List.dropLast_concat]
            omega

end Depth

/-- A search by id follows plain paths. -/
theorem plain_of_searchId
    {id : Text} {a : Address} (levels : Nat) :
    ∀ {path : Path} {scope : Value}, path.plain = path →
      searchId id levels scope path = some a → a.parentPath.plain = a.parentPath := by
  induction levels with
  | zero =>
      intro path scope _ h
      cases h
  | succ levels ih =>
      intro path scope hplain h
      obtain ⟨states, -, ⟨state, -, rfl⟩ | ⟨field, -, nested, hnested, hsearch⟩⟩ :=
        searchId_cases h
      · exact hplain
      · refine ih ?_ hsearch
        obtain ⟨-, ⟨-, -, hpath⟩ | ⟨-, -, i, -, -, hpath⟩⟩ :=
          State.mem_nestedScopes_iff.mp hnested
        · simp [hpath, hplain]
        · simp [hpath, hplain]

/-- The visits of the states below an address. -/
def visitsBelow (root : Value) (a : Address) : List Visit :=
  (allStates root).filter (Visit.liesBelow a.path)

/-- The depth that a state below an address may have to be listed. -/
def Address.reaches (a : Address) (v : Visit) : Bool :=
  decide (v.depth + a.path.branches ≤ maxNesting)

section Descendants

variable {root : Value} (hroot : root.Proper)

include hroot

/-- The list of descendants holds the states below an address that are not too deep. -/
theorem idsBelow_eq
    {a : Address} {id : Text} (ha : a.Located root id)
    (hplain : a.parentPath.plain = a.parentPath) :
    idsBelow a = ((visitsBelow root a).filter a.reaches).map Visit.id := by
  have hbelow := filter_liesBelow ha.scope hplain ha.declared allLevels [] hroot Path.leads_nil rfl
  have hlength := Path.length_eq ha.leads
  have howners : Path.owners a.path = a.parentPath.owners + 1 := by
    rw [ha.path_eq, Path.owners_append, Path.owners_name, Path.owners_nil]
  have hproper := OwnerPath.owner_proper (ha.scope.proper hroot) ha.declared
  rw [List.nil_append, ← ha.path_eq] at hbelow
  rw [visitsBelow, allStates, hbelow, List.filter_flatMap, List.map_flatMap, idsBelow]
  refine List.flatMap_congr fun nested hnested => ?_
  dsimp only
  have hnestedProper := proper_of_mem_nestedScopes hproper hnested
  have hnestedOwners := owners_of_mem_nestedScopes hnested
  have hfewer : allLevels - a.path.length ≤ allLevels - (a.parentPath.owners + 1) := by omega
  rw [← filter_depth_preorder hnestedProper hfewer]
  refine congrArg _ (List.filter_congr fun v hv => ?_)
  have hdepth := owners_le_depth hnestedProper hv
  rw [Address.reaches, decide_eq_decide, allLevels]
  omega

/-- The descendants of the first state with an id are the states that a visit reports below it, in
the same order and as often, but for those whose depth and the branch indexes on the path of the
state add up to more than a visit goes.  So all of them are listed exactly if none stands so deep,
and always when the state stands in no branch. -/
theorem descendants_exact
    {id : Value} {a : Address} (ha : findId? root id [] = .ok (some a))
    (hpresent : a.isPresent = true) :
    descendantIds root id = .ok (((visitsBelow root a).filter a.reaches).map Visit.id) ∧
      (descendantIds root id = .ok ((visitsBelow root a).map Visit.id) ↔
        ∀ v ∈ visitsBelow root a, v.depth + a.path.branches ≤ maxNesting) ∧
      (a.path.branches = 0 → descendantIds root id = .ok ((visitsBelow root a).map Visit.id)) := by
  obtain ⟨t, hfind⟩ : ∃ t, findId root t [] = some a := by
    rw [findId?.eq_def] at ha
    split at ha
    · next t => exact ⟨t, Except.ok.inj ha⟩
    · split at ha <;> cases ha
  obtain ⟨hlocated, -⟩ :=
    located_of_searchId hroot allLevels (OwnerPath.here root) (Nat.le_of_eq (Nat.zero_add _)) hfind
  have hids : descendantIds root id =
      .ok (((visitsBelow root a).filter a.reaches).map Visit.id) := by
    rw [← idsBelow_eq hroot hlocated (plain_of_searchId allLevels rfl hfind), descendantIds, ha]
    simp only [Except.map, hpresent, if_true]
  have hall : descendantIds root id = .ok ((visitsBelow root a).map Visit.id) ↔
      ∀ v ∈ visitsBelow root a, v.depth + a.path.branches ≤ maxNesting := by
    rw [hids, Except.ok.injEq]
    constructor
    · intro heq
      have hlength := congrArg List.length heq
      rw [List.length_map, List.length_map, List.length_filter_eq_length_iff] at hlength
      exact fun v hv => of_decide_eq_true (hlength v hv)
    · intro hdepth
      rw [List.filter_eq_self (p := a.reaches) |>.mpr fun v hv => decide_eq_true (hdepth v hv)]
  refine ⟨hids, hall, fun hbranches => hall.mpr fun v hv => ?_⟩
  obtain ⟨b, hb⟩ := (mem_allStates_iff hroot).mp (List.mem_of_mem_filter hv)
  rw [hbranches, Nat.add_zero, Visit.depth, hb.path, List.dropLast_concat]
  exact hb.depth

end Descendants

/-- A scope with a Map state Q around one state. -/
def innerMap : Value :=
  .obj [("States", .obj [("Q", .obj [("Type", .str "Map"),
    ("ItemProcessor", .obj [("States", .obj [("X", .obj [("Type", .str "Succeed")])])])])])]

/-- A scope in the only branch of as many Parallel states, one inside the other. -/
def branchesAround (inner : Value) : Nat → Value
  | 0 => inner
  | n + 1 =>
    .obj [("States", .obj [
      ("P", .obj [("Type", .str "Parallel"), ("Branches", .arr [branchesAround inner n])])])]

/-- Between few branches, the state below Q is listed as its descendant. -/
theorem descendants_exact_nestedBranches :
    (branchesAround innerMap 2).Proper ∧
      ∃ a, findId? (branchesAround innerMap 2) (.str "Q") [] = .ok (some a) ∧
        a.isPresent = true ∧ a.path.branches = 2 ∧
        (visitsBelow (branchesAround innerMap 2) a).map Visit.id = ["X"] ∧
        descendantIds (branchesAround innerMap 2) (.str "Q") =
          .ok ((visitsBelow (branchesAround innerMap 2) a).map Visit.id) := by
  have hproper : (branchesAround innerMap 2).Proper := by decide
  refine ⟨hproper, _, rfl, rfl, rfl, rfl, ?_⟩
  exact (descendants_exact hproper rfl rfl).2.1.mpr (by decide)

/-- Behind half as many Parallel states as a visit has levels, the state below Q is visited, but it
is not listed as a descendant of Q. -/
theorem descendants_left_out :
    ∃ a, findId? (branchesAround innerMap 32) (.str "Q") [] = .ok (some a) ∧
      a.isPresent = true ∧
      descendantIds (branchesAround innerMap 32) (.str "Q") = .ok [] ∧
      (visitsBelow (branchesAround innerMap 32) a).map Visit.id = ["X"] :=
  ⟨_, rfl, rfl, rfl, rfl⟩

end Workflow
