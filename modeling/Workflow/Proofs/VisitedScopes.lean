import Workflow.Proofs.OwnerPaths
import Workflow.State.Visit

/-!
# The scopes that a visit enters

A visit reports exactly the states of the scopes that owner paths lead to, down to its number of
levels.  The reports whose paths lie in one scope are the states that this scope declares, in
order: no two scopes of a proper workflow share a path.
-/

namespace Workflow

/-- When all but one of the elements contribute nothing, that element contributes everything. -/
theorem flatMap_eq_of_key
    {α β κ : Type} {l : List α} {f : α → List β} (key : α → κ)
    (hkeys : (l.map key).Nodup) {x : α} (hx : x ∈ l)
    (hrest : ∀ y ∈ l, key y ≠ key x → f y = []) :
    l.flatMap f = f x := by
  induction l with
  | nil =>
      simp at hx
  | cons z l ih =>
      rw [List.map_cons, List.nodup_cons] at hkeys
      rw [List.flatMap_cons]
      rcases List.mem_cons.mp hx with rfl | hx
      · have htail : l.flatMap f = [] := by
          rw [List.flatMap_eq_nil_iff]
          intro y hy
          refine hrest y (List.mem_cons_of_mem _ hy) ?_
          intro hkey
          exact hkeys.1 (List.mem_map.mpr ⟨y, hy, hkey⟩)
        rw [htail, List.append_nil]
      · have hhead : f z = [] := by
          refine hrest z List.mem_cons_self ?_
          intro hkey
          exact hkeys.1 (List.mem_map.mpr ⟨x, hx, hkey.symm⟩)
        rw [hhead, List.nil_append]
        exact ih hkeys.2 hx fun y hy => hrest y (List.mem_cons_of_mem _ hy)

namespace State

/-- The visits of the scope that a Map state owns. -/
theorem flatMap_nestedScopes_map
    {β : Type} {state : Value} (hkind : kind? state = some .map) (here : Path)
    (f : Value × Path → List β) (hf : ∀ v p, v.isObject = false → f (v, p) = []) :
    (nestedScopes state here).flatMap f = f (processor state, here) := by
  unfold nestedScopes
  rw [hkind]
  cases hobject : (processor state).isObject with
  | true => simp [hobject]
  | false => simp [hobject, hf]

/-- The visits of the scopes that a Parallel state owns. -/
theorem flatMap_nestedScopes_parallel
    {β : Type} {state : Value} (hkind : kind? state = some .parallel) (here : Path)
    {scopes : List Value} (hscopes : branches? state = some scopes)
    (f : Value × Path → List β) (hf : ∀ v p, v.isObject = false → f (v, p) = []) :
    (nestedScopes state here).flatMap f =
      scopes.zipIdx.flatMap fun branch => f (branch.1, here ++ [.index branch.2]) := by
  unfold nestedScopes
  simp only [hkind, hscopes]
  induction scopes.zipIdx with
  | nil =>
      rfl
  | cons branch rest ih =>
      cases hobject : branch.1.isObject with
      | true => simp [hobject, ih]
      | false => simp [hobject, ih, hf]

/-- When only one branch of a Parallel state contributes visits, these are all visits. -/
theorem flatMap_nestedScopes_branch
    {β : Type} {state : Value} (hkind : kind? state = some .parallel) (here : Path)
    {scopes : List Value} (hscopes : branches? state = some scopes)
    {branch : Value} {i : Nat} (hbranch : scopes[i]? = some branch)
    (f : Value × Path → List β) (hf : ∀ v p, v.isObject = false → f (v, p) = [])
    (hrest : ∀ other ∈ scopes, ∀ j : Nat, j ≠ i → f (other, here ++ [.index j]) = []) :
    (nestedScopes state here).flatMap f = f (branch, here ++ [.index i]) := by
  have hmem : (branch, i) ∈ scopes.zipIdx := List.mem_zipIdx_iff_getElem?.mpr hbranch
  rw [flatMap_nestedScopes_parallel hkind here hscopes f hf]
  exact flatMap_eq_of_key Prod.snd (positions_nodup scopes) hmem fun other hother hne =>
    hrest other.1 (List.fst_mem_of_mem_zipIdx hother) other.2 hne

/-- The scopes nested in a state, one owner further on. -/
theorem mem_nestedScopes_iff
    {state inner : Value} {here p : Path} :
    (inner, p) ∈ nestedScopes state here ↔
      inner.isObject = true ∧
        ((kind? state = some .map ∧ inner = processor state ∧ p = here) ∨
          (kind? state = some .parallel ∧ ∃ scopes i, branches? state = some scopes ∧
            scopes[i]? = some inner ∧ p = here ++ [.index (i : Nat)])) := by
  unfold nestedScopes
  cases hkind : kind? state with
  | none => simp
  | some kind =>
      cases kind with
      | map =>
          by_cases hobject : (processor state).isObject
          · simp only [hobject, if_true, List.mem_singleton, Prod.mk.injEq]
            constructor
            · rintro ⟨rfl, rfl⟩
              exact ⟨hobject, Or.inl ⟨trivial, rfl, rfl⟩⟩
            · rintro ⟨-, ⟨-, rfl, rfl⟩ | ⟨hfalse, -⟩⟩
              · exact ⟨rfl, rfl⟩
              · cases hfalse
          · simp only [hobject, Bool.false_eq_true, if_false, List.not_mem_nil, false_iff]
            rintro ⟨hinner, ⟨-, rfl, -⟩ | ⟨hfalse, -⟩⟩
            · exact hobject hinner
            · cases hfalse
      | parallel =>
          cases hscopes : branches? state with
          | none => simp
          | some scopes =>
              simp only [List.mem_filterMap, Prod.exists, List.mem_zipIdx_iff_getElem?]
              constructor
              · rintro ⟨scope, i, hi, hpair⟩
                split at hpair
                · next hobject =>
                    simp only [Option.some.injEq, Prod.mk.injEq] at hpair
                    obtain ⟨rfl, rfl⟩ := hpair
                    exact ⟨hobject, Or.inr ⟨trivial, scopes, i, rfl, hi, rfl⟩⟩
                · cases hpair
              · rintro ⟨hobject, ⟨hfalse, -⟩ | ⟨-, others, i, heq, hi, rfl⟩⟩
                · cases hfalse
                · cases heq
                  exact ⟨inner, i, hi, by simp [hobject]⟩
      | _ => simp

end State

/-- The visits of the states that one scope declares. -/
def declaredVisits (scope : Value) (path : Path) : List Visit :=
  ((State.declared? scope).getD []).map fun field =>
    ⟨field.1, field.2, scope, path ++ [.name field.1]⟩

theorem mem_declaredVisits_iff
    {scope : Value} {path : Path} {v : Visit} :
    v ∈ declaredVisits scope path ↔
      ∃ states, State.declared? scope = some states ∧ (v.id, v.state) ∈ states ∧
        v.parent = scope ∧ v.path = path ++ [.name v.id] := by
  unfold declaredVisits
  cases hstates : State.declared? scope with
  | none => simp
  | some states =>
      simp only [Option.getD_some, List.mem_map, Prod.exists]
      constructor
      · rintro ⟨id, state, hmem, rfl⟩
        exact ⟨states, rfl, hmem, rfl, rfl⟩
      · rintro ⟨others, heq, hmem, hparent, hpath⟩
        cases heq
        refine ⟨v.id, v.state, hmem, ?_⟩
        rw [← hparent, ← hpath]

/-- A value that is no scope has no visits. -/
theorem preorder_of_not_object
    (levels : Nat) {scope : Value} (path : Path)
    (h : scope.isObject = false) :
    preorder levels scope path = [] := by
  cases levels with
  | zero => rw [preorder]
  | succ levels =>
      have hdeclared : State.declared? scope = none := by
        cases hstates : State.declared? scope with
        | none => rfl
        | some states =>
            rw [State.isObject_of_declared? hstates] at h
            cases h
      rw [preorder, hdeclared]

/-- Every visit is a state of a scope that an owner path leads to. -/
theorem exists_ownerPath_of_mem_preorder
    {v : Visit} :
    ∀ {levels : Nat} {scope : Value} {path : Path}, scope.Proper →
      v ∈ preorder levels scope path →
      ∃ b inner, OwnerPath scope b inner ∧ b.plain = b ∧ b.owners < levels ∧
        v ∈ declaredVisits inner (path ++ b)
  | 0, _, _, _, h => by
      rw [preorder] at h
      cases h
  | levels + 1, scope, path, hscope, h => by
      rw [preorder] at h
      cases hstates : State.declared? scope with
      | none =>
          rw [hstates] at h
          cases h
      | some states =>
          simp only [hstates, List.mem_flatMap, List.mem_cons, Prod.exists] at h
          obtain ⟨id, state, hmem, rfl | ⟨inner, p, hnested, hv⟩⟩ := h
          · refine ⟨[], scope, OwnerPath.here scope, rfl, Nat.succ_pos levels, ?_⟩
            rw [List.append_nil]
            exact mem_declaredVisits_iff.mpr ⟨states, hstates, hmem, rfl, rfl⟩
          · have hnames := State.declared?_proper hscope hstates
            have howner : (State.declared? scope).bind (Fields.get? · id) = some state := by
              rw [hstates]
              exact Fields.get?_of_mem hnames.1 hmem
            have hstate : state.Proper := hnames.2 _ hmem
            obtain ⟨-, ⟨hkind, rfl, rfl⟩ | ⟨hkind, scopes, i, hscopes, hi, rfl⟩⟩ :=
              State.mem_nestedScopes_iff.mp hnested
            · obtain ⟨b, inner, hb, hplain, howners, hv⟩ :=
                exists_ownerPath_of_mem_preorder (State.processor_proper hstate) hv
              refine ⟨.name id :: b, inner, OwnerPath.map howner hkind hb, ?_, ?_, ?_⟩
              · simp [hplain]
              · simpa using howners
              · simpa using hv
            · have hbranch := State.branches?_proper hstate hscopes _ (List.mem_of_getElem? hi)
              obtain ⟨b, inner, hb, hplain, howners, hv⟩ :=
                exists_ownerPath_of_mem_preorder hbranch hv
              refine ⟨.name id :: .index i :: b, inner,
                OwnerPath.branch howner hkind hscopes rfl hi hb, ?_, ?_, ?_⟩
              · simp [hplain]
              · simpa [Path.owners_index (s := .index i) rfl] using howners
              · simpa using hv

/-- The paths of visits go on from the path where the visit starts. -/
theorem dropLast_of_mem_preorder
    {v : Visit} {levels : Nat} {scope : Value} {path : Path}
    (hscope : scope.Proper) (h : v ∈ preorder levels scope path) :
    ∃ c : Path, v.path.dropLast = path ++ c ∧ c.Leads ∧ c.plain = c := by
  obtain ⟨b, inner, hb, hplain, -, hv⟩ := exists_ownerPath_of_mem_preorder hscope h
  obtain ⟨states, -, -, -, hpath⟩ := mem_declaredVisits_iff.mp hv
  refine ⟨b, ?_, hb.leads, hplain⟩
  rw [hpath, List.dropLast_concat]

/-- The visits of a scope: each state, directly followed by the visits of the scopes it owns. -/
theorem preorder_succ
    {scope : Value} {states : Fields} (hstates : State.declared? scope = some states)
    (levels : Nat) (path : Path) :
    preorder (levels + 1) scope path =
      states.flatMap fun field =>
        ⟨field.1, field.2, scope, path ++ [.name field.1]⟩ ::
          (State.nestedScopes field.2 (path ++ [.name field.1])).flatMap fun nested =>
            preorder levels nested.1 nested.2 := by
  rw [preorder, hstates]

/-- The visits below a state have paths through that state. -/
theorem dropLast_of_mem_nested
    {v : Visit} {levels : Nat} {state : Value} {here : Path}
    (hstate : state.Proper)
    (h : v ∈ (State.nestedScopes state here).flatMap fun nested =>
      preorder levels nested.1 nested.2) :
    ∃ c : Path, v.path.dropLast = here ++ c ∧ c.Leads ∧ c.plain = c := by
  obtain ⟨⟨inner, p⟩, hnested, hv⟩ := List.mem_flatMap.mp h
  obtain ⟨-, ⟨-, rfl, rfl⟩ | ⟨-, scopes, i, hscopes, hi, rfl⟩⟩ :=
    State.mem_nestedScopes_iff.mp hnested
  · exact dropLast_of_mem_preorder (State.processor_proper hstate) hv
  · have hbranch := State.branches?_proper hstate hscopes _ (List.mem_of_getElem? hi)
    obtain ⟨c, hc, hleads, hplain⟩ := dropLast_of_mem_preorder hbranch hv
    refine ⟨.index i :: c, ?_, ?_, ?_⟩
    · simpa using hc
    · exact Path.leads_cons.mpr ⟨Or.inr rfl, hleads⟩
    · simp [hplain]

/-- The visit of a state of the scope at a path. -/
def Visit.liesIn (scopePath : Path) (v : Visit) : Bool := Path.same v.path.dropLast scopePath

theorem liesIn_iff
    {v : Visit} {path c q : Path}
    (hv : v.path.dropLast = path ++ c)
    (hpath : path.Leads) (hplain : path.plain = path)
    (hc : c.Leads) (hcplain : c.plain = c) (hq : q.Leads) :
    v.liesIn (path ++ q) = true ↔ c = q.plain := by
  unfold Visit.liesIn
  rw [hv, Path.same_iff (Path.leads_append.mpr ⟨hpath, hc⟩) (by simp [hplain, hcplain])
    (Path.leads_append.mpr ⟨hpath, hq⟩), Path.plain_append, hplain]
  exact List.append_cancel_left_eq path c q.plain ▸ Iff.rfl

/-- Paths with the same plain form address the same visits. -/
theorem liesIn_congr
    {v : Visit} {q q' : Path}
    (hv : Path.Leads v.path.dropLast) (hplain : Path.plain v.path.dropLast = v.path.dropLast)
    (hq : q.Leads) (hq' : q'.Leads) (h : q.plain = q'.plain) :
    v.liesIn q = v.liesIn q' := by
  unfold Visit.liesIn
  rw [Bool.eq_iff_iff, Path.same_iff hv hplain hq, Path.same_iff hv hplain hq', h]

section FilteredVisits

variable {levels : Nat} {scope : Value} {path : Path}

/-- None of the visits around a state lie in a scope behind another state. -/
theorem filter_block_of_ne
    {id other : Text} {state : Value} {q : Path}
    (hstate : state.Proper) (hpath : path.Leads) (hplain : path.plain = path)
    (hq : q.Leads) (hne : other ≠ id) :
    ((⟨other, state, scope, path ++ [.name other]⟩ ::
        (State.nestedScopes state (path ++ [.name other])).flatMap fun nested =>
          preorder levels nested.1 nested.2 : List Visit).filter
      (Visit.liesIn (path ++ .name id :: q))) = [] := by
  have hqid : Path.Leads (.name id :: q) := Path.leads_cons.mpr ⟨Or.inl rfl, hq⟩
  rw [List.filter_eq_nil_iff]
  intro v hv hlies
  rcases List.mem_cons.mp hv with rfl | hv
  · have hown : (path ++ [Segment.name other]).dropLast = path ++ [] := by simp
    have hfalse := (liesIn_iff hown hpath hplain Path.leads_nil rfl hqid).mp hlies
    simp at hfalse
  · obtain ⟨c, hc, hleads, hcplain⟩ := dropLast_of_mem_nested hstate hv
    have hbelow : v.path.dropLast = path ++ (.name other :: c) := by simpa using hc
    have hcother : Path.Leads (.name other :: c) := Path.leads_cons.mpr ⟨Or.inl rfl, hleads⟩
    have hfalse := (liesIn_iff hbelow hpath hplain hcother (by simp [hcplain]) hqid).mp hlies
    simp only [Path.plain_cons, Segment.plain_name, List.cons.injEq, Segment.name.injEq] at hfalse
    exact hne hfalse.1

/-- The visit of a state itself does not lie in a scope behind a name. -/
theorem filter_block
    {id : Text} {state : Value} {q : Path}
    (hpath : path.Leads) (hplain : path.plain = path) (hq : q.Leads) :
    ((⟨id, state, scope, path ++ [.name id]⟩ ::
        (State.nestedScopes state (path ++ [.name id])).flatMap fun nested =>
          preorder levels nested.1 nested.2 : List Visit).filter
      (Visit.liesIn (path ++ .name id :: q))) =
      (State.nestedScopes state (path ++ [.name id])).flatMap fun nested =>
        (preorder levels nested.1 nested.2).filter (Visit.liesIn (path ++ .name id :: q)) := by
  have hqid : Path.Leads (.name id :: q) := Path.leads_cons.mpr ⟨Or.inl rfl, hq⟩
  have hown : (path ++ [Segment.name id]).dropLast = path ++ [] := by simp
  have hnot : ¬ Visit.liesIn (path ++ .name id :: q) ⟨id, state, scope, path ++ [.name id]⟩ := by
    intro hlies
    have hfalse := (liesIn_iff hown hpath hplain Path.leads_nil rfl hqid).mp hlies
    simp at hfalse
  rw [List.filter_cons_of_neg hnot, List.filter_flatMap]

/-- The visits that lie in the scope where a visit starts are the states it declares. -/
theorem filter_preorder_here
    (hscope : scope.Proper) (hpath : path.Leads) (hplain : path.plain = path) :
    (preorder (levels + 1) scope path).filter (Visit.liesIn path) =
      declaredVisits scope path := by
  cases hstates : State.declared? scope with
  | none =>
      rw [preorder, hstates, declaredVisits, hstates]
      rfl
  | some states =>
      rw [preorder_succ hstates, List.filter_flatMap, declaredVisits, hstates, Option.getD_some,
        List.map_eq_flatMap]
      refine List.flatMap_congr fun field hmem => ?_
      have hstate := (State.declared?_proper hscope hstates).2 _ hmem
      have hown : (path ++ [Segment.name field.1]).dropLast = path ++ [] := by simp
      have hhere : Visit.liesIn path ⟨field.1, field.2, scope, path ++ [.name field.1]⟩ = true := by
        have hlies := liesIn_iff (v := ⟨field.1, field.2, scope, path ++ [.name field.1]⟩)
          hown hpath hplain Path.leads_nil rfl Path.leads_nil
        rw [List.append_nil] at hlies
        exact hlies.mpr rfl
      rw [List.filter_cons_of_pos hhere]
      congr 1
      rw [List.filter_eq_nil_iff]
      intro v hv hlies
      obtain ⟨c, hc, hleads, hcplain⟩ := dropLast_of_mem_nested hstate hv
      have hbelow : v.path.dropLast = path ++ (.name field.1 :: c) := by simpa using hc
      have hcfield : Path.Leads (.name field.1 :: c) := Path.leads_cons.mpr ⟨Or.inl rfl, hleads⟩
      rw [← List.append_nil path] at hlies
      have hfalse := (liesIn_iff (by simpa using hbelow) hpath hplain hcfield (by simp [hcplain])
        Path.leads_nil).mp hlies
      cases hfalse

/-- The visits that lie in a scope behind a name are visits below the state with that name. -/
theorem filter_preorder_name
    {id : Text} {owner : Value} {q : Path}
    (hscope : scope.Proper)
    (howner : (State.declared? scope).bind (Fields.get? · id) = some owner)
    (hpath : path.Leads) (hplain : path.plain = path) (hq : q.Leads) :
    (preorder (levels + 1) scope path).filter (Visit.liesIn (path ++ .name id :: q)) =
      (State.nestedScopes owner (path ++ [.name id])).flatMap fun nested =>
        (preorder levels nested.1 nested.2).filter (Visit.liesIn (path ++ .name id :: q)) := by
  obtain ⟨states, hstates, hget⟩ := Option.bind_eq_some_iff.mp howner
  obtain ⟨hnames, hproper⟩ := State.declared?_proper hscope hstates
  have hmem := Fields.mem_of_get? hget
  rw [preorder_succ hstates, List.filter_flatMap,
    flatMap_eq_of_key Prod.fst hnames hmem fun field hfield hne =>
      filter_block_of_ne (hproper _ hfield) hpath hplain hq hne,
    filter_block hpath hplain hq]

/-- None of the visits in a branch lie in a scope behind another branch. -/
theorem filter_branch_of_ne
    {s : Segment} {i j : Nat} {q : Path}
    (hscope : scope.Proper) (hpath : path.Leads) (hplain : path.plain = path)
    (hq : q.Leads) (hindex : s.index? = some (i : Int)) (hne : j ≠ i) :
    (preorder levels scope (path ++ [.index j])).filter (Visit.liesIn (path ++ s :: q)) = [] := by
  have hsq : Path.Leads (s :: q) :=
    Path.leads_cons.mpr ⟨Segment.leads_of_index? hindex, hq⟩
  rw [List.filter_eq_nil_iff]
  intro v hv hlies
  obtain ⟨c, hc, hleads, hcplain⟩ := dropLast_of_mem_preorder hscope hv
  have hbelow : v.path.dropLast = path ++ (.index j :: c) := by simpa using hc
  have hcindex : Path.Leads (.index j :: c) := Path.leads_cons.mpr ⟨Or.inr rfl, hleads⟩
  have hfalse := (liesIn_iff hbelow hpath hplain hcindex (by simp [hcplain]) hsq).mp hlies
  simp only [Path.plain_cons, Segment.plain_of_index? hindex, List.cons.injEq,
    Segment.index.injEq, Int.natCast_inj] at hfalse
  exact hne hfalse.1

/-- However the index of a branch is written, the same visits in the branch lie behind it. -/
theorem filter_branch
    {s : Segment} {i : Nat} {q : Path}
    (hscope : scope.Proper) (hpath : path.Leads) (hplain : path.plain = path)
    (hq : q.Leads) (hindex : s.index? = some (i : Int)) :
    (preorder levels scope (path ++ [.index i])).filter (Visit.liesIn (path ++ s :: q)) =
      (preorder levels scope (path ++ [.index i])).filter
        (Visit.liesIn (path ++ [.index i] ++ q)) := by
  have hindexed : Path.Leads (path ++ [.index i]) := Path.leads_concat hpath (Or.inr rfl)
  refine List.filter_congr fun v hv => ?_
  obtain ⟨c, hc, hleads, hcplain⟩ := dropLast_of_mem_preorder hscope hv
  refine liesIn_congr ?_ ?_ ?_ ?_ ?_
  · rw [hc]
    exact Path.leads_append.mpr ⟨hindexed, hleads⟩
  · simp [hc, hplain, hcplain]
  · exact Path.leads_append.mpr
      ⟨hpath, Path.leads_cons.mpr ⟨Segment.leads_of_index? hindex, hq⟩⟩
  · exact Path.leads_append.mpr ⟨hindexed, hq⟩
  · simp [Segment.plain_of_index? hindex]

end FilteredVisits

/-- The visits that lie in one scope are the states that this scope declares, in order, provided
that the visit has levels enough to enter it. -/
theorem filter_preorder
    {scope inner : Value} {b : Path} (h : OwnerPath scope b inner) :
    ∀ (levels : Nat) (path : Path), scope.Proper → path.Leads → path.plain = path →
      (preorder levels scope path).filter (Visit.liesIn (path ++ b)) =
        if b.owners < levels then declaredVisits inner (path ++ b.plain) else [] := by
  induction h with
  | here scope =>
      intro levels path hscope hpath hplain
      cases levels with
      | zero => simp [preorder]
      | succ levels =>
          simpa using filter_preorder_here hscope hpath hplain
  | @map scope id owner rest inner howner hkind hrest ih =>
      intro levels path hscope hpath hplain
      cases levels with
      | zero => simp [preorder]
      | succ levels =>
          have hstate := OwnerPath.owner_proper hscope howner
          rw [filter_preorder_name hscope howner hpath hplain hrest.leads,
            State.flatMap_nestedScopes_map hkind _ _ fun v p hv => by
              simp [preorder_of_not_object levels p hv]]
          have hinner := ih levels (path ++ [.name id]) (State.processor_proper hstate)
            (Path.leads_concat hpath (Or.inl rfl)) (by simp [hplain])
          simpa using hinner
  | @branch scope id owner scopes s i branch rest inner howner hkind hscopes hindex hbranch
      hrest ih =>
      intro levels path hscope hpath hplain
      cases levels with
      | zero => simp [preorder]
      | succ levels =>
          have hstate := OwnerPath.owner_proper hscope howner
          have hproper := State.branches?_proper hstate hscopes
          have hhere : Path.Leads (path ++ [.name id]) := Path.leads_concat hpath (Or.inl rfl)
          have hhereplain : Path.plain (path ++ [.name id]) = path ++ [.name id] := by
            simp [hplain]
          have hsrest : Path.Leads (s :: rest) :=
            Path.leads_cons.mpr ⟨Segment.leads_of_index? hindex, hrest.leads⟩
          have hbranchProper := hproper _ (List.mem_of_getElem? hbranch)
          have hindexed : Path.Leads (path ++ [.name id] ++ [.index i]) :=
            Path.leads_concat hhere (Or.inr rfl)
          rw [filter_preorder_name hscope howner hpath hplain hsrest,
            List.append_cons path (.name id) (s :: rest)]
          -- of all branches only the one at the index contributes
          rw [State.flatMap_nestedScopes_branch hkind _ hscopes hbranch _
              (fun v p hv => by simp [preorder_of_not_object levels p hv])
              (fun other hother j hne => filter_branch_of_ne (hproper _ hother) hhere hhereplain
                hrest.leads hindex hne),
            filter_branch hbranchProper hhere hhereplain hrest.leads hindex,
            ih levels _ hbranchProper hindexed (by simp [hplain])]
          simp [Path.owners_index hindex, Segment.plain_of_index? hindex]

end Workflow
