import Workflow.Proofs.ScopeResolution
import Workflow.Proofs.VisitOrder

/-!
# Where the searches for states agree with a visit

Search by path, search by id and a visit address the states of a workflow with limits of their own:
a visit and a search by id count the owners around a scope, a search by path counts segments.  Where
neither limit is passed the three agree.  They differ at both ends: a chain of Map states reaches
below the last level of a visit on a short path, and the path of a state at the last level, with a
branch index for each owner, is too long by one segment.
-/

namespace Workflow

namespace Segment

theorem eq_name_of_plain
    {s : Segment} {id : Text} (h : s.plain = name id) :
    s = name id := by
  unfold plain at h
  cases hindex : s.index? with
  | none =>
      rw [hindex] at h
      exact h
  | some i =>
      rw [hindex] at h
      cases h

theorem index?_plain
    (s : Segment) :
    s.plain.index? = s.index? := by
  unfold plain
  cases hindex : s.index? with
  | none => exact hindex
  | some i => rfl

theorem name?_plain
    (s : Segment) :
    s.plain.name? = s.name? := by
  unfold plain
  cases hindex : s.index? with
  | none => rfl
  | some i => exact (name?_eq_none_of_index? hindex).symm

end Segment

namespace Path

theorem owners_append
    (p q : Path) :
    owners (p ++ q) = owners p + owners q := by
  simp [owners]

theorem plain_plain
    (p : Path) :
    p.plain.plain = p.plain := by
  have hsegment : ∀ s : Segment, s.plain.plain = s.plain := by
    intro s
    rw [Segment.plain.eq_def s.plain, Segment.index?_plain]
    cases hindex : s.index? with
    | none => rfl
    | some i => exact (Segment.plain_of_index? hindex).symm
  rw [plain, plain, List.map_map]
  exact List.map_congr_left fun s _ => hsegment s

theorem owners_plain
    (p : Path) :
    p.plain.owners = p.owners := by
  rw [plain, owners, List.countP_map]
  exact List.countP_congr fun s _ => by rw [Function.comp_apply, Segment.name?_plain]

end Path

namespace OwnerPath

/-- A path leads where its plain form leads. -/
theorem of_plain
    {scope inner : Value} {c : Path} (h : OwnerPath scope c inner) :
    ∀ {b : Path}, b.plain = c → OwnerPath scope b inner := by
  induction h with
  | here scope =>
      intro b hb
      rw [List.map_eq_nil_iff.mp hb]
      exact OwnerPath.here scope
  | map howner hkind hrest ih =>
      intro b hb
      obtain ⟨s, rest, rfl, hs, hb⟩ := List.map_eq_cons_iff.mp hb
      rw [Segment.eq_name_of_plain hs]
      exact OwnerPath.map howner hkind (ih hb)
  | branch howner hkind hscopes hindex hbranch hrest ih =>
      intro b hb
      obtain ⟨s, rest, rfl, hs, hb⟩ := List.map_eq_cons_iff.mp hb
      obtain ⟨t, rest, rfl, ht, hb⟩ := List.map_eq_cons_iff.mp hb
      rw [← ht, Segment.index?_plain] at hindex
      rw [Segment.eq_name_of_plain hs]
      exact OwnerPath.branch howner hkind hscopes hindex hbranch (ih hb)

/-- An owner takes at most two segments. -/
theorem length_le
    {scope inner : Value} {b : Path} (h : OwnerPath scope b inner) :
    b.length ≤ 2 * b.owners := by
  induction h with
  | here scope => exact Nat.le_refl 0
  | map howner hkind hrest ih =>
      rw [List.length_cons, Path.owners_name]
      omega
  | branch howner hkind hscopes hindex hbranch hrest ih =>
      rw [List.length_cons, List.length_cons, Path.owners_name, Path.owners_index hindex]
      omega

end OwnerPath

section Agreement

variable {root : Value} (hroot : root.Proper)

include hroot

/-- Search by path finds the state that a visit reports, unless the path is too long. -/
theorem findPath_of_visit
    {v : Visit} (hv : v ∈ allStates root) {p : Path} (hp : p.Leads)
    (hsame : Path.same v.path p = true) (hlength : p.length ≤ maxPathLength) :
    findPath root p = some ⟨v.state, v.parent, p, p.dropLast⟩ := by
  obtain ⟨b, hb⟩ := (mem_allStates_iff hroot).mp hv
  rw [Path.same_iff hb.leads hb.path_plain hp, hb.path] at hsame
  obtain ⟨front, last, rfl, hfront, hlast⟩ := List.map_eq_append_iff.mp hsame.symm
  obtain ⟨s, rest, rfl, hs, hrest⟩ := List.map_eq_cons_iff.mp hlast
  rw [List.map_eq_nil_iff.mp hrest, Segment.eq_name_of_plain hs] at hlength ⊢
  obtain ⟨states, hstates, hmem⟩ := hb.state
  have hnames := (State.declared?_proper (hb.scope.proper hroot) hstates).1
  refine findPath_eq_some_iff.mpr ⟨rfl, hlength, v.id, ?_, ?_, ?_⟩
  · rw [List.dropLast_concat]
  · rw [List.dropLast_concat]
    exact hb.scope.of_plain hfront
  · rw [hstates]
    exact Fields.get?_of_mem hnames hmem

/-- A visit reports the state that a search by path finds, unless its scope is nested too deep. -/
theorem exists_visit_of_findPath
    {p : Path} {a : Address} (ha : findPath root p = some a)
    (hdepth : Path.owners p.dropLast ≤ maxNesting) :
    ∃ v ∈ allStates root, Path.same v.path p = true ∧ a = ⟨v.state, v.parent, p, p.dropLast⟩ := by
  obtain ⟨rfl, -, id, hlocated⟩ := findPath_eq_some_iff.mp ha
  have hparent : a.path.dropLast = a.parentPath := by
    rw [hlocated.path_eq, List.dropLast_concat]
  rw [hparent] at hdepth
  obtain ⟨hsiblings, hget⟩ := hlocated.siblings
  have hdeclared : Visit.Declared root a.parentPath.plain
      ⟨id, a.state, a.parent, a.parentPath.plain ++ [.name id]⟩ :=
    { scope := hlocated.scope.plain
      plain := Path.plain_plain _
      depth := by rwa [Path.owners_plain]
      state := ⟨a.siblings, hsiblings, Fields.mem_of_get? hget⟩
      path := rfl }
  refine ⟨_, (mem_allStates_iff hroot).mpr ⟨_, hdeclared⟩, ?_, ?_⟩
  · rw [Path.same_iff hdeclared.leads hdeclared.path_plain hlocated.leads, hlocated.path_eq]
    simp
  · rw [hparent]

/-- What a search by id finds is located by its path, in a scope that is not nested too deep. -/
theorem located_of_searchId
    {id : Text} {a : Address} (levels : Nat) :
    ∀ {b : Path} {scope : Value}, OwnerPath root b scope → b.owners + levels ≤ allLevels →
      searchId id levels scope b = some a →
      a.Located root id ∧ a.parentPath.owners ≤ maxNesting := by
  induction levels with
  | zero =>
      intro b scope _ _ h
      cases h
  | succ levels ih =>
      intro b scope hscope hlevels h
      obtain ⟨states, hstates, ⟨state, hget, rfl⟩ | ⟨field, hfield, nested, hnested, hsearch⟩⟩ :=
        searchId_cases h
      · have hdeclared : (State.declared? scope).bind (Fields.get? · id) = some state := by
          rw [hstates]
          exact hget
        have hdepth : b.owners ≤ maxNesting := by
          unfold allLevels at hlevels
          omega
        exact ⟨⟨rfl, hscope, hdeclared⟩, hdepth⟩
      · obtain ⟨howners, rest, -, hrest, hpath⟩ :=
          hscope.nested (hscope.proper hroot) hstates hfield hnested
        refine ih howners ?_ hsearch
        rw [hpath, Path.owners_append, Path.owners_name, hrest]
        omega

/-- Whatever a reference finds is located by its path. -/
theorem Reference.exists_located
    {reference : Reference} {a : Address} (h : reference.locate root = .ok (some a)) :
    ∃ id, a.Located root id := by
  cases reference with
  | id id =>
      have hlocated := located_of_searchId hroot allLevels (OwnerPath.here root)
        (Nat.le_of_eq (Nat.zero_add _)) (Except.ok.inj h)
      exact ⟨id, hlocated.1⟩
  | path p => exact (findPath_eq_some_iff.mp (findPath_of_findPath? h)).2.2
  | unknown => cases h

/-- The searches agree with a visit, as far as both of their limits reach.  Search by path finds a
state in a scope that is not nested too deep exactly where the path is not too long and a visit
reports this state, with the same scope around it; and as long as its path is not too long, the
state that a search by id finds is found again by its path and has the same variables in scope. -/
theorem searches_agree :
    (∀ p : Path, p.Leads → ∀ a,
        (findPath root p = some a ∧ Path.owners p.dropLast ≤ maxNesting) ↔
          p.length ≤ maxPathLength ∧ ∃ v ∈ allStates root,
            Path.same v.path p = true ∧ a = ⟨v.state, v.parent, p, p.dropLast⟩) ∧
      (∀ v ∈ allStates root, v.path.length ≤ maxPathLength + 1) ∧
      ∀ id a, findId root id [] = some a → a.path.length ≤ maxPathLength →
        findPath root a.path = some a ∧
          ∀ entries, variableScope root entries (.id id) none =
            variableScope root entries (.path a.path) none := by
  refine ⟨?_, ?_, ?_⟩
  · intro p hp a
    constructor
    · rintro ⟨ha, hdepth⟩
      exact ⟨(findPath_eq_some_iff.mp ha).2.1, exists_visit_of_findPath hroot ha hdepth⟩
    · rintro ⟨hlength, v, hv, hsame, rfl⟩
      refine ⟨findPath_of_visit hroot hv hp hsame hlength, ?_⟩
      obtain ⟨b, hb⟩ := (mem_allStates_iff hroot).mp hv
      rw [Path.same_iff hb.leads hb.path_plain hp, hb.path] at hsame
      have hfront : Path.plain p.dropLast = b := by
        rw [Path.plain, List.map_dropLast, ← Path.plain.eq_def, ← hsame, List.dropLast_concat]
      rw [← Path.owners_plain, hfront]
      exact hb.depth
  · intro v hv
    obtain ⟨b, hb⟩ := (mem_allStates_iff hroot).mp hv
    have hle := hb.scope.length_le
    have hdepth := hb.depth
    rw [hb.path, List.length_append, List.length_singleton, maxPathLength]
    omega
  · intro id a ha hlength
    obtain ⟨hlocated, -⟩ :=
      located_of_searchId hroot allLevels (OwnerPath.here root) (Nat.le_of_eq (Nat.zero_add _)) ha
    have hfind : findPath root a.path = some a :=
      findPath_eq_some_iff.mpr ⟨rfl, hlength, id, hlocated⟩
    refine ⟨hfind, fun entries => ?_⟩
    have hbyId : (Reference.id id).locate root = .ok (some a) := by
      rw [Reference.locate, ha]
    have hbyPath : (Reference.path a.path).locate root = .ok (some a) := by
      rw [Reference.locate, findPath?_of_leads hlocated.leads, hfind]
    rw [variableScope_of_locate hbyId hlocated.leads, variableScope_of_locate hbyPath hlocated.leads]

end Agreement

/-- A branch index may be written as a truth value: the state is the one that a visit reports under
the number. -/
theorem searches_agree_truthIndex :
    ∃ v ∈ allStates mixedNesting, v.path = [.name "P", .index 1, .name "A"] ∧
      findPath mixedNesting [.name "P", .other (.bool true), .name "A"] =
        some ⟨v.state, v.parent, [.name "P", .other (.bool true), .name "A"],
          [.name "P", .other (.bool true)]⟩ := by
  have hleads : Path.Leads [.name "P", .other (.bool true), .name "A"] := by
    simp [Path.Leads, Segment.Leads, Segment.name?, Segment.index?, Segment.toValue, Value.index?]
  have hproper : mixedNesting.Proper := by decide
  obtain ⟨-, v, hv, hsame, ha⟩ :=
    ((searches_agree hproper).1 _ hleads _).mp ⟨rfl, by decide⟩
  obtain ⟨b, hb⟩ := (mem_allStates_iff hproper).mp hv
  rw [Path.same_iff hb.leads hb.path_plain hleads] at hsame
  exact ⟨v, hv, hsame, congrArg some ha⟩

/-- A chain of Map states, one inside the other. -/
def nestedMaps : Nat → Value
  | 0 => .obj [("States", .obj [("M", .obj [("Type", .str "Succeed")])])]
  | n + 1 =>
    .obj [("States", .obj [
      ("M", .obj [("Type", .str "Map"), ("ItemProcessor", nestedMaps n)])])]

theorem nestedMaps_proper :
    ∀ n : Nat, (nestedMaps n).Proper
  | 0 => by decide
  | n + 1 => by
      have ih := nestedMaps_proper n
      have hnames : Text.ofString "Type" ≠ Text.ofString "ItemProcessor" := by decide
      simp [nestedMaps, Value.Proper, Value.FieldsProper, Fields.names, ih, hnames]

theorem ownerPath_nestedMaps :
    ∀ n : Nat, OwnerPath (nestedMaps n) (List.replicate n (.name "M")) (nestedMaps 0)
  | 0 => OwnerPath.here _
  | n + 1 => OwnerPath.map rfl rfl (ownerPath_nestedMaps n)

/-- A chain of Parallel states, each in the only branch of the one around it. -/
def nestedBranches : Nat → Value
  | 0 =>
    .obj [("States", .obj [
      ("A", .obj [("Type", .str "Pass"), ("Assign", .obj [("x", .int 1)]), ("Next", .str "B")]),
      ("B", .obj [("Type", .str "Succeed")])])]
  | n + 1 =>
    .obj [("States", .obj [
      ("P", .obj [("Type", .str "Parallel"), ("Branches", .arr [nestedBranches n])])])]

/-- The path of the innermost branch. -/
def branchPath : Nat → Path
  | 0 => []
  | n + 1 => .name "P" :: .index (0 : Nat) :: branchPath n

theorem nestedBranches_proper :
    ∀ n : Nat, (nestedBranches n).Proper
  | 0 => by decide
  | n + 1 => by
      have ih := nestedBranches_proper n
      have hnames : Text.ofString "Type" ≠ Text.ofString "Branches" := by decide
      simp [nestedBranches, Value.Proper, Value.FieldsProper, Value.ItemsProper, Fields.names, ih,
        hnames]

theorem length_branchPath :
    ∀ n : Nat, (branchPath n).length = 2 * n
  | 0 => rfl
  | n + 1 => by
      rw [branchPath, List.length_cons, List.length_cons, length_branchPath n]
      omega

theorem ownerPath_nestedBranches :
    ∀ n : Nat, OwnerPath (nestedBranches n) (branchPath n) (nestedBranches 0)
  | 0 => OwnerPath.here _
  | n + 1 => OwnerPath.branch rfl rfl rfl rfl rfl (ownerPath_nestedBranches n)

/-- The only scope nested in a Parallel state of the chain. -/
theorem nestedScopes_nestedBranches
    (n : Nat) (here : Path) :
    State.nestedScopes
        (.obj [("Type", .str "Parallel"), ("Branches", .arr [nestedBranches n])]) here =
      [(nestedBranches n, here ++ [.index (0 : Nat)])] := by
  cases n with
  | zero => rfl
  | succ n => rfl

/-- A search by id goes to the innermost branch. -/
theorem searchId_nestedBranches :
    ∀ (n levels : Nat) (path : Path), n < levels →
      searchId "B" levels (nestedBranches n) path =
        some ⟨.obj [("Type", .str "Succeed")], nestedBranches 0,
          path ++ branchPath n ++ [.name "B"], path ++ branchPath n⟩
  | 0, levels + 1, path, _ => by
      rw [branchPath, List.append_nil]
      rfl
  | n + 1, levels + 1, path, h => by
      have ih := searchId_nestedBranches n levels (path ++ [.name "P"] ++ [.index (0 : Nat)])
        (Nat.lt_of_succ_lt_succ h)
      have hstates : State.declared? (nestedBranches (n + 1)) = some [(Text.ofString "P",
          Value.obj [("Type", .str "Parallel"), ("Branches", .arr [nestedBranches n])])] := by
        rfl
      have hother : Text.ofString "P" ≠ Text.ofString "B" := by decide
      rw [searchId, hstates]
      simpa [Fields.get?, hother, nestedScopes_nestedBranches, branchPath, Address.isPresent,
        Value.isNull] using ih

/-- The searches differ from a visit beyond its last level and at this level.  Below the last level
of a visit, search by path still finds the states of a chain of Map states.  At the last level of a
chain of Parallel states, it finds neither what a visit reports nor what a search by id finds. -/
theorem searches_differ :
    (∃ a, findPath (nestedMaps (maxNesting + 1))
          (List.replicate (maxNesting + 1) (.name "M") ++ [.name "M"]) = some a ∧
        ∀ v ∈ allStates (nestedMaps (maxNesting + 1)),
          ¬ Path.same v.path
            (List.replicate (maxNesting + 1) (.name "M") ++ [.name "M"]) = true) ∧
      (∃ v ∈ allStates (nestedBranches maxNesting),
        findPath (nestedBranches maxNesting) v.path = none) ∧
      ∃ a, findId (nestedBranches maxNesting) "B" [] = some a ∧ a.isPresent = true ∧
        findPath (nestedBranches maxNesting) a.path = none := by
  have hmaps := ownerPath_nestedMaps (maxNesting + 1)
  have hbranches := ownerPath_nestedBranches maxNesting
  have hlong : findPath (nestedBranches maxNesting) (branchPath maxNesting ++ [.name "B"]) =
      none := by
    rw [Option.eq_none_iff_forall_not_mem]
    intro a ha
    have hlength := (findPath_eq_some_iff.mp ha).2.1
    rw [List.length_append, length_branchPath, List.length_singleton, maxPathLength] at hlength
    omega
  refine ⟨⟨⟨.obj [("Type", .str "Succeed")], nestedMaps 0, _, _⟩,
    findPath_eq_some_iff.mpr ⟨rfl, by decide, "M", rfl, hmaps, rfl⟩, ?_⟩, ?_, ?_⟩
  · -- a visit that reported the state would have its scope at one owner too many
    intro v hv hsame
    obtain ⟨b, hb⟩ := (mem_allStates_iff (nestedMaps_proper _)).mp hv
    have hleads := Path.leads_concat hmaps.leads (s := .name "M") (Or.inl rfl)
    rw [Path.same_iff hb.leads hb.path_plain hleads, hb.path, Path.plain_append] at hsame
    have hdepth := hb.depth
    rw [(List.append_inj' hsame rfl).1] at hdepth
    exact absurd hdepth (by decide)
  · refine ⟨⟨"B", .obj [("Type", .str "Succeed")], nestedBranches 0, _⟩, ?_, hlong⟩
    refine (mem_allStates_iff (nestedBranches_proper _)).mpr
      ⟨branchPath maxNesting, hbranches, by rfl, by decide, ⟨_, rfl, ?_⟩, rfl⟩
    exact List.mem_cons_of_mem _ List.mem_cons_self
  · exact ⟨_, searchId_nestedBranches maxNesting allLevels [] (Nat.lt_succ_self _), rfl, hlong⟩

end Workflow
