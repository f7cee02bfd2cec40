import Workflow.Proofs.ReverseAdjacency
import Workflow.Proofs.VisitOrder

/-!
# The entries of the reverse adjacency

A workflow has an entry for a scope path and an id exactly when a state of the scope at this path
has the id among its successors, and the entry lists all these states.  The entries are keyed: each
edge that is added either meets the entry of its target or makes a new one at the end.

Entries of different scopes cannot meet, because no two scopes that a visit enters share a path.
-/

namespace Workflow

namespace Predecessors

/-- What the entries are found by: the path of a scope and an id. -/
def keys (entries : Predecessors) : List (Path × Text) :=
  entries.map fun entry => (entry.scope, entry.target)

/-- An edge meets the entry with its key, or makes one at the end. -/
theorem keys_addEdge
    {entries : Predecessors} {scope : Path}
    (hentries : Plain entries) (hscope : scope.Leads) (hplain : scope.plain = scope)
    (source target : Text) :
    ((scope, target) ∈ keys entries ∧
        keys (addEdge entries scope source target) = keys entries) ∨
      ((scope, target) ∉ keys entries ∧
        keys (addEdge entries scope source target) = keys entries ++ [(scope, target)]) := by
  induction entries with
  | nil => exact Or.inr ⟨List.not_mem_nil, rfl⟩
  | cons first rest ih =>
      obtain ⟨hleads, hfirst⟩ := hentries first List.mem_cons_self
      have hrest : Plain rest := fun entry hmem => hentries entry (List.mem_cons_of_mem _ hmem)
      have hmatch : (first.target == target && Path.same first.scope scope) = true ↔
          (scope, target) = (first.scope, first.target) := by
        rw [Bool.and_eq_true, beq_iff_eq, Path.same_iff hleads hfirst hscope, hplain,
          Prod.mk.injEq, and_comm, eq_comm, @eq_comm _ first.target]
      rw [addEdge]
      by_cases hkey : (scope, target) = (first.scope, first.target)
      · rw [if_pos (hmatch.mpr hkey)]
        refine Or.inl ⟨?_, ?_⟩
        · rw [hkey]
          exact List.mem_cons_self
        · split
          · rfl
          · rfl
      · rw [if_neg (fun h => hkey (hmatch.mp h))]
        simp only [keys, List.map_cons, List.mem_cons, hkey, false_or, List.cons_append,
          List.cons.injEq, true_and]
        exact ih hrest

/-- One edge keeps the keys different and adds its own. -/
theorem addEdge_keyed
    {entries : Predecessors} {scope : Path}
    (hentries : Plain entries) (hscope : scope.Leads) (hplain : scope.plain = scope)
    (source target : Text) (hkeys : (keys entries).Nodup) :
    (keys (addEdge entries scope source target)).Nodup ∧
      ∀ key, key ∈ keys (addEdge entries scope source target) ↔
        key ∈ keys entries ∨ key = (scope, target) := by
  rcases keys_addEdge hentries hscope hplain source target with ⟨hknown, heq⟩ | ⟨hnew, heq⟩
  · rw [heq]
    refine ⟨hkeys, fun key => ⟨Or.inl, ?_⟩⟩
    rintro (h | rfl)
    · exact h
    · exact hknown
  · rw [heq]
    refine ⟨?_, fun key => by simp⟩
    exact List.nodup_append.mpr ⟨hkeys, List.nodup_singleton _, fun key hkey other hother => by
      rw [List.mem_singleton] at hother
      rintro rfl
      exact hnew (hother ▸ hkey)⟩

/-- The edges of one state keep the keys different and add a key for each successor. -/
theorem foldl_addEdge_keyed
    {scope : Path} (hscope : scope.Leads) (hplain : scope.plain = scope) (source : Text)
    (targets : List Text) :
    ∀ {entries : Predecessors}, Plain entries → (keys entries).Nodup →
      (keys (targets.foldl (fun entries target => addEdge entries scope source target)
          entries)).Nodup ∧
      ∀ key, key ∈ keys (targets.foldl
            (fun entries target => addEdge entries scope source target) entries) ↔
        key ∈ keys entries ∨ key.1 = scope ∧ key.2 ∈ targets := by
  induction targets with
  | nil =>
      intro entries _ hkeys
      exact ⟨hkeys, fun key => by simp⟩
  | cons target targets ih =>
      intro entries hentries hkeys
      obtain ⟨hnodup, hadded⟩ := addEdge_keyed hentries hscope hplain source target hkeys
      obtain ⟨hnodup, hall⟩ := ih (addEdge_plain hscope hplain source target hentries) hnodup
      refine ⟨hnodup, fun key => ?_⟩
      rw [List.foldl_cons, hall, hadded, or_assoc, Prod.ext_iff, List.mem_cons]
      tauto

/-- A run over visits keeps the keys different and adds one for each edge of each visit. -/
theorem foldl_addVisit_keyed
    (visits : List Visit)
    (hvisits : ∀ v ∈ visits,
      Path.Leads v.path.dropLast ∧ Path.plain v.path.dropLast = v.path.dropLast) :
    ∀ {entries : Predecessors}, Plain entries → (keys entries).Nodup →
      Plain (visits.foldl addVisit entries) ∧ (keys (visits.foldl addVisit entries)).Nodup ∧
      ∀ key, key ∈ keys (visits.foldl addVisit entries) ↔
        key ∈ keys entries ∨
          ∃ v ∈ visits, key.1 = v.path.dropLast ∧ key.2 ∈ State.nextIds v.state := by
  induction visits with
  | nil =>
      intro entries hentries hkeys
      exact ⟨hentries, hkeys, fun key => by simp⟩
  | cons v visits ih =>
      intro entries hentries hkeys
      obtain ⟨hleads, hplain⟩ := hvisits v List.mem_cons_self
      have hplains : Plain (addVisit entries v) :=
        (foldl_addEdge v.id v.id hleads hplain Path.leads_nil (State.nextIds v.state) hentries).1
      have hone := foldl_addEdge_keyed hleads hplain v.id (State.nextIds v.state) hentries hkeys
      obtain ⟨hrest, hnodup, hall⟩ :=
        ih (fun w hw => hvisits w (List.mem_cons_of_mem _ hw)) hplains hone.1
      refine ⟨hrest, hnodup, fun key => ?_⟩
      have hadded : key ∈ keys (addVisit entries v) ↔
          key ∈ keys entries ∨ key.1 = v.path.dropLast ∧ key.2 ∈ State.nextIds v.state :=
        hone.2 key
      rw [List.foldl_cons, hall, hadded, or_assoc]
      simp

/-- With different keys, the look-up for the key of an entry finds this entry. -/
theorem sources_of_mem
    {entries : Predecessors} (hentries : Plain entries) (hkeys : (keys entries).Nodup)
    {entry : Incoming} (hmem : entry ∈ entries) :
    sources entries entry.scope entry.target = entry.sources := by
  induction entries with
  | nil => exact absurd hmem List.not_mem_nil
  | cons first rest ih =>
      have hrest : Plain rest := fun other hother => hentries other (List.mem_cons_of_mem _ hother)
      obtain ⟨hleads, hfirst⟩ := hentries first List.mem_cons_self
      rw [keys, List.map_cons, List.nodup_cons] at hkeys
      rw [sources_cons]
      rcases List.mem_cons.mp hmem with rfl | hlater
      · rw [beq_self_eq_true, Path.same_self hleads]
        rfl
      · obtain ⟨hentryLeads, hentryPlain⟩ := hrest entry hlater
        rw [if_neg, ih hrest hkeys.2 hlater]
        intro hmatch
        rw [Bool.and_eq_true, beq_iff_eq, Path.same_iff hleads hfirst hentryLeads,
          hentryPlain] at hmatch
        refine hkeys.1 ?_
        rw [hmatch.1, hmatch.2]
        exact List.mem_map.mpr ⟨entry, hlater, rfl⟩

end Predecessors

/-- The scopes that a visit comes to, whether they have states or not, with their paths: a scope,
followed by the scopes nested in its states. -/
def reachedScopes : Nat → Value → Path → List (Value × Path)
  | 0, _, _ => []
  | levels + 1, scope, path =>
    (scope, path) ::
      ((State.declared? scope).getD []).flatMap fun (id, state) =>
        (State.nestedScopes state (path ++ [.name id])).flatMap fun (inner, innerPath) =>
          reachedScopes levels inner innerPath

/-- A visit comes to a scope itself and to what it comes to from the states declared there. -/
theorem mem_reachedScopes_iff
    {levels : Nat} {scope : Value} {path : Path} {s : Value × Path} :
    s ∈ reachedScopes (levels + 1) scope path ↔
      s = (scope, path) ∨ ∃ states, State.declared? scope = some states ∧ ∃ field ∈ states,
        ∃ nested ∈ State.nestedScopes field.2 (path ++ [.name field.1]),
          s ∈ reachedScopes levels nested.1 nested.2 := by
  rw [reachedScopes, List.mem_cons]
  cases State.declared? scope with
  | none => simp
  | some states => simp only [Option.getD_some, List.mem_flatMap, Option.some.injEq,
      exists_eq_left']

/-- The scopes that a visit comes to stand at the ends of plain owner paths, below the scope where
it starts. -/
theorem ownerPath_of_mem_reachedScopes
    {root : Value} (hroot : root.Proper) (levels : Nat) :
    ∀ {b : Path} {scope : Value}, OwnerPath root b scope → b.plain = b →
      ∀ s ∈ reachedScopes levels scope b,
        OwnerPath root s.2 s.1 ∧ s.2.plain = s.2 ∧ ∃ rest, s.2 = b ++ rest := by
  induction levels with
  | zero => exact fun _ _ s hs => absurd hs List.not_mem_nil
  | succ levels ih =>
      intro b scope hscope hplain s hs
      rcases mem_reachedScopes_iff.mp hs with rfl | ⟨states, hstates, field, hfield, nested,
        hnested, hs⟩
      · exact ⟨hscope, hplain, [], (List.append_nil b).symm⟩
      · obtain ⟨howners, front, hfront, -, hpath⟩ :=
          hscope.nested (hscope.proper hroot) hstates hfield hnested
        obtain ⟨hinner, hsplain, rest, hrest⟩ :=
          ih howners (by simp [hpath, hplain, hfront]) s hs
        exact ⟨hinner, hsplain, .name field.1 :: front ++ rest, by simp [hrest, hpath]⟩

/-- The scopes with states that a visit enters, with their paths: a scope, followed by the scopes
nested in its states. -/
def visitedScopes : Nat → Value → Path → List (Value × Path)
  | 0, _, _ => []
  | levels + 1, scope, path =>
    match State.declared? scope with
    | none => []
    | some states =>
      (scope, path) ::
        states.flatMap fun (id, state) =>
          (State.nestedScopes state (path ++ [.name id])).flatMap fun (inner, innerPath) =>
            visitedScopes levels inner innerPath

/-- A visit reports the states of the scopes that it enters. -/
theorem mem_preorder_iff_visitedScopes
    {v : Visit} (levels : Nat) :
    ∀ (scope : Value) (path : Path),
      v ∈ preorder levels scope path ↔
        ∃ s ∈ visitedScopes levels scope path, v ∈ declaredVisits s.1 s.2 := by
  induction levels with
  | zero =>
      intro scope path
      simp [preorder, visitedScopes]
  | succ levels ih =>
      intro scope path
      rw [preorder, visitedScopes]
      cases hstates : State.declared? scope with
      | none => simp
      | some states =>
          have hhere : v ∈ declaredVisits scope path ↔
              ∃ id state, (id, state) ∈ states ∧ v = ⟨id, state, scope, path ++ [.name id]⟩ := by
            simp [declaredVisits, hstates, eq_comm]
          simp only [List.mem_flatMap, List.mem_cons, Prod.exists, ih, exists_eq_or_imp, hhere,
            and_or_left, exists_or]
          constructor
          · rintro (h | ⟨id, state, hmem, outer, q, hnested, inner, p, hs, hv⟩)
            · exact Or.inl h
            · exact Or.inr ⟨inner, p, ⟨id, state, hmem, outer, q, hnested, hs⟩, hv⟩
          · rintro (h | ⟨inner, p, ⟨id, state, hmem, outer, q, hnested, hs⟩, hv⟩)
            · exact Or.inl h
            · exact Or.inr ⟨id, state, hmem, outer, q, hnested, inner, p, hs, hv⟩

/-- The scopes that a visit enters are those with states among the scopes that it comes to. -/
theorem visitedScopes_eq_filter
    (levels : Nat) :
    ∀ (scope : Value) (path : Path), visitedScopes levels scope path =
      (reachedScopes levels scope path).filter fun s => (State.declared? s.1).isSome := by
  induction levels with
  | zero => exact fun _ _ => rfl
  | succ levels ih =>
      intro scope path
      rw [visitedScopes, reachedScopes]
      cases hstates : State.declared? scope with
      | none => simp [hstates]
      | some states =>
          rw [List.filter_cons_of_pos (by simp [hstates])]
          simp only [Option.getD_some, List.filter_flatMap, ih]

theorem ownerPath_of_mem_visitedScopes
    {root : Value} (hroot : root.Proper) (levels : Nat) {b : Path} {scope : Value}
    (hscope : OwnerPath root b scope) (hplain : b.plain = b) :
    ∀ s ∈ visitedScopes levels scope b,
      OwnerPath root s.2 s.1 ∧ s.2.plain = s.2 ∧ ∃ rest, s.2 = b ++ rest := by
  intro s hs
  rw [visitedScopes_eq_filter] at hs
  exact ownerPath_of_mem_reachedScopes hroot levels hscope hplain s (List.mem_of_mem_filter hs)

/-- A visit comes to the scopes in the order of their paths. -/
theorem visitedScopes_sorted
    {root : Value} (hroot : root.Proper) (levels : Nat) :
    ∀ {b : Path} {scope : Value}, OwnerPath root b scope → b.plain = b →
      ((visitedScopes levels scope b).map Prod.snd).Pairwise (Precedes root) := by
  induction levels with
  | zero =>
      intro b scope _ _
      exact List.Pairwise.nil
  | succ levels ih =>
      intro b scope hscope hplain
      have hproper := hscope.proper hroot
      rw [visitedScopes]
      cases hstates : State.declared? scope with
      | none => exact List.Pairwise.nil
      | some states =>
          -- the scopes below one state, from the induction on the levels
          have hblock := fun field (hfield : field ∈ states) =>
            paths_of_nestedScopes (k := 0) (f := fun nested =>
              (visitedScopes levels nested.1 nested.2).map Prod.snd) hscope hproper hstates
              hfield fun nested hnested => by
                obtain ⟨howners, rest, hrest, -, hpath⟩ :=
                  hscope.nested hproper hstates hfield hnested
                have hnestedPlain : Path.plain nested.2 = nested.2 := by
                  simp [hpath, hplain, hrest]
                refine ⟨ih howners hnestedPlain, fun p hp => ?_⟩
                obtain ⟨s, hs, rfl⟩ := List.mem_map.mp hp
                obtain ⟨-, -, rest, hrest⟩ :=
                  ownerPath_of_mem_visitedScopes hroot levels howners hnestedPlain s hs
                exact ⟨rest, Nat.zero_le _, hrest⟩
          simp only [List.map_cons, List.map_flatMap]
          refine List.pairwise_cons.mpr ⟨fun p hp => ?_, ?_⟩
          · obtain ⟨field, hfield, hp⟩ := List.mem_flatMap.mp hp
            obtain ⟨rest, -, rfl⟩ := (hblock field hfield).2 p hp
            exact Precedes.below b (List.cons_ne_nil _ _)
          · refine pairwise_of_states hscope hstates (fun field hfield p hp => ?_)
              fun field hfield => (hblock field hfield).1
            obtain ⟨rest, -, hp⟩ := (hblock field hfield).2 p hp
            exact ⟨rest, hp⟩

section Exactness

variable {root : Value} (hroot : root.Proper)

include hroot

/-- No two scopes that a visit enters have paths that address the same scope. -/
theorem visitedScopes_distinct :
    (visitedScopes allLevels root []).Pairwise fun s t => Path.same s.2 t.2 = false := by
  have hsorted := visitedScopes_sorted hroot allLevels (OwnerPath.here root) Path.plain_nil
  have howners :=
    ownerPath_of_mem_visitedScopes hroot allLevels (OwnerPath.here root) Path.plain_nil
  refine (List.pairwise_map.mp hsorted).imp_of_mem fun {s t} hs ht horder => ?_
  obtain ⟨hs, hsplain, -⟩ := howners s hs
  obtain ⟨ht, htplain, -⟩ := howners t ht
  rw [Bool.eq_false_iff, ne_eq, Path.same_iff hs.leads hsplain ht.leads, htplain]
  exact horder.ne hroot

/-- A scope that a visit enters is entered before a given one, is this one, or has a path that
comes later. -/
theorem visitedScopes_cases
    {before after : List (Value × Path)} {s : Value × Path}
    (hsplit : visitedScopes allLevels root [] = before ++ s :: after)
    {t : Value × Path} (ht : t ∈ visitedScopes allLevels root []) :
    t ∈ before ∨ t = s ∨ Precedes root s.2 t.2 := by
  have hsorted := visitedScopes_sorted hroot allLevels (OwnerPath.here root) Path.plain_nil
  rw [hsplit, List.map_append, List.map_cons, List.pairwise_append, List.pairwise_cons] at hsorted
  rw [hsplit, List.mem_append, List.mem_cons] at ht
  rcases ht with hbefore | hhere | hafter
  · exact Or.inl hbefore
  · exact Or.inr (Or.inl hhere)
  · exact Or.inr (Or.inr (hsorted.2.1.1 _ (List.mem_map_of_mem hafter)))

/-- The scope of every visit stands under a plain path. -/
theorem dropLast_of_mem_allStates :
    ∀ v ∈ allStates root,
      Path.Leads v.path.dropLast ∧ Path.plain v.path.dropLast = v.path.dropLast := by
  intro v hv
  obtain ⟨b, hb⟩ := (mem_allStates_iff hroot).mp hv
  rw [hb.path, List.dropLast_concat]
  exact ⟨hb.scope.leads, hb.plain⟩

/-- A key stands for an edge of a scope that is nested no deeper than a visit goes. -/
theorem mem_keys_ofWorkflow_iff
    {b : Path} {target : Text} :
    (b, target) ∈ (Predecessors.ofWorkflow root).keys ↔
      ∃ scope, OwnerPath root b scope ∧ b.plain = b ∧ b.owners ≤ maxNesting ∧
        ∃ source, source ∈ State.predecessorsIn scope target := by
  have hkeys := (Predecessors.foldl_addVisit_keyed (allStates root)
    (dropLast_of_mem_allStates hroot) Predecessors.plain_nil List.nodup_nil).2.2 (b, target)
  simp only [Predecessors.keys, List.map_nil, List.not_mem_nil, false_or] at hkeys
  rw [Predecessors.ofWorkflow, Predecessors.keys, hkeys]
  constructor
  · rintro ⟨v, hv, rfl, hnext⟩
    obtain ⟨b, hdeclared⟩ := (mem_allStates_iff hroot).mp hv
    obtain ⟨states, hstates, hmem⟩ := hdeclared.state
    rw [hdeclared.path, List.dropLast_concat]
    refine ⟨v.parent, hdeclared.scope, hdeclared.plain, hdeclared.depth, v.id, ?_⟩
    have hnames := State.declared?_proper (hdeclared.scope.proper hroot) hstates
    exact (State.mem_predecessorsIn_iff hstates hnames.1).mpr
      ⟨v.state, Fields.get?_of_mem hnames.1 hmem, hnext⟩
  · rintro ⟨scope, hscope, hplain, hdepth, source, hsource⟩
    cases hstates : State.declared? scope with
    | none => simp [State.predecessorsIn, hstates] at hsource
    | some states =>
        have hnames := State.declared?_proper (hscope.proper hroot) hstates
        obtain ⟨state, hget, hnext⟩ := (State.mem_predecessorsIn_iff hstates hnames.1).mp hsource
        refine ⟨⟨source, state, scope, b ++ [.name source]⟩, ?_, ?_, hnext⟩
        · exact (mem_allStates_iff hroot).mpr
            ⟨b, hscope, hplain, hdepth, ⟨states, hstates, Fields.mem_of_get? hget⟩, rfl⟩
        · exact (List.dropLast_concat).symm

/-- The reverse adjacency is exact.  It has an entry for a scope path and an id exactly when a state
of the scope at this path has the id among its successors, and an entry lists all these states in
declaration order.  Neither two entries nor two scopes that a visit enters are found by the same
path. -/
theorem reverseAdjacency_exact :
    (∀ b target, (∃ sources, ⟨b, target, sources⟩ ∈ Predecessors.ofWorkflow root) ↔
        ∃ scope, OwnerPath root b scope ∧ b.plain = b ∧ b.owners ≤ maxNesting ∧
          ∃ id state, (State.declared? scope).bind (Fields.get? · id) = some state ∧
            target ∈ State.nextIds state) ∧
      (∀ entry ∈ Predecessors.ofWorkflow root, ∀ scope, OwnerPath root entry.scope scope →
        entry.sources = State.predecessorsIn scope entry.target ∧ entry.sources.Nodup) ∧
      ((Predecessors.ofWorkflow root).Pairwise fun entry other =>
        (entry.target == other.target && Path.same entry.scope other.scope) = false) ∧
      (∀ v, v ∈ allStates root ↔
        ∃ s ∈ visitedScopes allLevels root [], v ∈ declaredVisits s.1 s.2) ∧
      (visitedScopes allLevels root []).Pairwise fun s t => Path.same s.2 t.2 = false := by
  obtain ⟨hplain, hnodup, -⟩ := Predecessors.foldl_addVisit_keyed (allStates root)
    (dropLast_of_mem_allStates hroot) Predecessors.plain_nil List.nodup_nil
  refine ⟨?_, ?_, ?_, fun v => mem_preorder_iff_visitedScopes _ _ _,
    visitedScopes_distinct hroot⟩
  · intro b target
    have hentry : (∃ sources, (⟨b, target, sources⟩ : Incoming) ∈ Predecessors.ofWorkflow root) ↔
        (b, target) ∈ (Predecessors.ofWorkflow root).keys := by
      simp only [Predecessors.keys, List.mem_map, Prod.mk.injEq]
      constructor
      · rintro ⟨sources, hmem⟩
        exact ⟨_, hmem, rfl, rfl⟩
      · rintro ⟨⟨_, _, sources⟩, hmem, rfl, rfl⟩
        exact ⟨sources, hmem⟩
    rw [hentry, mem_keys_ofWorkflow_iff hroot]
    refine exists_congr fun scope => and_congr_right fun hscope => ?_
    rw [← and_assoc, ← and_assoc]
    refine and_congr_right fun _ => exists_congr fun source => ?_
    cases hstates : State.declared? scope with
    | none => simp [State.predecessorsIn, hstates]
    | some states =>
        have hnames := (State.declared?_proper (hscope.proper hroot) hstates).1
        rw [State.mem_predecessorsIn_iff hstates hnames]
        rfl
  · intro entry hmem scope hscope
    have hkey : (entry.scope, entry.target) ∈ (Predecessors.ofWorkflow root).keys :=
      List.mem_map.mpr ⟨entry, hmem, rfl⟩
    obtain ⟨-, -, -, hdepth, -⟩ := (mem_keys_ofWorkflow_iff hroot).mp hkey
    have hsources := Predecessors.sources_of_mem hplain hnodup hmem
    rw [← Predecessors.ofWorkflow, sources_ofWorkflow hroot hscope, if_pos hdepth] at hsources
    rw [← hsources]
    exact ⟨rfl, State.predecessorsIn_nodup (hscope.proper hroot) _⟩
  · refine (List.pairwise_map.mp hnodup).imp_of_mem fun {entry other} hentry hother hkey => ?_
    obtain ⟨hleads, hentryPlain⟩ := hplain entry hentry
    obtain ⟨hotherLeads, hotherPlain⟩ := hplain other hother
    rw [Bool.eq_false_iff, ne_eq, Bool.and_eq_true, beq_iff_eq,
      Path.same_iff hleads hentryPlain hotherLeads, hotherPlain]
    rintro ⟨htarget, hscope⟩
    exact hkey (by rw [htarget, hscope])

end Exactness

/-- Two branches with an equal id, which different states lead to; one of them twice. -/
def sameIdsInBranches : Value :=
  .obj [("States", .obj [("P", .obj [("Type", .str "Parallel"), ("Branches", .arr [
    .obj [("States", .obj [
      ("A", .obj [("Type", .str "Pass"), ("Next", .str "B")]), ("B", .obj [])])],
    .obj [("States", .obj [
      ("C", .obj [("Type", .str "Choice"), ("Default", .str "B"),
        ("Choices", .arr [.obj [("Next", .str "B")]])]), ("B", .obj [])])]])])])]

/-- Each branch has its own entry for the id. -/
theorem reverseAdjacency_exact_sameIdsInBranches :
    Predecessors.ofWorkflow sameIdsInBranches =
        [⟨[.name "P", .index 0], "B", ["A"]⟩, ⟨[.name "P", .index 1], "B", ["C"]⟩] ∧
      ∀ entry ∈ Predecessors.ofWorkflow sameIdsInBranches, ∀ scope,
        OwnerPath sameIdsInBranches entry.scope scope →
          entry.sources = State.predecessorsIn scope entry.target ∧ entry.sources.Nodup :=
  ⟨rfl, (reverseAdjacency_exact (by decide)).2.1⟩

end Workflow
