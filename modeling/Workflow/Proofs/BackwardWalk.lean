import Mathlib.Data.List.TakeWhile
import Workflow.Proofs.SuccessorEdges
import Workflow.Scope.Resolve

/-!
# The backward walk

The walk keeps a stack of pending edges and a list of the edges that it has followed.  `followed`
is the list of edges that it follows, in order; the tree that it computes lays what these edges
bind over each other.

* No edge is followed twice.
* With a budget of all edges of the reverse adjacency, the edges that are followed are exactly
  those that lead to the start through sources which may bind variables.
* The order and the choice of edges depend on nothing but the edges of the scope and on which of
  their sources may bind variables.
-/

namespace Workflow

/-- Where a search stops, what it skipped and what is left. -/
theorem dropWhile_eq_cons
    {α : Type} {p : α → Bool} {l : List α} {x : α} {rest : List α}
    (h : l.dropWhile p = x :: rest) :
    ¬ p x = true ∧ ∃ skipped, l = skipped ++ x :: rest ∧ ∀ y ∈ skipped, p y = true := by
  refine ⟨?_, l.takeWhile p, ?_, fun y hy => List.mem_takeWhile_imp hy⟩
  · have hne : l.dropWhile p ≠ [] := by
      rw [h]
      exact List.cons_ne_nil x rest
    have hhead := List.head_dropWhile_not p hne
    simp only [h, List.head_cons] at hhead
    simp [hhead]
  · rw [← h, List.takeWhile_append_dropWhile]

namespace Walk

/-- Whether the source of an edge may bind variables. -/
def binds (walk : Walk) (edge : ScopeEdge) : Bool :=
  State.bindsVariables ((walk.states.get? edge.1).getD .null)

theorem isStale_iff
    {walk : Walk} {seen : List ScopeEdge} {edge : ScopeEdge} :
    walk.isStale seen edge = true ↔ edge ∈ seen ∨ walk.binds edge = false := by
  unfold isStale binds
  simp

/-- The edges that a walk follows, in order. -/
def followed (walk : Walk) : Nat → List ScopeEdge → List ScopeEdge → List ScopeEdge
  | 0, _, _ => []
  | budget + 1, pending, seen =>
    match pending.dropWhile (walk.isStale seen) with
    | [] => []
    | edge :: rest => edge :: followed walk budget (walk.edgesTo edge.1 ++ rest) (edge :: seen)

theorem followed_of_stale
    {walk : Walk} {pending seen : List ScopeEdge}
    (h : pending.dropWhile (walk.isStale seen) = []) (budget : Nat) :
    walk.followed budget pending seen = [] := by
  cases budget with
  | zero => rfl
  | succ budget => rw [followed, h]

theorem followed_of_fresh
    {walk : Walk} {pending seen : List ScopeEdge} {edge : ScopeEdge} {rest : List ScopeEdge}
    (h : pending.dropWhile (walk.isStale seen) = edge :: rest) (budget : Nat) :
    walk.followed (budget + 1) pending seen =
      edge :: walk.followed budget (walk.edgesTo edge.1 ++ rest) (edge :: seen) := by
  rw [followed, h]

/-- The tree of a walk lays the bindings of the edges it follows over each other. -/
theorem explore_eq_foldl
    (walk : Walk) (budget : Nat) :
    ∀ (pending seen : List ScopeEdge) (tree : Value),
      walk.explore budget pending seen tree =
        (walk.followed budget pending seen).foldl
          (fun tree edge => KeyTree.merge tree (walk.bound edge)) tree := by
  induction budget with
  | zero =>
      intro pending seen tree
      rfl
  | succ budget ih =>
      intro pending seen tree
      rw [explore]
      cases hpending : pending.dropWhile (walk.isStale seen) with
      | nil =>
          rw [followed_of_stale hpending]
          rfl
      | cons edge rest =>
          rw [followed_of_fresh hpending, List.foldl_cons]
          exact ih _ _ _

/-- No edge is followed twice, and none that was followed before. -/
theorem followed_nodup
    (walk : Walk) (budget : Nat) :
    ∀ pending seen : List ScopeEdge,
      (walk.followed budget pending seen).Nodup ∧
        ∀ edge ∈ walk.followed budget pending seen, edge ∉ seen := by
  induction budget with
  | zero =>
      intro pending seen
      exact ⟨List.nodup_nil, fun edge h => absurd h List.not_mem_nil⟩
  | succ budget ih =>
      intro pending seen
      cases hpending : pending.dropWhile (walk.isStale seen) with
      | nil =>
          rw [followed_of_stale hpending]
          exact ⟨List.nodup_nil, fun edge h => absurd h List.not_mem_nil⟩
      | cons edge rest =>
          rw [followed_of_fresh hpending]
          obtain ⟨hnodup, hnew⟩ := ih (walk.edgesTo edge.1 ++ rest) (edge :: seen)
          have hfresh := (dropWhile_eq_cons hpending).1
          rw [isStale_iff, not_or] at hfresh
          refine ⟨List.nodup_cons.mpr ⟨?_, hnodup⟩, ?_⟩
          · intro hagain
            exact hnew edge hagain List.mem_cons_self
          · intro other hother
            rcases List.mem_cons.mp hother with rfl | hother
            · exact hfresh.1
            · exact fun hseen => hnew other hother (List.mem_cons_of_mem _ hseen)

/-- The edges that lead to some first edges through sources which may bind variables. -/
inductive Reaches (walk : Walk) (start : List ScopeEdge) : ScopeEdge → Prop
  | first
      {edge : ScopeEdge} (hstart : edge ∈ start) (hbinds : walk.binds edge = true) :
      Reaches walk start edge
  | back
      {edge earlier : ScopeEdge} (hnext : Reaches walk start edge)
      (hedge : earlier ∈ walk.edgesTo edge.1) (hbinds : walk.binds earlier = true) :
      Reaches walk start earlier

/-- Only edges that lead to the start are followed. -/
theorem followed_sound
    {walk : Walk} {start : List ScopeEdge} (budget : Nat) :
    ∀ pending seen : List ScopeEdge,
      (∀ edge ∈ pending, walk.binds edge = true → walk.Reaches start edge) →
      ∀ edge ∈ walk.followed budget pending seen, walk.Reaches start edge := by
  induction budget with
  | zero =>
      intro pending seen hpending edge h
      exact absurd h List.not_mem_nil
  | succ budget ih =>
      intro pending seen hreach edge h
      cases hpending : pending.dropWhile (walk.isStale seen) with
      | nil =>
          rw [followed_of_stale hpending] at h
          exact absurd h List.not_mem_nil
      | cons next rest =>
          rw [followed_of_fresh hpending] at h
          obtain ⟨hfresh, skipped, hsplit, -⟩ := dropWhile_eq_cons hpending
          rw [isStale_iff, not_or, Bool.not_eq_false] at hfresh
          have hnext : walk.Reaches start next := by
            refine hreach next ?_ hfresh.2
            simp [hsplit]
          rcases List.mem_cons.mp h with rfl | h
          · exact hnext
          · refine ih _ _ ?_ edge h
            intro other hother hbinds
            rcases List.mem_append.mp hother with hedge | hrest
            · exact Reaches.back hnext hedge hbinds
            · refine hreach other ?_ hbinds
              simp [hsplit, hrest]

/-- All edges of the reverse adjacency, whatever their scope. -/
def allEdges (walk : Walk) : List ScopeEdge :=
  walk.entries.flatMap fun entry => entry.sources.map fun source => (source, entry.target)

theorem length_allEdges
    (walk : Walk) :
    walk.allEdges.length = walk.entries.edgeCount := by
  rw [allEdges, List.length_flatMap, List.sum_eq_foldr, List.foldr_map]
  simp only [List.length_map]
  rfl

/-- The edges to a state are those of one entry. -/
theorem edgesTo_sublist
    (walk : Walk) (target : Text) :
    (walk.edgesTo target).reverse.Sublist walk.allEdges := by
  rw [edgesTo, ← List.map_reverse, List.reverse_reverse, Predecessors.sources]
  cases hfind : walk.entries.find? fun entry =>
      entry.target == target && Path.same entry.scope walk.path with
  | none => exact List.nil_sublist _
  | some entry =>
      have hmatch := List.find?_some hfind
      rw [Bool.and_eq_true, beq_iff_eq] at hmatch
      rw [← hmatch.1, allEdges, List.flatMap]
      refine List.sublist_flatten_of_mem ?_
      exact List.mem_map.mpr ⟨entry, List.mem_of_find?_eq_some hfind, rfl⟩

theorem edgesTo_subset
    (walk : Walk) (target : Text) :
    walk.edgesTo target ⊆ walk.allEdges := by
  intro edge h
  exact (walk.edgesTo_sublist target).subset (List.mem_reverse.mpr h)

theorem length_edgesTo_le
    (walk : Walk) (target : Text) :
    (walk.edgesTo target).length ≤ walk.entries.edgeCount := by
  rw [← length_allEdges, ← List.length_reverse]
  exact (walk.edgesTo_sublist target).length_le

/-- The number of edges that have not been followed yet. -/
def remaining (walk : Walk) (seen : List ScopeEdge) : Nat :=
  (walk.allEdges.filter fun edge => !seen.contains edge).length

theorem remaining_nil_le
    (walk : Walk) :
    walk.remaining [] ≤ walk.entries.edgeCount := by
  rw [← length_allEdges]
  exact List.length_filter_le _ _

/-- Following an edge leaves fewer edges. -/
theorem remaining_cons_lt
    {walk : Walk} {seen : List ScopeEdge} {edge : ScopeEdge}
    (hedge : edge ∈ walk.allEdges) (hnew : edge ∉ seen) :
    walk.remaining (edge :: seen) < walk.remaining seen := by
  have hsub : (walk.allEdges.filter fun e => !(edge :: seen).contains e).Sublist
      (walk.allEdges.filter fun e => !seen.contains e) := by
    refine List.monotone_filter_right _ fun e he => ?_
    simp only [List.contains_cons, Bool.not_or, Bool.and_eq_true] at he
    exact he.2
  refine Nat.lt_of_le_of_ne hsub.length_le fun hlength => ?_
  have hmem : edge ∈ walk.allEdges.filter fun e => !seen.contains e := by
    simpa [hnew] using hedge
  rw [← hsub.eq_of_length hlength] at hmem
  simp at hmem

theorem mem_seen_of_remaining_eq_zero
    {walk : Walk} {seen : List ScopeEdge} (h : walk.remaining seen = 0)
    {edge : ScopeEdge} (hedge : edge ∈ walk.allEdges) :
    edge ∈ seen := by
  rw [remaining, List.length_eq_zero_iff, List.filter_eq_nil_iff] at h
  simpa using h edge hedge

/-- What is pending after one more edge was followed are edges of the reverse adjacency, too. -/
theorem pending_subset
    {walk : Walk} {pending skipped rest : List ScopeEdge} {edge : ScopeEdge}
    (hpending : pending ⊆ walk.allEdges) (hsplit : pending = skipped ++ edge :: rest) :
    edge ∈ walk.allEdges ∧ walk.edgesTo edge.1 ++ rest ⊆ walk.allEdges := by
  refine ⟨hpending (by simp [hsplit]), List.append_subset.mpr ⟨walk.edgesTo_subset edge.1, ?_⟩⟩
  intro other hother
  exact hpending (by simp [hsplit, hother])

/-- A walk that may follow all remaining edges misses neither a pending edge nor an edge that leads
to one that it follows. -/
theorem followed_closed
    {walk : Walk} (budget : Nat) :
    ∀ pending seen : List ScopeEdge, pending ⊆ walk.allEdges → walk.remaining seen ≤ budget →
      (∀ edge ∈ pending, walk.binds edge = true →
        edge ∈ seen ∨ edge ∈ walk.followed budget pending seen) ∧
      ∀ edge ∈ walk.followed budget pending seen, ∀ earlier ∈ walk.edgesTo edge.1,
        walk.binds earlier = true →
          earlier ∈ seen ∨ earlier ∈ walk.followed budget pending seen := by
  induction budget with
  | zero =>
      intro pending seen hsubset hbudget
      refine ⟨?_, fun edge h => absurd h List.not_mem_nil⟩
      intro edge hedge _
      exact Or.inl (mem_seen_of_remaining_eq_zero (Nat.le_zero.mp hbudget) (hsubset hedge))
  | succ budget ih =>
      intro pending seen hsubset hbudget
      cases hpending : pending.dropWhile (walk.isStale seen) with
      | nil =>
          rw [followed_of_stale hpending]
          refine ⟨?_, fun edge h => absurd h List.not_mem_nil⟩
          intro edge hedge hbinds
          rcases isStale_iff.mp (List.dropWhile_eq_nil_iff.mp hpending edge hedge) with hseen | hnot
          · exact Or.inl hseen
          · rw [hbinds] at hnot
            cases hnot
      | cons next rest =>
          rw [followed_of_fresh hpending]
          obtain ⟨hfresh, skipped, hsplit, hskipped⟩ := dropWhile_eq_cons hpending
          rw [isStale_iff, not_or] at hfresh
          obtain ⟨hnext, hlater⟩ := pending_subset hsubset hsplit
          have hless := remaining_cons_lt hnext hfresh.1
          obtain ⟨hmet, hclosed⟩ := ih _ (next :: seen) hlater (by omega)
          -- an edge known to the rest of the walk is known to the whole walk
          have hlift : ∀ edge, edge ∈ next :: seen ∨
              edge ∈ walk.followed budget (walk.edgesTo next.1 ++ rest) (next :: seen) →
              edge ∈ seen ∨ edge ∈
                next :: walk.followed budget (walk.edgesTo next.1 ++ rest) (next :: seen) := by
            intro edge h
            simp only [List.mem_cons] at h ⊢
            tauto
          refine ⟨?_, ?_⟩
          · intro edge hedge hbinds
            rw [hsplit] at hedge
            rcases List.mem_append.mp hedge with hskip | htail
            · rcases isStale_iff.mp (hskipped edge hskip) with hseen | hnot
              · exact Or.inl hseen
              · rw [hbinds] at hnot
                cases hnot
            · rcases List.mem_cons.mp htail with rfl | hrest
              · exact Or.inr List.mem_cons_self
              · exact hlift edge (hmet edge (List.mem_append_right _ hrest) hbinds)
          · intro edge hedge earlier hearlier hbinds
            rcases List.mem_cons.mp hedge with rfl | hedge
            · exact hlift earlier (hmet earlier (List.mem_append_left _ hearlier) hbinds)
            · exact hlift earlier (hclosed edge hedge earlier hearlier hbinds)

/-- The edges that a walk to a state follows are exactly those that lead to it. -/
theorem mem_followed_iff
    (walk : Walk) (target : Text) (edge : ScopeEdge) :
    edge ∈ walk.followed walk.entries.edgeCount (walk.edgesTo target) [] ↔
      walk.Reaches (walk.edgesTo target) edge := by
  constructor
  · intro h
    exact followed_sound _ _ _ (fun _ hstart hbinds => Reaches.first hstart hbinds) edge h
  · obtain ⟨hmet, hclosed⟩ := followed_closed walk.entries.edgeCount (walk.edgesTo target) []
      (walk.edgesTo_subset target) walk.remaining_nil_le
    intro h
    induction h with
    | first hstart hbinds =>
        rcases hmet _ hstart hbinds with hseen | hfollowed
        · exact absurd hseen List.not_mem_nil
        · exact hfollowed
    | back hnext hedge hbinds ih =>
        rcases hclosed _ ih _ hedge hbinds with hseen | hfollowed
        · exact absurd hseen List.not_mem_nil
        · exact hfollowed

theorem isObject_bound
    (walk : Walk) (edge : ScopeEdge) :
    (walk.bound edge).isObject = true := by
  unfold bound
  split
  · exact KeyTree.isObject_empty
  · exact State.isObject_edgeVariables _ _

theorem isObject_variablesTo
    (walk : Walk) (target : Text) :
    (walk.variablesTo target).isObject = true := by
  rw [variablesTo, explore_eq_foldl]
  exact KeyTree.isObject_foldl_merge walk.isObject_bound _ KeyTree.isObject_empty

/-- The names that a walk finds are those bound on the edges that lead to its start. -/
theorem mem_names_variablesTo_iff
    (walk : Walk) (target name : Text) :
    name ∈ (walk.variablesTo target).names ↔
      ∃ edge, walk.Reaches (walk.edgesTo target) edge ∧ name ∈ (walk.bound edge).names := by
  rw [variablesTo, explore_eq_foldl,
    KeyTree.mem_names_foldl_merge_iff walk.isObject_bound name _ KeyTree.isObject_empty]
  simp [mem_followed_iff]

/-- A budget beyond the number of remaining edges makes no difference. -/
theorem followed_of_le
    {walk : Walk} {budget : Nat} :
    ∀ {larger : Nat} {pending seen : List ScopeEdge}, pending ⊆ walk.allEdges →
      walk.remaining seen ≤ budget → budget ≤ larger →
      walk.followed larger pending seen = walk.followed budget pending seen := by
  induction budget with
  | zero =>
      intro larger pending seen hsubset hbudget _
      have hstale : pending.dropWhile (walk.isStale seen) = [] := by
        rw [List.dropWhile_eq_nil_iff]
        intro edge hedge
        refine isStale_iff.mpr (Or.inl ?_)
        exact mem_seen_of_remaining_eq_zero (Nat.le_zero.mp hbudget) (hsubset hedge)
      rw [followed_of_stale hstale, followed_of_stale hstale]
  | succ budget ih =>
      intro larger pending seen hsubset hbudget hle
      obtain ⟨larger, rfl⟩ : ∃ n, larger = n + 1 := ⟨larger - 1, by omega⟩
      cases hpending : pending.dropWhile (walk.isStale seen) with
      | nil => rw [followed_of_stale hpending, followed_of_stale hpending]
      | cons next rest =>
          obtain ⟨hfresh, skipped, hsplit, -⟩ := dropWhile_eq_cons hpending
          rw [isStale_iff, not_or] at hfresh
          obtain ⟨hnext, hlater⟩ := pending_subset hsubset hsplit
          have hless := remaining_cons_lt hnext hfresh.1
          rw [followed_of_fresh hpending, followed_of_fresh hpending,
            ih hlater (by omega) (by omega)]

section Agreement

variable {walk walk' : Walk}

/-- Walks over the same edges, whose sources bind variables in both or in neither, follow the same
edges. -/
theorem followed_congr
    (hbinds : walk.binds = walk'.binds)
    (hedges : ∀ target, walk.edgesTo target = walk'.edgesTo target) (budget : Nat) :
    ∀ pending seen : List ScopeEdge,
      walk.followed budget pending seen = walk'.followed budget pending seen := by
  have hstale : walk.isStale = walk'.isStale := by
    funext seen edge
    rw [isStale, isStale]
    exact congrArg (fun b => seen.contains edge || !b) (congrFun hbinds edge)
  induction budget with
  | zero =>
      intro pending seen
      rfl
  | succ budget ih =>
      intro pending seen
      rw [followed, followed, hstale]
      cases pending.dropWhile (walk'.isStale seen) with
      | nil => rfl
      | cons edge rest => simp only [hedges, ih]

/-- What a walk finds depends on the edges of its scope and on what they bind only. -/
theorem variablesTo_congr
    (hbinds : walk.binds = walk'.binds) (hbound : walk.bound = walk'.bound)
    (hedges : ∀ target, walk.edgesTo target = walk'.edgesTo target) (target : Text) :
    walk.variablesTo target = walk'.variablesTo target := by
  have hfollowed : walk.followed walk.entries.edgeCount (walk.edgesTo target) [] =
      walk'.followed walk'.entries.edgeCount (walk'.edgesTo target) [] := by
    -- both budgets are large enough, so compare under the larger one
    have hleft := followed_of_le (walk.edgesTo_subset target) walk.remaining_nil_le
      (Nat.le_max_left walk.entries.edgeCount walk'.entries.edgeCount)
    have hright := followed_of_le (walk'.edgesTo_subset target) walk'.remaining_nil_le
      (Nat.le_max_right walk.entries.edgeCount walk'.entries.edgeCount)
    rw [← hleft, ← hright, followed_congr hbinds hedges, hedges]
  rw [variablesTo, variablesTo, explore_eq_foldl, explore_eq_foldl, hfollowed, hbound]

end Agreement

end Walk

end Workflow
