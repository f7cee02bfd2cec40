import Workflow.Proofs.VisitedScopes
import Workflow.Scope.Predecessors

/-!
# The reverse adjacency is exact

What is looked up in the reverse adjacency of a workflow, under the path of a scope and an id, is
the list of the states of that scope which have the id among their successors: in declaration
order, and without a state of any other scope.

The entries are built edge by edge.  Each of these steps is described by what it does to a look-up,
so a whole run is described by the visits that matter for one look-up.
-/

namespace Workflow

/-- Adds a text at the end unless it is there. -/
def addOnce (kept : List Text) (t : Text) : List Text :=
  if kept.contains t then kept else kept ++ [t]

theorem mem_addOnce_iff
    {kept : List Text} {t u : Text} :
    u ∈ addOnce kept t ↔ u ∈ kept ∨ u = t := by
  unfold addOnce
  by_cases h : t ∈ kept
  · simp only [List.contains_iff_mem, h, if_true]
    constructor
    · exact Or.inl
    · rintro (hu | rfl)
      · exact hu
      · exact h
  · simp [h]

/-- Adding a text a second time changes nothing. -/
theorem addOnce_addOnce
    (kept : List Text) (t : Text) :
    addOnce (addOnce kept t) t = addOnce kept t := by
  have h : (addOnce kept t).contains t = true := by
    rw [List.contains_iff_mem, mem_addOnce_iff]
    exact Or.inr rfl
  rw [addOnce, h, if_pos rfl]

/-- Different texts that are all new are added in order. -/
theorem foldl_addOnce
    {ts : List Text} :
    ∀ {kept : List Text}, ts.Nodup → (∀ t ∈ ts, t ∉ kept) →
      ts.foldl addOnce kept = kept ++ ts := by
  induction ts with
  | nil => simp
  | cons t ts ih =>
      intro kept hnodup hnew
      rw [List.nodup_cons] at hnodup
      have ht : addOnce kept t = kept ++ [t] := by
        simp [addOnce, hnew t List.mem_cons_self]
      have hrest : ∀ u ∈ ts, u ∉ kept ++ [t] := by
        intro u hu hmem
        rcases List.mem_append.mp hmem with hkept | hlast
        · exact hnew u (List.mem_cons_of_mem _ hu) hkept
        · rw [List.mem_singleton] at hlast
          exact hnodup.1 (hlast ▸ hu)
      rw [List.foldl_cons, ht, ih hnodup.2 hrest, List.append_assoc, List.singleton_append]

namespace Predecessors

/-- The scopes of all entries stand under plain paths. -/
def Plain (entries : Predecessors) : Prop :=
  ∀ entry ∈ entries, entry.scope.Leads ∧ entry.scope.plain = entry.scope

theorem plain_nil : Plain [] := by
  intro entry h
  cases h

/-- An edge is entered under the path of its scope. -/
theorem addEdge_plain
    {entries : Predecessors} {scope : Path} (hscope : scope.Leads) (hplain : scope.plain = scope)
    (source target : Text) (h : Plain entries) :
    Plain (addEdge entries scope source target) := by
  induction entries with
  | nil =>
      intro entry hmem
      rw [addEdge, List.mem_singleton] at hmem
      rw [hmem]
      exact ⟨hscope, hplain⟩
  | cons first rest ih =>
      have hfirst := h first List.mem_cons_self
      have hrest : Plain rest := fun entry hmem => h entry (List.mem_cons_of_mem _ hmem)
      rw [addEdge]
      split
      · split
        · exact h
        · intro entry hmem
          rcases List.mem_cons.mp hmem with rfl | hmem
          · exact hfirst
          · exact hrest entry hmem
      · intro entry hmem
        rcases List.mem_cons.mp hmem with rfl | hmem
        · exact hfirst
        · exact ih hrest entry hmem

/-- The look-up takes the first entry for its scope and target. -/
theorem sources_cons
    (entry : Incoming) (entries : Predecessors) (q : Path) (u : Text) :
    sources (entry :: entries) q u =
      if entry.target == u && Path.same entry.scope q then entry.sources
      else sources entries q u := by
  unfold sources
  rw [List.find?_cons]
  cases hfound : entry.target == u && Path.same entry.scope q with
  | true => rfl
  | false => rfl

/-- One more edge shows in the look-up for its scope and target, and nowhere else. -/
theorem sources_addEdge
    {entries : Predecessors} {scope q : Path} {source target u : Text}
    (hentries : Plain entries) (hscope : scope.Leads) (hplain : scope.plain = scope)
    (hq : q.Leads) :
    sources (addEdge entries scope source target) q u =
      if target == u && Path.same scope q then addOnce (sources entries q u) source
      else sources entries q u := by
  induction entries with
  | nil =>
      rw [addEdge, sources_cons]
      rfl
  | cons first rest ih =>
      obtain ⟨hleads, hfirst⟩ := hentries first List.mem_cons_self
      have hrest : Plain rest := fun entry hmem => hentries entry (List.mem_cons_of_mem _ hmem)
      rw [addEdge]
      by_cases hmatch : (first.target == target && Path.same first.scope scope) = true
      · rw [if_pos hmatch]
        rw [Bool.and_eq_true, beq_iff_eq, Path.same_iff hleads hfirst hscope, hplain] at hmatch
        obtain ⟨rfl, hsame⟩ := hmatch
        split
        · next hknown =>
            simp only [sources_cons, ← hsame]
            split
            · rw [addOnce, if_pos hknown]
            · rfl
        · next hnew =>
            simp only [sources_cons, ← hsame]
            split
            · rw [addOnce, if_neg hnew]
            · rfl
      · rw [if_neg hmatch, sources_cons, sources_cons, ih hrest]
        -- were the look-up for this edge, the entry that answers it would have taken the edge
        by_cases hfound : (first.target == u && Path.same first.scope q) = true
        · have hother : ¬ (target == u && Path.same scope q) = true := by
            intro hedge
            rw [Bool.and_eq_true, beq_iff_eq, Path.same_iff hscope hplain hq] at hedge
            rw [Bool.and_eq_true, beq_iff_eq, Path.same_iff hleads hfirst hq] at hfound
            refine hmatch ?_
            rw [Bool.and_eq_true, beq_iff_eq, Path.same_iff hleads hfirst hscope, hplain]
            exact ⟨hfound.1.trans hedge.1.symm, hfound.2.trans hedge.2.symm⟩
          rw [if_pos hfound, if_neg hother, if_pos hfound]
        · rw [if_neg hfound, if_neg hfound]

/-- The edges of one state show in the look-ups for its successors in its own scope. -/
theorem foldl_addEdge
    {scope q : Path} (source u : Text)
    (hscope : scope.Leads) (hplain : scope.plain = scope) (hq : q.Leads)
    (targets : List Text) :
    ∀ {entries : Predecessors}, Plain entries →
      Plain (targets.foldl (fun entries target => addEdge entries scope source target) entries) ∧
      sources (targets.foldl (fun entries target => addEdge entries scope source target) entries)
          q u =
        if targets.contains u && Path.same scope q then addOnce (sources entries q u) source
        else sources entries q u := by
  induction targets with
  | nil =>
      intro entries hentries
      exact ⟨hentries, rfl⟩
  | cons target targets ih =>
      intro entries hentries
      obtain ⟨hkept, hsources⟩ := ih (addEdge_plain hscope hplain source target hentries)
      refine ⟨hkept, ?_⟩
      rw [List.foldl_cons, hsources, sources_addEdge hentries hscope hplain hq]
      cases hsame : Path.same scope q with
      | false => simp
      | true =>
          by_cases hu : target = u
          · by_cases hmem : u ∈ targets
            · simp [hu, hmem, addOnce_addOnce]
            · simp [hu, hmem]
          · simp [hu, Ne.symm hu]

/-- Whether a visit has an edge to an id in the scope at a path. -/
def feeds (q : Path) (u : Text) (v : Visit) : Bool :=
  (State.nextIds v.state).contains u && v.liesIn q

/-- The look-up after a run over visits: every visit that feeds it is added once. -/
theorem sources_foldl_addVisit
    {q : Path} {u : Text} (hq : q.Leads)
    (visits : List Visit)
    (hvisits : ∀ v ∈ visits,
      Path.Leads v.path.dropLast ∧ Path.plain v.path.dropLast = v.path.dropLast) :
    ∀ {entries : Predecessors}, Plain entries →
      sources (visits.foldl addVisit entries) q u =
        ((visits.filter (feeds q u)).map Visit.id).foldl addOnce (sources entries q u) := by
  induction visits with
  | nil => simp
  | cons v visits ih =>
      intro entries hentries
      obtain ⟨hleads, hplain⟩ := hvisits v List.mem_cons_self
      obtain ⟨hkept, hsources⟩ :=
        foldl_addEdge v.id u hleads hplain hq (State.nextIds v.state) hentries
      have hadded : Plain (addVisit entries v) := hkept
      have hrest := ih (fun w hw => hvisits w (List.mem_cons_of_mem _ hw)) hadded
      have hstep : sources (addVisit entries v) q u =
          if feeds q u v then addOnce (sources entries q u) v.id
          else sources entries q u := hsources
      rw [List.foldl_cons, hrest, hstep]
      by_cases hv : feeds q u v = true
      · rw [List.filter_cons_of_pos hv, List.map_cons, List.foldl_cons, if_pos hv]
      · rw [List.filter_cons_of_neg hv, if_neg hv]

end Predecessors

namespace State

/-- The states of a scope that can hand control to an id, in declaration order. -/
def predecessorsIn (scope : Value) (target : Text) : List Text :=
  (((declared? scope).getD []).filter fun field => (nextIds field.2).contains target).map (·.1)

theorem mem_predecessorsIn_iff
    {scope : Value} {states : Fields} (hstates : declared? scope = some states)
    (hnames : states.names.Nodup) {source target : Text} :
    source ∈ predecessorsIn scope target ↔
      ∃ state, states.get? source = some state ∧ target ∈ nextIds state := by
  simp only [predecessorsIn, hstates, Option.getD_some, List.mem_map, List.mem_filter,
    List.contains_iff_mem, Prod.exists, exists_and_right, exists_eq_right]
  constructor
  · rintro ⟨state, hmem, htarget⟩
    exact ⟨state, Fields.get?_of_mem hnames hmem, htarget⟩
  · rintro ⟨state, hget, htarget⟩
    exact ⟨state, Fields.mem_of_get? hget, htarget⟩

/-- No state is listed twice. -/
theorem predecessorsIn_nodup
    {scope : Value} (hscope : scope.Proper) (target : Text) :
    (predecessorsIn scope target).Nodup := by
  unfold predecessorsIn
  cases hstates : declared? scope with
  | none => exact List.nodup_nil
  | some states =>
      have hnames := (declared?_proper hscope hstates).1
      exact hnames.sublist (List.Sublist.map _ List.filter_sublist)

end State

/-- The visits that lie in a scope and have an edge to an id are its predecessors there. -/
theorem map_id_filter_declaredVisits
    (scope : Value) (path : Path) (target : Text) :
    ((declaredVisits scope path).filter fun v => (State.nextIds v.state).contains target).map
        Visit.id =
      State.predecessorsIn scope target := by
  rw [declaredVisits, List.filter_map, List.map_map, State.predecessorsIn]
  rfl

/-- The reverse adjacency holds for each scope and id exactly the predecessors in that scope;
scopes that are nested too deep have none. -/
theorem sources_ofWorkflow
    {root scope : Value} {b : Path} (hroot : root.Proper) (h : OwnerPath root b scope)
    (target : Text) :
    (Predecessors.ofWorkflow root).sources b target =
      if b.owners ≤ maxNesting then State.predecessorsIn scope target else [] := by
  have hvisits : ∀ v ∈ allStates root,
      Path.Leads v.path.dropLast ∧ Path.plain v.path.dropLast = v.path.dropLast := by
    intro v hv
    obtain ⟨c, hc, hleads, hplain⟩ := dropLast_of_mem_preorder hroot hv
    rw [List.nil_append] at hc
    rw [hc]
    exact ⟨hleads, hplain⟩
  have hlies := filter_preorder h allLevels [] hroot Path.leads_nil rfl
  rw [List.nil_append, List.nil_append] at hlies
  have hfiltered : (allStates root).filter (Predecessors.feeds b target) =
      ((allStates root).filter (Visit.liesIn b)).filter
        fun v => (State.nextIds v.state).contains target := by
    rw [List.filter_filter]
    rfl
  rw [Predecessors.ofWorkflow,
    Predecessors.sources_foldl_addVisit h.leads _ hvisits Predecessors.plain_nil, hfiltered,
    allStates, hlies]
  have hlevels : b.owners < allLevels ↔ b.owners ≤ maxNesting := Nat.lt_succ_iff
  by_cases hdepth : b.owners ≤ maxNesting
  · rw [if_pos (hlevels.mpr hdepth), if_pos hdepth, map_id_filter_declaredVisits]
    have hnodup := State.predecessorsIn_nodup (h.proper hroot) target
    have hempty : Predecessors.sources [] b target = [] := rfl
    rw [hempty, foldl_addOnce hnodup (by simp), List.nil_append]
  · rw [if_neg (fun hlt => hdepth (hlevels.mp hlt)), if_neg hdepth]
    rfl

end Workflow
