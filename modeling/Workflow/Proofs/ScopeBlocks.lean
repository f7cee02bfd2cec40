import Workflow.Proofs.FindingRoutes

/-!
# The blocks of a check

What a check finds in a scope and in the scopes nested in it stands together in the outcome, and
nothing that is found elsewhere stands in between.  Such a block is what the check of the scope on
its own finds, unless the scope is nested so deep that some of the scopes in it are cut off: names
of states are judged inside their own scope only.
-/

namespace Workflow

namespace Check

section Blocks

variable {α : Type} {route : Route} {step : Step} {fs gs inner : List (Routed α)}

/-- Nothing in the list was found behind the route. -/
def Apart (route : Route) (fs : List (Routed α)) : Prop := ∀ x ∈ fs, ¬ route <+: x.1

/-- Everything in the list that was found behind the route stands together, and it is this. -/
def Block (route : Route) (fs inner : List (Routed α)) : Prop :=
  ∃ before after, fs = before ++ behind route inner ++ after ∧ Apart route before ∧
    Apart route after

theorem apart_append :
    Apart route (fs ++ gs) ↔ Apart route fs ∧ Apart route gs := by
  unfold Apart
  rw [List.forall_mem_append]

/-- What is found in the scope where a check starts is found behind no step. -/
theorem apart_here
    (step : Step) (route : Route) (found : List α) :
    Apart (step :: route) (here found) := by
  intro x hx hprefix
  rw [route_of_mem_here hx] at hprefix
  cases List.prefix_nil.mp hprefix

/-- What is found behind one step is not found behind another one. -/
theorem apart_behind
    {other : Step} (hne : other ≠ step) (route : Route) (fs : List (Routed α)) :
    Apart (step :: route) (behind [other] fs) := by
  intro x hx hprefix
  obtain ⟨y, -, rfl⟩ := List.mem_map.mp hx
  rw [List.singleton_append, List.cons_prefix_cons] at hprefix
  exact hne hprefix.1.symm

theorem Apart.flatMap
    {β : Type} {l : List β} {f : β → List (Routed α)} (h : ∀ b ∈ l, Apart route (f b)) :
    Apart route (l.flatMap f) := by
  intro x hx
  obtain ⟨b, hb, hx⟩ := List.mem_flatMap.mp hx
  exact h b hb x hx

theorem behind_append
    (route : Route) (fs gs : List (Routed α)) :
    behind route (fs ++ gs) = behind route fs ++ behind route gs := by
  simp [behind]

theorem behind_cons
    (step : Step) (route : Route) (fs : List (Routed α)) :
    behind (step :: route) fs = behind [step] (behind route fs) := by
  simp [behind, Function.comp_def]

theorem block_nil
    (fs : List (Routed α)) :
    Block [] fs fs := by
  refine ⟨[], [], ?_, fun x hx => absurd hx List.not_mem_nil,
    fun x hx => absurd hx List.not_mem_nil⟩
  simp [behind]

theorem Block.append_left
    (h : Block route fs inner) (hgs : Apart route gs) :
    Block route (gs ++ fs) inner := by
  obtain ⟨before, after, rfl, hbefore, hafter⟩ := h
  exact ⟨gs ++ before, after, by simp, apart_append.mpr ⟨hgs, hbefore⟩, hafter⟩

theorem Block.append_right
    (h : Block route fs inner) (hgs : Apart route gs) :
    Block route (fs ++ gs) inner := by
  obtain ⟨before, after, rfl, hbefore, hafter⟩ := h
  exact ⟨before, after ++ gs, by simp, hbefore, apart_append.mpr ⟨hafter, hgs⟩⟩

/-- One step further out, a block is still a block. -/
theorem Block.behind
    (h : Block route fs inner) (step : Step) :
    Block (step :: route) (Check.behind [step] fs) inner := by
  have hapart : ∀ gs : List (Routed α), Apart route gs →
      Apart (step :: route) (Check.behind [step] gs) := by
    intro gs hgs x hx hprefix
    obtain ⟨y, hy, rfl⟩ := List.mem_map.mp hx
    rw [List.singleton_append, List.cons_prefix_cons] at hprefix
    exact hgs y hy hprefix.2
  obtain ⟨before, after, rfl, hbefore, hafter⟩ := h
  refine ⟨_, _, ?_, hapart before hbefore, hapart after hafter⟩
  rw [behind_append, behind_append, ← behind_cons]

/-- A block stays a block when something is made of each finding. -/
theorem Block.map
    {β : Type} (h : Block route fs inner) (g : α → β) :
    Block route (fs.map (Prod.map id g)) (inner.map (Prod.map id g)) := by
  have hapart : ∀ gs : List (Routed α), Apart route gs → Apart route (gs.map (Prod.map id g)) := by
    intro gs hgs x hx
    obtain ⟨y, hy, rfl⟩ := List.mem_map.mp hx
    exact hgs y hy
  obtain ⟨before, after, rfl, hbefore, hafter⟩ := h
  refine ⟨_, _, ?_, hapart before hbefore, hapart after hafter⟩
  simp [Check.behind]

/-- Where one element of a list contributes a block and the others nothing to it, the whole list
has the block. -/
theorem Block.flatMap
    {β κ : Type} {l : List β} {f : β → List (Routed α)} (key : β → κ)
    (hkeys : (l.map key).Nodup) {b : β} (hb : b ∈ l) (h : Block route (f b) inner)
    (hrest : ∀ b' ∈ l, key b' ≠ key b → Apart route (f b')) :
    Block route (l.flatMap f) inner := by
  obtain ⟨front, back, rfl⟩ := List.append_of_mem hb
  rw [List.map_append, List.map_cons, List.nodup_append, List.nodup_cons] at hkeys
  obtain ⟨-, ⟨hback, -⟩, hfront⟩ := hkeys
  rw [List.flatMap_append, List.flatMap_cons]
  refine (h.append_right ?_).append_left ?_
  · refine Apart.flatMap fun b' hb' => hrest b' (by simp [hb']) fun heq => hback ?_
    exact heq ▸ List.mem_map_of_mem hb'
  · refine Apart.flatMap fun b' hb' => hrest b' (by simp [hb']) fun heq => ?_
    exact hfront _ (List.mem_map_of_mem hb') _ List.mem_cons_self heq

end Blocks

/-- What is found behind the route of an entry is what is found from there on. -/
theorem block_of_mem_entries
    (schema : Value) (lenient : Bool) :
    ∀ (levels : Nat) (kind : ScopeKind) (tree : Tree), ∀ e ∈ entries levels kind tree,
      e.route.length < levels ∧
        Block e.route (trace schema lenient levels kind tree)
          (trace schema lenient (levels - e.route.length) e.kind e.scope)
  | 0, _, _, e, he => by
      rw [entries] at he
      cases he
  | levels + 1, kind, tree, e, he => by
      rcases mem_entries_iff.mp he with rfl | ⟨⟨field, i⟩, hfield, x, hstep, e, hinner, rfl⟩
      · exact ⟨Nat.succ_pos levels, block_nil _⟩
      · obtain ⟨hlength, hblock⟩ := block_of_mem_entries schema lenient levels x.2.1 x.2.2 e hinner
        refine ⟨Nat.succ_lt_succ hlength, ?_⟩
        have hlevels : levels + 1 - (e.behind x.1).route.length = levels - e.route.length :=
          Nat.add_sub_add_right levels 1 e.route.length
        rw [trace, hlevels]
        -- of all states only the one of the first step contributes, and of its scopes only the one
        -- of that step
        refine (((Block.flatMap Prod.snd (positions_nodup _) hfield ?_ ?_).append_left
          (apart_here _ _ _)).append_right (apart_here _ _ _))
        · refine ((Block.flatMap Prod.fst (stepsInto_nodup field i) hstep (hblock.behind x.1)
            fun y hy hne => apart_behind hne _ _).append_left (apart_here _ _ _)).append_right
              (apart_here _ _ _)
        · rintro ⟨other, j⟩ - hne
          refine apart_append.mpr ⟨apart_append.mpr ⟨apart_here _ _ _, ?_⟩, apart_here _ _ _⟩
          refine Apart.flatMap fun y hy => apart_behind (fun heq => hne ?_) _ _
          have hposition := position_of_mem_stepsInto hy
          rw [heq, position_of_mem_stepsInto hstep] at hposition
          exact hposition.symm

/-! ## Scopes that are not cut off -/

/-- A check with levels enough for a scope finds the same with more of them. -/
theorem trace_of_nestsWithin
    (schema : Value) (lenient : Bool) :
    ∀ {depth : Nat} {tree : Tree}, nestsWithin depth tree = true →
      ∀ (kind : ScopeKind) {levels : Nat}, depth < levels →
        trace schema lenient levels kind tree = trace schema lenient (depth + 1) kind tree
  | _, _, _, _, 0, hlevels => absurd hlevels (Nat.not_lt_zero _)
  | 0, tree, hdepth, kind, levels + 1, _ => by
      have hnone : ∀ x ∈ (declaredIn tree).zipIdx, stepsInto x.1 x.2 = [] := by
        intro x hx
        have hempty := List.all_eq_true.mp hdepth x.1 (List.fst_mem_of_mem_zipIdx hx)
        rw [List.isEmpty_iff, ← nestedAt_map_snd, List.map_eq_nil_iff] at hempty
        rw [stepsInto, hempty, List.map_nil]
      rw [trace, trace]
      congr 2
      refine List.flatMap_congr fun x hx => ?_
      dsimp only
      rw [hnone x hx, List.flatMap_nil, List.flatMap_nil]
  | depth + 1, tree, hdepth, kind, levels + 1, hlevels => by
      rw [trace, trace]
      congr 2
      refine List.flatMap_congr fun x hx => ?_
      have hinner := List.all_eq_true.mp hdepth x.1 (List.fst_mem_of_mem_zipIdx hx)
      dsimp only
      congr 2
      refine List.flatMap_congr fun inner hstep => ?_
      have hwithin := List.all_eq_true.mp hinner _ (mem_nested_of_mem_stepsInto hstep)
      rw [trace_of_nestsWithin schema lenient hwithin _ (Nat.lt_of_succ_lt_succ hlevels)]

end Check

/-! ## Blocks of diagnostics -/

/-- A finding with its message in a catalog. -/
def Finding.diagnostic (d : Document) (messages : Value) (f : Finding) : Diagnostic :=
  ⟨d.rangeOf f.span, (f.message messages).toOption.getD .null, some f.code, errorSeverity,
    localSource⟩

namespace Document

/-- What the check of a scope of a document reports, with the routes. -/
def trace (d : Document) (options : CheckOptions) (kind : ScopeKind) (t : Tree) :
    List (Check.Routed Diagnostic) :=
  if t.isObject then
    (Check.trace options.schema options.lenient allLevels kind t).map
      (Prod.map id (Finding.diagnostic d options.messages))
  else []

/-- With a catalog of messages every finding becomes a diagnostic. -/
theorem report_eq_map
    (d : Document) {messages : Value} (hmessages : messages.isObject = true)
    (fs : List Finding) :
    d.report messages fs = .ok (fs.map (Finding.diagnostic d messages)) := by
  refine mapM_eq_ok_map fun f _ => ?_
  cases messages with
  | obj catalog => rfl
  | _ => cases hmessages

/-- Without its routes, the trace of a scope is what the check of the scope answers. -/
theorem checkScope_eq_trace
    (d : Document) {options : CheckOptions} (hschema : Tables.Sound options.schema)
    (hmessages : options.messages.isObject = true) (kind : ScopeKind) (t : Tree) :
    d.checkScope options kind t = .ok ((d.trace options kind t).map Prod.snd) := by
  rw [checkScope, trace]
  cases t.isObject with
  | false => rfl
  | true =>
      rw [if_pos rfl, if_pos rfl, Check.scope_eq_trace hschema]
      refine (d.report_eq_map hmessages _).trans ?_
      rw [List.map_map, List.map_map]
      rfl

/-- The routes of the diagnostics lead to scopes that the check enters. -/
theorem exists_entry_of_mem_trace
    (d : Document) {options : CheckOptions} {kind : ScopeKind} {t : Tree}
    {x : Check.Routed Diagnostic} (hx : x ∈ d.trace options kind t) :
    ∃ e ∈ Check.entries allLevels kind t, e.route = x.1 := by
  rw [trace] at hx
  split at hx
  · obtain ⟨y, hy, rfl⟩ := List.mem_map.mp hx
    exact Check.exists_entry_of_mem_trace hy
  · cases hx

/-- What the check of a document reports behind the route of an entry is what the check of that
scope on its own reports, when none of the scopes in it is cut off. -/
theorem block_of_mem_entries
    (d : Document) (options : CheckOptions) {kind : ScopeKind} {t : Tree} {e : Check.Entry}
    (he : e ∈ Check.entries allLevels kind t) {depth : Nat}
    (hdepth : Check.nestsWithin depth e.scope = true)
    (hwithin : e.route.length + depth ≤ maxNesting) :
    Check.Block e.route (d.trace options kind t) (d.trace options e.kind e.scope) := by
  have hlevels : depth < allLevels - e.route.length := by
    unfold allLevels
    omega
  have hblock := (Check.block_of_mem_entries options.schema options.lenient allLevels kind t e he).2
  rw [Check.trace_of_nestsWithin _ _ hdepth e.kind hlevels,
    ← Check.trace_of_nestsWithin _ _ hdepth e.kind (Nat.lt_of_lt_of_le hlevels (Nat.sub_le _ _))]
    at hblock
  cases hobject : t.isObject with
  | true =>
      have hscope : e.scope.isObject = true := Check.isObject_of_mem_entries hobject he
      rw [trace, trace, if_pos hobject, if_pos hscope]
      exact hblock.map _
  | false =>
      rw [allLevels, Check.entries_of_not_object hobject, List.mem_singleton] at he
      subst he
      exact Check.block_nil _

/-- The check of a document answers with the diagnostics of the scopes that it enters, each scope in
one piece: what is found behind the route to a scope stands together, and it is what the check of
that scope on its own answers, when the scopes in it are not nested so deep that the check of the
document cuts off some of them. -/
theorem check_composes
    (d : Document) {messages : Value} (hmessages : messages.isObject = true) (lenient : Bool)
    {kind : ScopeKind} {given : Option Tree} {t : Tree} (hgiven : given.or d.root = some t)
    {e : Check.Entry} (he : e ∈ Check.entries allLevels kind t) {depth : Nat}
    (hdepth : Check.nestsWithin depth e.scope = true)
    (hwithin : e.route.length + depth ≤ maxNesting) :
    let options : CheckOptions := ⟨Tables.packaged, messages, lenient⟩
    d.check options kind given = .ok ((d.trace options kind t).map Prod.snd) ∧
      (∀ x ∈ d.trace options kind t, ∃ s ∈ Check.entries allLevels kind t, s.route = x.1) ∧
      ∃ before block after, d.trace options kind t = before ++ block ++ after ∧
        (∀ x ∈ block, e.route <+: x.1) ∧
        (∀ x ∈ before ++ after, ¬ e.route <+: x.1) ∧
        d.check options e.kind (some e.scope) = .ok (block.map Prod.snd) := by
  intro options
  have hcheck : ∀ kind t,
      d.checkScope options kind t = .ok ((d.trace options kind t).map Prod.snd) :=
    d.checkScope_eq_trace Tables.packaged_sound hmessages
  refine ⟨?_, fun x hx => d.exists_entry_of_mem_trace hx, ?_⟩
  · rw [check, hgiven]
    exact hcheck kind t
  · obtain ⟨before, after, htrace, hbefore, hafter⟩ :=
      d.block_of_mem_entries options he hdepth hwithin
    refine ⟨before, _, after, htrace, ?_, Check.apart_append.mpr ⟨hbefore, hafter⟩, ?_⟩
    · intro x hx
      obtain ⟨y, -, rfl⟩ := List.mem_map.mp hx
      exact List.prefix_append _ _
    · rw [Check.map_snd_behind]
      exact hcheck e.kind e.scope

end Document

/-- A text in which the processor of a Map state refers to a state of the scope around it. -/
def sharedNamesText : Text :=
  "StartAt: A
States:
 A:
  Type: Map
  Next: B
  ItemProcessor:
   StartAt: B
   States:
    A:
     Next: C
 B:
  Type: Succeed
"

/-- The document of that text. -/
def sharedNamesDocument : Document :=
  match Document.treeOf .yaml sharedNamesText with
  | .ok (some root) => ⟨sharedNamesText, .yaml, root, 0⟩
  | _ => ⟨sharedNamesText, .yaml, none, 0⟩

/-- The name outside does not help the processor: its four diagnostics are those of its own
check. -/
theorem check_composes_sharedNamesDocument :
    let options : CheckOptions := ⟨Tables.packaged, Tables.messages, false⟩
    ∃ t e, sharedNamesDocument.root = some t ∧ e ∈ Check.entries allLevels .top t ∧
      e.route = [⟨0, "A", none⟩] ∧
      ∃ before block after,
        sharedNamesDocument.trace options .top t = before ++ block ++ after ∧
          (∀ x ∈ block, e.route <+: x.1) ∧ (∀ x ∈ before ++ after, ¬ e.route <+: x.1) ∧
          sharedNamesDocument.check options e.kind (some e.scope) = .ok (block.map Prod.snd) ∧
          block.map (fun x => x.2.code) =
            [some .invalidStartAt, some .invalidNext, some .noTerminalState,
              some .unreachableState] := by
  intro options
  have hfacts : (sharedNamesDocument.root.any fun t =>
      (Check.entries allLevels .top t)[1]?.any fun e =>
        decide (e.route = [⟨0, "A", none⟩]) && Check.nestsWithin 0 e.scope &&
          decide ((sharedNamesDocument.check options e.kind (some e.scope)).toOption.map
            (List.map Diagnostic.code) = some [some .invalidStartAt, some .invalidNext,
              some .noTerminalState, some .unreachableState])) = true := by
    decide +kernel
  obtain ⟨t, ht, hfacts⟩ := (Option.any_eq_true _ _).mp hfacts
  obtain ⟨e, he, hfacts⟩ := (Option.any_eq_true _ _).mp hfacts
  rw [Bool.and_eq_true, Bool.and_eq_true, decide_eq_true_iff, decide_eq_true_iff] at hfacts
  obtain ⟨⟨hroute, hdepth⟩, hcodes⟩ := hfacts
  have hmem := List.mem_of_getElem? he
  have hwithin : e.route.length + 0 ≤ maxNesting := by
    rw [hroute]
    decide
  obtain ⟨-, -, before, block, after, htrace, hblock, hrest, hcheck⟩ :=
    @Document.check_composes sharedNamesDocument Tables.messages rfl false .top none t ht e hmem 0
      hdepth hwithin
  refine ⟨t, e, ht, hmem, hroute, before, block, after, htrace, hblock, hrest, hcheck, ?_⟩
  rw [hcheck, Except.toOption, Option.map_some, Option.some.injEq, List.map_map] at hcodes
  exact hcodes

end Workflow
