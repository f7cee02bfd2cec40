import Workflow.Proofs.VisitedScopes

/-!
# What a visit calls, and in which order

A visit runs its visitor over the states that `preorder` lists, and a stop anywhere ends the run.
So a visitor that always goes on is called for all of them.

`Visit.Declared` says which calls these are: one for every state that is declared in a scope nested
no deeper than a visit goes.  `Precedes` says in which order: a state stands before everything
nested in it, and with everything nested in it before the states that its scope declares later; the
branches of a Parallel state stand in the order of their indexes.  In a proper workflow no path
precedes itself, so no two calls share a path.
-/

namespace Workflow

section RunWhile

variable {σ α β : Type}

/-- A run over two lists goes on to the second one unless it stops in the first. -/
theorem runWhile_append
    (step : σ → α → σ × Bool) (xs ys : List α) :
    ∀ memory : σ, runWhile step memory (xs ++ ys) =
      if (runWhile step memory xs).2 then runWhile step (runWhile step memory xs).1 ys
      else runWhile step memory xs := by
  induction xs with
  | nil =>
      intro memory
      rfl
  | cons x xs ih =>
      intro memory
      rw [List.cons_append, runWhile, runWhile]
      rcases step memory x with ⟨next, goesOn⟩
      cases goesOn with
      | true => exact ih next
      | false => rfl

/-- A run over runs is a run over everything that they run over. -/
theorem runWhile_flatMap
    (step : σ → β → σ × Bool) (f : α → List β) (xs : List α) :
    ∀ memory : σ, runWhile step memory (xs.flatMap f) =
      runWhile (fun memory x => runWhile step memory (f x)) memory xs := by
  induction xs with
  | nil =>
      intro memory
      rfl
  | cons x xs ih =>
      intro memory
      rw [List.flatMap_cons, runWhile_append, runWhile]
      rcases runWhile step memory (f x) with ⟨next, goesOn⟩
      cases goesOn with
      | true => exact ih next
      | false => rfl

/-- Steps that always say to go on are all taken. -/
theorem runWhile_of_goesOn
    {step : σ → α → σ × Bool} (hgoes : ∀ memory x, (step memory x).2 = true) (xs : List α) :
    ∀ memory : σ, runWhile step memory xs =
      (xs.foldl (fun memory x => (step memory x).1) memory, true) := by
  induction xs with
  | nil =>
      intro memory
      rfl
  | cons x xs ih =>
      intro memory
      have hgo := hgoes memory x
      rw [runWhile, List.foldl_cons]
      rcases hstep : step memory x with ⟨next, goesOn⟩
      rw [hstep] at hgo
      cases hgo
      exact ih next

end RunWhile

section Calls

variable {σ : Type} (visitor : Visitor σ)

/-- A visit runs its visitor over the states in preorder; a stop in a nested scope is a stop of the
whole run. -/
theorem visitScope_eq_runWhile
    (levels : Nat) :
    ∀ (memory : σ) (scope : Value) (path : Path),
      visitScope visitor levels memory scope path =
        runWhile visitor memory (preorder levels scope path) := by
  induction levels with
  | zero =>
      intro memory scope path
      rfl
  | succ levels ih =>
      intro memory scope path
      rw [visitScope, preorder]
      cases State.declared? scope with
      | none => rfl
      | some states =>
          simp only [runWhile_flatMap]
          congr 1
          funext memory field
          obtain ⟨id, state⟩ := field
          dsimp only
          rw [runWhile]
          generalize visitor memory _ = answer
          obtain ⟨next, goesOn⟩ := answer
          cases goesOn with
          | true => simp only [runWhile_flatMap, ih]
          | false => rfl

/-- A visitor that keeps the list of its calls beside its memory. -/
def Visitor.recording : Visitor (σ × List Visit) := fun state call =>
  let answer := visitor state.1 call
  ((answer.1, state.2 ++ [call]), answer.2)

/-- The calls of a visitor in the visit of a workflow, in order. -/
def Visitor.calls (memory : σ) (root : Value) : List Visit :=
  (visit visitor.recording (memory, []) root).2

variable {visitor}

theorem foldl_recording
    (calls : List Visit) :
    ∀ state : σ × List Visit,
      (calls.foldl (fun state call => (visitor.recording state call).1) state).2 =
        state.2 ++ calls := by
  induction calls with
  | nil =>
      intro state
      exact (List.append_nil _).symm
  | cons call calls ih =>
      intro state
      rw [List.foldl_cons, ih, Visitor.recording, List.append_assoc, List.singleton_append]

/-- A visitor that always goes on is called for all states. -/
theorem calls_of_goesOn
    (hgoes : ∀ memory call, (visitor memory call).2 = true) (memory : σ) (root : Value) :
    visitor.calls memory root = allStates root := by
  rw [Visitor.calls, visit, visitScope_eq_runWhile,
    runWhile_of_goesOn fun (state : σ × List Visit) call => hgoes state.1 call, foldl_recording]
  rfl

end Calls

/-- The call for a state that the scope at a path declares, where this scope is nested no deeper
than a visit goes. -/
structure Visit.Declared (root : Value) (b : Path) (v : Visit) : Prop where
  scope : OwnerPath root b v.parent
  plain : b.plain = b
  depth : b.owners ≤ maxNesting
  state : ∃ states, State.declared? v.parent = some states ∧ (v.id, v.state) ∈ states
  path : v.path = b ++ [.name v.id]

namespace Visit.Declared

variable {root : Value} {b : Path} {v : Visit}

theorem leads
    (h : v.Declared root b) :
    v.path.Leads := by
  rw [h.path]
  exact Path.leads_concat h.scope.leads (Or.inl rfl)

theorem path_plain
    (h : v.Declared root b) :
    Path.plain v.path = v.path := by
  rw [h.path, Path.plain_append, h.plain]
  rfl

end Visit.Declared

/-- A visit reports exactly the states of the scopes that are not nested too deep. -/
theorem mem_allStates_iff
    {root : Value} (hroot : root.Proper) {v : Visit} :
    v ∈ allStates root ↔ ∃ b, v.Declared root b := by
  constructor
  · intro hv
    obtain ⟨b, scope, hb, hplain, howners, hdeclared⟩ := exists_ownerPath_of_mem_preorder hroot hv
    obtain ⟨states, hstates, hmem, rfl, hpath⟩ := mem_declaredVisits_iff.mp hdeclared
    exact ⟨b, hb, hplain, Nat.lt_succ_iff.mp howners, ⟨states, hstates, hmem⟩, hpath⟩
  · rintro ⟨b, hb, hplain, hdepth, ⟨states, hstates, hmem⟩, hpath⟩
    have hlies := filter_preorder hb allLevels [] hroot Path.leads_nil rfl
    rw [List.nil_append, List.nil_append, hplain,
      if_pos (show b.owners < allLevels from Nat.lt_succ_iff.mpr hdepth)] at hlies
    have hdeclared : v ∈ declaredVisits v.parent b :=
      mem_declaredVisits_iff.mpr ⟨states, hstates, hmem, rfl, hpath⟩
    rw [← hlies] at hdeclared
    exact List.mem_of_mem_filter hdeclared

/-- The order in which a visit comes to the paths of a workflow. -/
inductive Precedes (root : Value) : Path → Path → Prop
  | below
      (p : Path) {rest : Path} (hrest : rest ≠ []) :
      Precedes root p (p ++ rest)
  | state
      {b : Path} {scope : Value} {states : Fields} {id later : Text}
      (hscope : OwnerPath root b scope)
      (hstates : State.declared? scope = some states)
      (horder : [id, later].Sublist states.names)
      (p q : Path) :
      Precedes root (b ++ .name id :: p) (b ++ .name later :: q)
  | branch
      (b : Path) {i j : Nat} (horder : i < j) (p q : Path) :
      Precedes root (b ++ .index i :: p) (b ++ .index j :: q)

/-- In a proper workflow no path precedes itself. -/
theorem Precedes.ne
    {root : Value} (hroot : root.Proper) {p q : Path} (h : Precedes root p q) :
    p ≠ q := by
  cases h with
  | below p hrest =>
      intro heq
      exact hrest (List.self_eq_append_right.mp heq)
  | @state b scope states id later hscope hstates horder p q =>
      intro heq
      have hnames := (State.declared?_proper (hscope.proper hroot) hstates).1
      have hpair := horder.nodup hnames
      simp only [List.append_cancel_left_eq, List.cons.injEq, Segment.name.injEq] at heq
      simp [heq.1] at hpair
  | branch b horder p q =>
      intro heq
      simp only [List.append_cancel_left_eq, List.cons.injEq, Segment.index.injEq,
        Int.natCast_inj] at heq
      exact Nat.ne_of_lt horder heq.1

section Blocks

variable {root scope : Value} {b : Path}

/-- Lists of paths, one for each state of a scope, in the order of the states. -/
theorem pairwise_of_states
    {states : Fields} {f : Text × Value → List Path}
    (hscope : OwnerPath root b scope) (hstates : State.declared? scope = some states)
    (hbelow : ∀ field ∈ states, ∀ p ∈ f field, ∃ rest, p = b ++ .name field.1 :: rest)
    (hsorted : ∀ field ∈ states, (f field).Pairwise (Precedes root)) :
    (states.flatMap f).Pairwise (Precedes root) := by
  rw [List.pairwise_flatMap]
  refine ⟨hsorted, List.pairwise_iff_forall_sublist.mpr fun {field later} hpair p hp q hq => ?_⟩
  obtain ⟨rest, rfl⟩ := hbelow field (hpair.subset (by simp)) p hp
  obtain ⟨rest', rfl⟩ := hbelow later (hpair.subset (by simp)) q hq
  exact Precedes.state hscope hstates (hpair.map Prod.fst) rest rest'

theorem pairwise_snd_zipIdx
    {α : Type} (xs : List α) :
    ∀ k : Nat, (xs.zipIdx k).Pairwise fun x y => x.2 < y.2 := by
  induction xs with
  | nil =>
      intro k
      exact List.Pairwise.nil
  | cons x xs ih =>
      intro k
      exact List.pairwise_cons.mpr ⟨fun y hy => List.le_snd_of_mem_zipIdx hy, ih (k + 1)⟩

/-- Lists of paths, one for each scope nested in a state, in the order of these scopes. -/
theorem pairwise_of_nestedScopes
    {state : Value} {here : Path} {f : Value × Path → List Path}
    (hbelow : ∀ nested ∈ State.nestedScopes state here, ∀ p ∈ f nested,
      ∃ rest, p = nested.2 ++ rest)
    (hsorted : ∀ nested ∈ State.nestedScopes state here, (f nested).Pairwise (Precedes root)) :
    ((State.nestedScopes state here).flatMap f).Pairwise (Precedes root) := by
  rw [List.pairwise_flatMap]
  refine ⟨hsorted, ?_⟩
  have hscopes : (State.nestedScopes state here).Pairwise fun nested later =>
      ∃ i j : Nat, i < j ∧ nested.2 = here ++ [.index i] ∧ later.2 = here ++ [.index j] := by
    unfold State.nestedScopes
    cases State.kind? state with
    | none => exact List.Pairwise.nil
    | some kind =>
        cases kind with
        | map =>
            dsimp only
            split
            · exact List.pairwise_singleton _ _
            · exact List.Pairwise.nil
        | parallel =>
            dsimp only
            split
            · next scopes _ =>
                refine (pairwise_snd_zipIdx scopes 0).filterMap _ ?_
                intro branch later horder nested hnested nested' hnested'
                simp only [Option.ite_none_right_eq_some, Option.some.injEq] at hnested hnested'
                refine ⟨branch.2, later.2, horder, ?_, ?_⟩
                · rw [← hnested.2]
                · rw [← hnested'.2]
            · exact List.Pairwise.nil
        | _ => exact List.Pairwise.nil
  refine hscopes.imp_of_mem ?_
  rintro nested later hnested hlater ⟨i, j, horder, hi, hj⟩ p hp q hq
  obtain ⟨rest, rfl⟩ := hbelow nested hnested p hp
  obtain ⟨rest', rfl⟩ := hbelow later hlater q hq
  rw [hi, hj, List.append_assoc, List.append_assoc, List.singleton_append, List.singleton_append]
  exact Precedes.branch here horder rest rest'

end Blocks

/-- The scope nested in a state stands one owner further on, on the same path or in a branch. -/
theorem OwnerPath.nested
    {root scope : Value} {b : Path} {states : Fields} {field : Text × Value}
    {nested : Value × Path}
    (hscope : OwnerPath root b scope) (hproper : scope.Proper)
    (hstates : State.declared? scope = some states) (hfield : field ∈ states)
    (hnested : nested ∈ State.nestedScopes field.2 (b ++ [.name field.1])) :
    OwnerPath root nested.2 nested.1 ∧
      ∃ rest, Path.plain rest = rest ∧ Path.owners rest = 0 ∧
        nested.2 = b ++ .name field.1 :: rest := by
  have howner : (State.declared? scope).bind (Fields.get? · field.1) = some field.2 := by
    rw [hstates]
    exact Fields.get?_of_mem (State.declared?_proper hproper hstates).1 hfield
  obtain ⟨-, ⟨hkind, hinner, hpath⟩ | ⟨hkind, scopes, i, hscopes, hi, hpath⟩⟩ :=
    State.mem_nestedScopes_iff.mp hnested
  · refine ⟨OwnerPath.of_ownedScope ?_, [], rfl, rfl, hpath⟩
    rw [hpath, hinner, hscope.ownedScope_append]
    exact (OwnerPath.map howner hkind (OwnerPath.here _)).ownedScope_eq
  · refine ⟨OwnerPath.of_ownedScope ?_, [.index i], rfl, rfl, by simpa using hpath⟩
    rw [hpath, List.append_assoc, hscope.ownedScope_append]
    exact (OwnerPath.branch howner hkind hscopes rfl hi (OwnerPath.here _)).ownedScope_eq

/-- The paths below one state, given those below each scope nested in it: they are in order, and all
of them go on from the state. -/
theorem paths_of_nestedScopes
    {root scope : Value} {b : Path} {states : Fields} {field : Text × Value}
    {f : Value × Path → List Path} {k : Nat}
    (hscope : OwnerPath root b scope) (hproper : scope.Proper)
    (hstates : State.declared? scope = some states) (hfield : field ∈ states)
    (hf : ∀ nested ∈ State.nestedScopes field.2 (b ++ [.name field.1]),
      (f nested).Pairwise (Precedes root) ∧
        ∀ p ∈ f nested, ∃ rest : Path, k ≤ rest.length ∧ p = nested.2 ++ rest) :
    ((State.nestedScopes field.2 (b ++ [.name field.1])).flatMap f).Pairwise (Precedes root) ∧
      ∀ p ∈ (State.nestedScopes field.2 (b ++ [.name field.1])).flatMap f,
        ∃ rest : Path, k ≤ rest.length ∧ p = b ++ .name field.1 :: rest := by
  refine ⟨pairwise_of_nestedScopes ?_ fun nested hnested => (hf nested hnested).1, ?_⟩
  · intro nested hnested p hp
    obtain ⟨rest, -, hp⟩ := (hf nested hnested).2 p hp
    exact ⟨rest, hp⟩
  · intro p hp
    obtain ⟨nested, hnested, hp⟩ := List.mem_flatMap.mp hp
    obtain ⟨rest, hrest, rfl⟩ := (hf nested hnested).2 p hp
    obtain ⟨-, front, -, -, hfront⟩ := hscope.nested hproper hstates hfield hnested
    refine ⟨front ++ rest, ?_, ?_⟩
    · rw [List.length_append]
      exact Nat.le_add_left_of_le hrest
    · rw [hfront, List.append_assoc, List.cons_append]

/-- The paths of visits lie below the path where the visit starts. -/
theorem exists_path_of_mem_preorder
    {v : Visit} {levels : Nat} {scope : Value} {path : Path}
    (hscope : scope.Proper) (h : v ∈ preorder levels scope path) :
    ∃ rest : Path, 1 ≤ rest.length ∧ v.path = path ++ rest := by
  obtain ⟨b, inner, -, -, -, hv⟩ := exists_ownerPath_of_mem_preorder hscope h
  obtain ⟨states, -, -, -, hpath⟩ := mem_declaredVisits_iff.mp hv
  exact ⟨b ++ [.name v.id], by simp, by rw [hpath, List.append_assoc]⟩

/-- A visit comes to its paths in their order. -/
theorem preorder_sorted
    {root : Value} (hroot : root.Proper) (levels : Nat) :
    ∀ {b : Path} {scope : Value}, OwnerPath root b scope →
      ((preorder levels scope b).map Visit.path).Pairwise (Precedes root) := by
  induction levels with
  | zero =>
      intro b scope _
      exact List.Pairwise.nil
  | succ levels ih =>
      intro b scope hscope
      have hproper := hscope.proper hroot
      cases hstates : State.declared? scope with
      | none =>
          rw [preorder, hstates]
          exact List.Pairwise.nil
      | some states =>
          -- what lies below one state, from the induction on the levels
          have hblock := fun field (hfield : field ∈ states) =>
            paths_of_nestedScopes (f := fun nested => (preorder levels nested.1 nested.2).map
              Visit.path) hscope hproper hstates hfield fun nested hnested => by
                have howners := (hscope.nested hproper hstates hfield hnested).1
                refine ⟨ih howners, fun p hp => ?_⟩
                obtain ⟨v, hv, rfl⟩ := List.mem_map.mp hp
                exact exists_path_of_mem_preorder (howners.proper hroot) hv
          rw [preorder_succ hstates, List.map_flatMap]
          simp only [List.map_cons, List.map_flatMap]
          refine pairwise_of_states hscope hstates ?_ ?_
          · intro field hfield p hp
            rcases List.mem_cons.mp hp with rfl | hp
            · exact ⟨[], rfl⟩
            · obtain ⟨rest, -, hp⟩ := (hblock field hfield).2 p hp
              exact ⟨rest, hp⟩
          · intro field hfield
            refine List.pairwise_cons.mpr ⟨fun p hp => ?_, (hblock field hfield).1⟩
            obtain ⟨rest, hrest, rfl⟩ := (hblock field hfield).2 p hp
            have hbelow : b ++ .name field.1 :: rest = b ++ [.name field.1] ++ rest := by simp
            rw [hbelow]
            exact Precedes.below _ (List.ne_nil_of_length_pos hrest)

section Enumeration

variable {root : Value} (hroot : root.Proper)

include hroot

/-- No two visits have paths that address the same state. -/
theorem allStates_distinct :
    (allStates root).Pairwise fun v w => Path.same v.path w.path = false := by
  have hsorted := List.pairwise_map.mp (preorder_sorted hroot allLevels (OwnerPath.here root))
  refine hsorted.imp_of_mem fun {v w} hv hw horder => ?_
  obtain ⟨b, hb⟩ := (mem_allStates_iff hroot).mp hv
  obtain ⟨c, hc⟩ := (mem_allStates_iff hroot).mp hw
  rw [Bool.eq_false_iff, ne_eq, Path.same_iff hb.leads hb.path_plain hc.leads, hc.path_plain]
  exact horder.ne hroot

/-- A visitor that always goes on is called exactly once for every state that is declared in a scope
nested no deeper than a visit goes, in the order of the paths, and the visit ends with the memory
that these calls leave. -/
theorem visit_enumerates
    {σ : Type} {visitor : Visitor σ} (hgoes : ∀ memory call, (visitor memory call).2 = true)
    (memory : σ) :
    visit visitor memory root =
        (visitor.calls memory root).foldl (fun memory call => (visitor memory call).1) memory ∧
      (∀ v, v ∈ visitor.calls memory root ↔ ∃ b, v.Declared root b) ∧
      ((visitor.calls memory root).map Visit.path).Pairwise (Precedes root) ∧
      (visitor.calls memory root).Pairwise fun v w => Path.same v.path w.path = false := by
  rw [calls_of_goesOn hgoes]
  refine ⟨?_, fun v => mem_allStates_iff hroot, ?_, allStates_distinct hroot⟩
  · rw [visit, visitScope_eq_runWhile, runWhile_of_goesOn hgoes]
    rfl
  · exact preorder_sorted hroot allLevels (OwnerPath.here root)

end Enumeration

/-- A Parallel state whose first branch is no scope, and a Map state of both generations. -/
def mixedNesting : Value :=
  .obj [("States", .obj [
    ("P", .obj [("Type", .str "Parallel"), ("Branches", .arr [.null,
      .obj [("States", .obj [("A", .obj [("Type", .str "Pass")])])],
      .obj [("States", .obj [("A", .obj [("Type", .str "Pass")])])]])]),
    ("M", .obj [("Type", .str "Map"),
      ("Iterator", .obj [("States", .obj [("C", .obj [("Type", .str "Pass")])])]),
      ("ItemProcessor", .obj [("States", .obj [("B", .null)])])])])]

/-- A visitor that counts its calls. -/
def countingVisitor : Visitor Nat := fun count _ => (count + 1, true)

/-- The branches keep their indexes, and the current field of the Map state goes before the legacy
one. -/
theorem visit_enumerates_mixedNesting :
    ((countingVisitor.calls 0 mixedNesting).map Visit.path =
        [[.name "P"], [.name "P", .index 1, .name "A"], [.name "P", .index 2, .name "A"],
          [.name "M"], [.name "M", .name "B"]]) ∧
      visit countingVisitor 0 mixedNesting =
        (countingVisitor.calls 0 mixedNesting).foldl
          (fun memory call => (countingVisitor memory call).1) 0 ∧
      (∀ v, v ∈ countingVisitor.calls 0 mixedNesting ↔ ∃ b, v.Declared mixedNesting b) ∧
      ((countingVisitor.calls 0 mixedNesting).map Visit.path).Pairwise (Precedes mixedNesting) ∧
      (countingVisitor.calls 0 mixedNesting).Pairwise
        fun v w => Path.same v.path w.path = false :=
  ⟨rfl, visit_enumerates (by decide) (fun _ _ => rfl) 0⟩

end Workflow
