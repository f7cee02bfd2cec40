import Mathlib.Data.List.ReduceOption
import Workflow.Proofs.BackwardWalk
import Workflow.Proofs.EnclosingOwners

/-!
# Backward walks end

A backward walk takes one pending edge after the other.  An edge that was followed before is
dropped, and so is an edge whose source may not bind variables, without being marked, so that it
can come up again and again.  Any other edge is followed: it is marked, what it binds is merged,
and the edges to its source are put on top of the pending ones.

Nothing ties the entries to the workflow here.  They may speak of states that do not exist, and
their edges may run in circles.  Each turn still leaves fewer edges to follow, or as many of them
and fewer that are pending; and each owner on the way outward stands on a shorter path than the
scope it owns.
-/

namespace Workflow

namespace Walk

/-- A walk between two turns: the edges that are pending, those followed, and the tree so far. -/
structure Progress where
  pending : List ScopeEdge
  seen : List ScopeEdge
  tree : Value

/-- One turn of a walk, and the edge that is followed, if any. -/
inductive Turn (walk : Walk) : Progress → Option ScopeEdge → Progress → Prop
  | drop
      {edge : ScopeEdge} {rest seen : List ScopeEdge} {tree : Value}
      (hstale : walk.isStale seen edge = true) :
      Turn walk ⟨edge :: rest, seen, tree⟩ none ⟨rest, seen, tree⟩
  | follow
      {edge : ScopeEdge} {rest seen : List ScopeEdge} {tree : Value}
      (hfresh : walk.isStale seen edge = false) :
      Turn walk ⟨edge :: rest, seen, tree⟩ (some edge)
        ⟨walk.edgesTo edge.1 ++ rest, edge :: seen, KeyTree.merge tree (walk.bound edge)⟩

/-- Some turns, one after the other. -/
inductive Run (walk : Walk) : Progress → List (Option ScopeEdge) → Progress → Prop
  | nil (now : Progress) :
      Run walk now [] now
  | cons
      {now next last : Progress} {step : Option ScopeEdge} {steps : List (Option ScopeEdge)}
      (hturn : walk.Turn now step next) (hrest : Run walk next steps last) :
      Run walk now (step :: steps) last

/-- The beginning of a walk to a state. -/
def start (walk : Walk) (target : Text) : Progress := ⟨walk.edgesTo target, [], KeyTree.empty⟩

/-- A walk that has nothing pending has ended, and this is the tree it found. -/
def Finds (walk : Walk) (target : Text) (tree : Value) : Prop :=
  ∃ steps last, walk.Run (walk.start target) steps last ∧ last.pending = [] ∧ last.tree = tree

/-- A bound for the turns that are left: each edge that has not been followed yet can put all edges
to its source on the pending ones. -/
def turnsLeft (walk : Walk) (now : Progress) : Nat :=
  walk.remaining now.seen * (walk.entries.edgeCount + 1) + now.pending.length

variable {walk : Walk} {now next last : Progress} {step : Option ScopeEdge}
variable {steps : List (Option ScopeEdge)}

theorem isStale_eq_false_iff
    {seen : List ScopeEdge} {edge : ScopeEdge} :
    walk.isStale seen edge = false ↔ edge ∉ seen ∧ walk.binds edge = true := by
  rw [← Bool.not_eq_true, isStale_iff, not_or, Bool.not_eq_false]

/-- As long as an edge is pending, a walk goes on. -/
theorem exists_turn
    (walk : Walk) (hpending : now.pending ≠ []) :
    ∃ step next, walk.Turn now step next := by
  obtain ⟨pending, seen, tree⟩ := now
  obtain ⟨edge, rest, rfl⟩ := List.exists_cons_of_ne_nil hpending
  cases hstale : walk.isStale seen edge with
  | true => exact ⟨_, _, Turn.drop hstale⟩
  | false => exact ⟨_, _, Turn.follow hstale⟩

/-- A turn leaves edges of the reverse adjacency pending, and fewer turns. -/
theorem Turn.turnsLeft_lt
    (h : walk.Turn now step next) (hpending : now.pending ⊆ walk.allEdges) :
    next.pending ⊆ walk.allEdges ∧ walk.turnsLeft next < walk.turnsLeft now := by
  cases h with
  | drop hstale =>
      refine ⟨fun edge hedge => hpending (List.mem_cons_of_mem _ hedge), ?_⟩
      simp only [turnsLeft, List.length_cons]
      omega
  | @follow edge rest seen tree hfresh =>
      obtain ⟨hedge, hlater⟩ := pending_subset hpending (List.nil_append _).symm
      refine ⟨hlater, ?_⟩
      have hless := remaining_cons_lt hedge (isStale_eq_false_iff.mp hfresh).1
      have hedges := walk.length_edgesTo_le edge.1
      have hrounds := Nat.mul_le_mul_right (walk.entries.edgeCount + 1) (Nat.succ_le_of_lt hless)
      rw [Nat.succ_mul] at hrounds
      simp only [turnsLeft, List.length_append, List.length_cons]
      omega

/-- A turn marks the edge that it follows, which was not marked before. -/
theorem Turn.seen_eq
    (h : walk.Turn now step next) :
    next.seen = step.toList ++ now.seen ∧ ∀ edge ∈ step, edge ∉ now.seen := by
  cases h with
  | drop hstale => exact ⟨rfl, by simp⟩
  | follow hfresh => exact ⟨rfl, by simpa using (isStale_eq_false_iff.mp hfresh).1⟩

/-- The number of turns of a run, together with those that are left, is bounded. -/
theorem Run.length_add_turnsLeft_le
    (h : walk.Run now steps last) (hpending : now.pending ⊆ walk.allEdges) :
    steps.length + walk.turnsLeft last ≤ walk.turnsLeft now := by
  induction h with
  | nil now => simp
  | cons hturn hrest ih =>
      obtain ⟨hlater, hless⟩ := hturn.turnsLeft_lt hpending
      have hrounds := ih hlater
      rw [List.length_cons]
      omega

/-- A run follows no edge twice, and none that was followed before. -/
theorem Run.nodup
    (h : walk.Run now steps last) :
    steps.reduceOption.Nodup ∧ ∀ edge ∈ steps.reduceOption, edge ∉ now.seen := by
  induction h with
  | nil now => exact ⟨List.nodup_nil, fun edge hedge => absurd hedge List.not_mem_nil⟩
  | @cons now next last step steps hturn hrest ih =>
      obtain ⟨hseen, hnew⟩ := hturn.seen_eq
      obtain ⟨hnodup, hlater⟩ := ih
      rw [hseen] at hlater
      cases step with
      | none =>
          rw [List.reduceOption_cons_of_none]
          exact ⟨hnodup, hlater⟩
      | some edge =>
          simp only [Option.toList_some, List.singleton_append, List.mem_cons, not_or] at hlater
          rw [List.reduceOption_cons_of_some]
          refine ⟨List.nodup_cons.mpr ⟨fun hagain => (hlater edge hagain).1 rfl, hnodup⟩, ?_⟩
          intro other hother
          rcases List.mem_cons.mp hother with rfl | hother
          · exact hnew other rfl
          · exact (hlater other hother).2

/-- A run merges what the edges bind that it follows, each of them once. -/
theorem Run.tree_eq
    (h : walk.Run now steps last) :
    last.tree =
      steps.reduceOption.foldl (fun tree edge => KeyTree.merge tree (walk.bound edge))
        now.tree := by
  induction h with
  | nil now => rfl
  | cons hturn hrest ih =>
      cases hturn with
      | drop hstale =>
          rw [List.reduceOption_cons_of_none]
          exact ih
      | follow hfresh =>
          rw [List.reduceOption_cons_of_some, List.foldl_cons]
          exact ih

/-- Every run can be brought to an end. -/
theorem exists_run
    (walk : Walk) :
    ∀ now : Progress, now.pending ⊆ walk.allEdges →
      ∃ steps last, walk.Run now steps last ∧ last.pending = [] := by
  intro now
  induction hleft : walk.turnsLeft now using Nat.strongRecOn generalizing now with
  | ind left ih =>
      intro hpending
      by_cases hend : now.pending = []
      · exact ⟨[], now, Run.nil now, hend⟩
      · obtain ⟨step, next, hturn⟩ := walk.exists_turn hend
        obtain ⟨hlater, hless⟩ := hturn.turnsLeft_lt hpending
        rw [hleft] at hless
        obtain ⟨steps, last, hrest, hlast⟩ := ih _ hless next rfl hlater
        exact ⟨step :: steps, last, Run.cons hturn hrest, hlast⟩

theorem followed_of_isStale
    {pending seen : List ScopeEdge} {edge : ScopeEdge} (h : walk.isStale seen edge = true)
    (budget : Nat) :
    walk.followed budget (edge :: pending) seen = walk.followed budget pending seen := by
  cases budget with
  | zero => rfl
  | succ budget => rw [followed, followed, List.dropWhile_cons_of_pos h]

/-- A run that has ended followed what a walk follows whose budget is large enough. -/
theorem Run.followed_eq
    (h : walk.Run now steps last) (hlast : last.pending = []) :
    ∀ budget : Nat, now.pending ⊆ walk.allEdges → walk.remaining now.seen ≤ budget →
      walk.followed budget now.pending now.seen = steps.reduceOption := by
  induction h with
  | nil now =>
      intro budget _ _
      rw [hlast]
      exact followed_of_stale rfl budget
  | cons hturn hrest ih =>
      intro budget hpending hbudget
      have hlater := (hturn.turnsLeft_lt hpending).1
      cases hturn with
      | drop hstale =>
          rw [List.reduceOption_cons_of_none, followed_of_isStale hstale]
          exact ih hlast budget hlater hbudget
      | @follow edge rest seen tree hfresh =>
          have hedge := hpending List.mem_cons_self
          have hless := remaining_cons_lt hedge (isStale_eq_false_iff.mp hfresh).1
          dsimp only at hbudget hlater ih ⊢
          -- the edge has not been followed, so the budget is not used up
          obtain ⟨budget, rfl⟩ := Nat.exists_eq_succ_of_ne_zero (by omega : budget ≠ 0)
          have hfirst : (edge :: rest).dropWhile (walk.isStale seen) = edge :: rest :=
            List.dropWhile_cons_of_neg (by rw [hfresh]; exact Bool.false_ne_true)
          rw [List.reduceOption_cons_of_some, followed_of_fresh hfirst]
          exact congrArg _ (ih hlast budget hlater (by omega))

/-- A run from the beginning of a walk takes fewer turns than the square of one more than the number
of edges. -/
theorem Run.length_lt
    {target : Text} (h : walk.Run (walk.start target) steps last) :
    steps.length < (walk.entries.edgeCount + 1) * (walk.entries.edgeCount + 1) := by
  have hrounds := h.length_add_turnsLeft_le (walk.edgesTo_subset target)
  have hremaining := Nat.mul_le_mul_right (walk.entries.edgeCount + 1) walk.remaining_nil_le
  have hpending := walk.length_edgesTo_le target
  simp only [turnsLeft, start] at hrounds
  rw [Nat.succ_mul]
  omega

/-- A walk ends, with one tree only. -/
theorem finds_iff
    {target : Text} {tree : Value} :
    walk.Finds target tree ↔ tree = walk.variablesTo target := by
  have hfound : ∀ {steps last}, walk.Run (walk.start target) steps last → last.pending = [] →
      last.tree = walk.variablesTo target := by
    intro steps last hrun hlast
    have hfollowed :=
      hrun.followed_eq hlast walk.entries.edgeCount (walk.edgesTo_subset target)
        walk.remaining_nil_le
    rw [hrun.tree_eq, variablesTo, explore_eq_foldl, ← hfollowed]
    rfl
  constructor
  · rintro ⟨steps, last, hrun, hlast, rfl⟩
    exact hfound hrun hlast
  · rintro rfl
    obtain ⟨steps, last, hrun, hlast⟩ := walk.exists_run (walk.start target)
      (walk.edgesTo_subset target)
    exact ⟨steps, last, hrun, hlast, hfound hrun hlast⟩

end Walk

namespace Address

/-- The id at the end of the path of an address. -/
def lastId (a : Address) : Text := a.id?.getD []

/-- The walk over the scope of an address along any entries. -/
def walkOver (a : Address) (entries : Predecessors) (fromInside : Bool) : Walk :=
  ⟨a.siblings, entries, a.parentPath, if fromInside then some a.lastId else none⟩

/-- The state that owns the scope of an address, where it can be found. -/
def OwnedBy (root : Value) (owner a : Address) : Prop :=
  findPath root a.ownerPath = some owner ∧ owner.isPresent = true

variable {root : Value}

/-- The scope of an owner stands on a shorter path. -/
theorem OwnedBy.parentPath_lt
    {owner a : Address} (h : OwnedBy root owner a) :
    owner.parentPath.length < a.parentPath.length := by
  obtain ⟨hpath, -, id, hlocated⟩ := findPath_eq_some_iff.mp h.1
  have hlength := (Path.ofOwner_prefix a.parentPath).length_le
  rw [← ownerPath.eq_def, ← hpath, hlocated.path_eq, List.length_append,
    List.length_singleton] at hlength
  exact hlength

/-- No way outward is endless. -/
theorem ownedBy_wellFounded
    (root : Value) :
    WellFounded (OwnedBy root) :=
  Subrelation.wf OwnedBy.parentPath_lt
    (InvImage.wf (fun a : Address => a.parentPath.length) Nat.lt_wfRel.wf)

end Address

/-- The variables in scope at an address, without a bound on the turns of a walk or on the number of
enclosing scopes. -/
inductive Resolves (root : Value) (entries : Predecessors) : Address → Bool → VariableScope → Prop
  | hidden
      {a : Address} {fromInside : Bool} (hidden : (fromInside && a.isolates) = true) :
      Resolves root entries a fromInside .none
  | outermost
      {a : Address} {fromInside : Bool} {own : Value}
      (hopen : (fromInside && a.isolates) = false)
      (hown : (a.walkOver entries fromInside).Finds a.lastId own)
      (hnone : ∀ owner, ¬ Address.OwnedBy root owner a) :
      Resolves root entries a fromInside ⟨own, KeyTree.empty⟩
  | nested
      {a owner : Address} {fromInside : Bool} {own : Value} {above : VariableScope}
      (hopen : (fromInside && a.isolates) = false)
      (hown : (a.walkOver entries fromInside).Finds a.lastId own)
      (howner : Address.OwnedBy root owner a)
      (habove : Resolves root entries owner true above) :
      Resolves root entries a fromInside ⟨own, KeyTree.merge above.own above.outer⟩

section Resolution

variable {root : Value} {entries : Predecessors}

/-- A number of levels beyond the length of the path makes no difference. -/
theorem Resolves.scopeAt_eq
    {a : Address} {fromInside : Bool} {scope : VariableScope}
    (h : Resolves root entries a fromInside scope) :
    ∀ levels : Nat, a.parentPath.length < levels →
      scopeAt root entries levels a fromInside = scope := by
  induction h with
  | @hidden a fromInside hhidden =>
      intro levels hlevels
      obtain ⟨levels, rfl⟩ := Nat.exists_eq_succ_of_ne_zero (Nat.ne_zero_of_lt hlevels)
      rw [Address.isolates, ← Bool.and_assoc] at hhidden
      rw [scopeAt, hhidden, if_pos rfl]
  | @outermost a fromInside own hopen hown hnone =>
      intro levels hlevels
      obtain ⟨levels, rfl⟩ := Nat.exists_eq_succ_of_ne_zero (Nat.ne_zero_of_lt hlevels)
      rw [Address.isolates, ← Bool.and_assoc] at hopen
      rw [scopeAt, hopen, if_neg Bool.false_ne_true, Walk.finds_iff.mp hown]
      cases hfind : findPath root a.ownerPath with
      | none => rfl
      | some owner =>
          have habsent : owner.isPresent = false := by
            rw [← Bool.not_eq_true]
            exact fun hpresent => hnone owner ⟨hfind, hpresent⟩
          simp only [habsent, Bool.false_eq_true, if_false]
          rfl
  | @nested a owner fromInside own above hopen hown howner habove ih =>
      intro levels hlevels
      obtain ⟨levels, rfl⟩ := Nat.exists_eq_succ_of_ne_zero (Nat.ne_zero_of_lt hlevels)
      have hshorter := howner.parentPath_lt
      rw [Address.isolates, ← Bool.and_assoc] at hopen
      rw [scopeAt, hopen, if_neg Bool.false_ne_true, Walk.finds_iff.mp hown, howner.1]
      simp only [howner.2, if_true, ih levels (by omega)]
      rfl

/-- The computation of the variables in scope ends at every address. -/
theorem exists_resolves
    (root : Value) (entries : Predecessors) (a : Address) :
    ∀ fromInside : Bool, ∃ scope, Resolves root entries a fromInside scope := by
  induction a using (Address.ownedBy_wellFounded root).induction with
  | _ a ih =>
      intro fromInside
      have hown : (a.walkOver entries fromInside).Finds a.lastId _ := Walk.finds_iff.mpr rfl
      cases hisolates : fromInside && a.isolates with
      | true => exact ⟨_, Resolves.hidden hisolates⟩
      | false =>
          by_cases howned : ∃ owner, Address.OwnedBy root owner a
          · obtain ⟨owner, howner⟩ := howned
            obtain ⟨above, habove⟩ := ih owner howner true
            exact ⟨_, Resolves.nested hisolates hown howner habove⟩
          · exact ⟨_, Resolves.outermost hisolates hown (not_exists.mp howned)⟩

/-- The path of an address that a reference finds is longer than that of its scope. -/
theorem parentPath_lt_of_locate
    {reference : Reference} {a : Address} (h : reference.locate root = .ok (some a)) :
    a.parentPath.length < a.path.length := by
  have hconcat : ∀ id : Text, a.path = a.parentPath ++ [.name id] →
      a.parentPath.length < a.path.length := by
    intro id hpath
    rw [hpath, List.length_append]
    exact Nat.lt_succ_self _
  cases reference with
  | id id => exact hconcat id (path_eq_of_searchId (Except.ok.inj h))
  | path p =>
      obtain ⟨-, -, id, hlocated⟩ := findPath_eq_some_iff.mp (findPath_of_findPath? h)
      exact hconcat id hlocated.path_eq
  | unknown => cases h

/-- The variables in scope are computed in finitely many turns, whatever the entries are.  At every
address, a run of the backward walk takes fewer turns than the square of one more than the number of
edges and goes on while edges are pending; it follows no edge twice and merges what the edges bind
that it follows.  No way outward over the owners is endless.  So the computation without any bound
has one result, which is the one of the computation with bounds. -/
theorem resolution_ends
    (root : Value) (entries : Predecessors) (a : Address) :
    (∀ fromInside steps last,
        (a.walkOver entries fromInside).Run ((a.walkOver entries fromInside).start a.lastId)
            steps last →
          steps.length < (entries.edgeCount + 1) * (entries.edgeCount + 1) ∧
            steps.reduceOption.Nodup ∧
            last.tree = steps.reduceOption.foldl
              (fun tree edge => KeyTree.merge tree ((a.walkOver entries fromInside).bound edge))
              KeyTree.empty ∧
            (last.pending ≠ [] →
              ∃ step next, (a.walkOver entries fromInside).Turn last step next)) ∧
      WellFounded (Address.OwnedBy root) ∧
      (∀ fromInside, ∃ scope, Resolves root entries a fromInside scope ∧
        (∀ other, Resolves root entries a fromInside other → other = scope) ∧
        ∀ levels, a.parentPath.length < levels →
          scopeAt root entries levels a fromInside = scope) ∧
      ∀ target current goal, target.locate root = .ok (some goal) →
        (current.getD target).locate root = .ok (some a) →
        goal.isPresent = true → a.isPresent = true →
          ∃ scope, variableScope root entries target current = .ok scope ∧
            Resolves root entries a (!Path.same a.path goal.path) scope := by
  refine ⟨?_, Address.ownedBy_wellFounded root, ?_, ?_⟩
  · intro fromInside steps last hrun
    exact ⟨hrun.length_lt, hrun.nodup.1, hrun.tree_eq, Walk.exists_turn _⟩
  · intro fromInside
    obtain ⟨scope, hscope⟩ := exists_resolves root entries a fromInside
    refine ⟨scope, hscope, fun other hother => ?_, hscope.scopeAt_eq⟩
    have hlevels := Nat.lt_succ_self a.parentPath.length
    rw [← hother.scopeAt_eq _ hlevels, hscope.scopeAt_eq _ hlevels]
  · intro target current goal hgoal hstart hgoalPresent hpresent
    obtain ⟨scope, hscope⟩ := exists_resolves root entries a (!Path.same a.path goal.path)
    refine ⟨scope, ?_, hscope⟩
    have hlevels := parentPath_lt_of_locate hstart
    rw [variableScope_eq_bind, hgoal, hstart, ← hscope.scopeAt_eq _ hlevels]
    simp [Except.bind, Except.map, scopeBetween, hgoalPresent, hpresent]

end Resolution

/-- Two states that hand control to each other, and one that may not bind variables. -/
def handingBack : Value :=
  .obj [("States", .obj [
    ("A", .obj [("Type", .str "Pass"), ("Assign", .obj [("x", .int 1)]), ("Next", .str "B")]),
    ("B", .obj [("Type", .str "Pass"), ("Assign", .obj [("y", .int 1)]), ("Next", .str "A")]),
    ("C", .obj [("Type", .str "Succeed")])])]

/-- The first of them. -/
def firstHanded : Address where
  state := .obj [("Type", .str "Pass"), ("Assign", .obj [("x", .int 1)]), ("Next", .str "B")]
  parent := handingBack
  path := [.name "A"]
  parentPath := []

/-- Entries of another workflow: an edge from a state to itself, one from a state that does not
exist and one from a state that may not bind variables. -/
def foreignEntries : Predecessors :=
  [⟨[], "A", ["B"]⟩, ⟨[], "B", ["Z", "B", "C"]⟩]

/-- A walk of seven turns, two of which follow an edge. -/
theorem resolution_ends_foreignEntries :
    (∃ last, (firstHanded.walkOver foreignEntries false).Run
        ((firstHanded.walkOver foreignEntries false).start firstHanded.lastId)
        [some ("B", "A"), none, some ("B", "B"), none, none, none, none] last ∧
      7 < (foreignEntries.edgeCount + 1) * (foreignEntries.edgeCount + 1) ∧
      last.tree = KeyTree.merge
        (KeyTree.merge KeyTree.empty
          ((firstHanded.walkOver foreignEntries false).bound ("B", "A")))
        ((firstHanded.walkOver foreignEntries false).bound ("B", "B"))) ∧
      ∃ scope, variableScope handingBack foreignEntries (.id "A") none = .ok scope ∧
        Resolves handingBack foreignEntries firstHanded false scope := by
  obtain ⟨hwalk, -, -, hscope⟩ := resolution_ends handingBack foreignEntries firstHanded
  refine ⟨?_, hscope (.id "A") none _ rfl rfl rfl rfl⟩
  obtain ⟨last, hrun⟩ : ∃ last, (firstHanded.walkOver foreignEntries false).Run
      ((firstHanded.walkOver foreignEntries false).start firstHanded.lastId)
      [some ("B", "A"), none, some ("B", "B"), none, none, none, none] last :=
    ⟨_, .cons (.follow rfl) <| .cons (.drop rfl) <| .cons (.follow rfl) <| .cons (.drop rfl) <|
      .cons (.drop rfl) <| .cons (.drop rfl) <| .cons (.drop rfl) <| .nil _⟩
  obtain ⟨hless, -, htree, -⟩ := hwalk false _ _ hrun
  exact ⟨last, hrun, hless, htree⟩

end Workflow
