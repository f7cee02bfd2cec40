import Workflow.Proofs.AdjacencyEntries
import Workflow.Proofs.EnclosingOwners

/-!
# The first declaration of an id

A search by id looks at all states of a scope before it goes into a nested one, whereas a visit goes
into the scopes of a state before it comes to the next state beside it.  What the search finds is
therefore not the first state with the id that a visit reports, but the one in the first scope that
declares the id, where a scope stands before everything nested in it and the nested scopes stand in
the order of their owners and branches.  The search takes a null for no result and goes on, so the
two agree only where no state is null.
-/

namespace Workflow

/-- A search of a list of lists goes through the one after the other. -/
theorem findSome?_flatMap
    {α β γ : Type} (l : List α) (g : α → List β) (f : β → Option γ) :
    (l.flatMap g).findSome? f = l.findSome? fun x => (g x).findSome? f := by
  induction l with
  | nil => rfl
  | cons x l ih =>
      rw [List.flatMap_cons, List.findSome?_append, ih, List.findSome?_cons]
      cases (g x).findSome? f <;> rfl

theorem findSome?_congr
    {α β : Type} {l : List α} {f g : α → Option β} (h : ∀ x ∈ l, f x = g x) :
    l.findSome? f = l.findSome? g := by
  induction l with
  | nil => rfl
  | cons x l ih =>
      rw [List.findSome?_cons, List.findSome?_cons, h x List.mem_cons_self,
        ih fun y hy => h y (List.mem_cons_of_mem _ hy)]

/-- The state that a scope itself declares under an id. -/
def declaredAs (id : Text) (s : Value × Path) : Option Address :=
  ((State.declared? s.1).bind (Fields.get? · id)).map fun state =>
    ⟨state, s.1, s.2 ++ [.name id], s.2⟩

/-- What a scope declares under an id, a visit of the scope reports. -/
theorem declaredAs_eq_some
    {id : Text} {s : Value × Path} {a : Address} (h : declaredAs id s = some a) :
    a.parent = s.1 ∧ a.parentPath = s.2 ∧ a.path = s.2 ++ [.name id] ∧
      (⟨id, a.state, a.parent, a.path⟩ : Visit) ∈ declaredVisits s.1 s.2 := by
  obtain ⟨state, hdeclared, rfl⟩ := Option.map_eq_some_iff.mp h
  obtain ⟨states, hstates, hget⟩ := Option.bind_eq_some_iff.mp hdeclared
  exact ⟨rfl, rfl, rfl,
    mem_declaredVisits_iff.mpr ⟨states, hstates, Fields.mem_of_get? hget, rfl, rfl⟩⟩

/-- A scope that declares nothing under an id has no visit with this id. -/
theorem declaredAs_eq_none
    {id : Text} {s : Value × Path} (h : declaredAs id s = none) :
    ∀ v ∈ declaredVisits s.1 s.2, v.id ≠ id := by
  rintro v hv rfl
  obtain ⟨states, hstates, hmem, -⟩ := mem_declaredVisits_iff.mp hv
  have hname : v.id ∈ Fields.names states := List.mem_map_of_mem hmem
  rw [← Fields.has_iff, ← Fields.isSome_get?] at hname
  have hmissing := Option.map_eq_none_iff.mp h
  rw [hstates, Option.bind_some] at hmissing
  rw [hmissing] at hname
  cases hname

/-- Where no state is null, a search by id asks the scopes that a visit enters one after the other,
each before those nested in it. -/
theorem searchId_eq_findSome?
    (id : Text) (levels : Nat) :
    ∀ (scope : Value) (path : Path),
      (∀ v ∈ preorder levels scope path, v.state.isNull = false) →
        searchId id levels scope path =
          (visitedScopes levels scope path).findSome? (declaredAs id) := by
  induction levels with
  | zero => exact fun _ _ _ => rfl
  | succ levels ih =>
      intro scope path hstates
      rw [searchId, visitedScopes]
      cases hdeclared : State.declared? scope with
      | none => rfl
      | some states =>
          have hhere : declaredAs id (scope, path) = (states.get? id).map fun state =>
              ⟨state, scope, path ++ [.name id], path⟩ := by
            rw [declaredAs, hdeclared]
            rfl
          dsimp only
          rw [List.findSome?_cons, hhere]
          cases hget : states.get? id with
          | some state => rfl
          | none =>
              simp only [Option.map_none, findSome?_flatMap]
              refine findSome?_congr fun field hfield => findSome?_congr fun nested hnested => ?_
              have hbelow : ∀ v ∈ preorder levels nested.1 nested.2, v.state.isNull = false := by
                intro v hv
                refine hstates v ?_
                rw [preorder, hdeclared]
                exact List.mem_flatMap.mpr ⟨field, hfield, List.mem_cons_of_mem _
                  (List.mem_flatMap.mpr ⟨nested, hnested, hv⟩)⟩
              rw [ih _ _ hbelow]
              cases hfind : (visitedScopes levels nested.1 nested.2).findSome? (declaredAs id) with
              | none => rfl
              | some a =>
                  -- what is found is a state that a visit reports, so it is no null
                  obtain ⟨s, hs, hfound⟩ := List.exists_of_findSome?_eq_some hfind
                  have hvisit := (mem_preorder_iff_visitedScopes levels nested.1 nested.2).mpr
                    ⟨s, hs, (declaredAs_eq_some hfound).2.2.2⟩
                  have hpresent : a.isPresent = true := by
                    rw [Address.isPresent, hbelow _ hvisit, Bool.not_false]
                  exact Option.filter_some_pos hpresent

/-- A visit reports the states of the scopes that it enters. -/
theorem mem_allStates_iff_visitedScopes
    {root : Value} {v : Visit} :
    v ∈ allStates root ↔
      ∃ s ∈ visitedScopes allLevels root [], v ∈ declaredVisits s.1 s.2 :=
  mem_preorder_iff_visitedScopes allLevels root []

/-- No scope declares an id exactly if a visit reports no state with this id. -/
theorem findSome?_declaredAs_eq_none_iff
    {root : Value} {id : Text} :
    (visitedScopes allLevels root []).findSome? (declaredAs id) = none ↔
      id ∉ allStateIds root := by
  rw [List.findSome?_eq_none_iff]
  constructor
  · rintro hnone hid
    obtain ⟨v, hv, rfl⟩ := List.mem_map.mp hid
    obtain ⟨s, hs, hv⟩ := mem_allStates_iff_visitedScopes.mp hv
    exact declaredAs_eq_none (hnone s hs) v hv rfl
  · intro hid s hs
    rw [Option.eq_none_iff_forall_ne_some]
    intro a ha
    obtain ⟨-, -, -, hvisit⟩ := declaredAs_eq_some ha
    exact hid (List.mem_map.mpr ⟨_, mem_allStates_iff_visitedScopes.mpr ⟨s, hs, hvisit⟩, rfl⟩)

section Search

variable {root : Value} (hroot : root.Proper)
variable (hstates : ∀ v ∈ allStates root, v.state.isNull = false)

include hroot hstates

/-- Where no state is null, a search by id finds a state exactly if a visit reports one with this
id.  It then finds the state in the first scope that declares the id, as a visit reports it: of the
scopes that a visit enters, none before this one declares the id, and any other state with the id
stands in a scope whose path comes later. -/
theorem findId_first
    (id : Text) :
    (findId root id [] = none ↔ id ∉ allStateIds root) ∧
      ∀ a, findId root id [] = some a →
        (∃ v ∈ allStates root, v.id = id ∧ a = ⟨v.state, v.parent, v.path, v.path.dropLast⟩) ∧
        (∃ before after,
          visitedScopes allLevels root [] = before ++ (a.parent, a.parentPath) :: after ∧
            ∀ s ∈ before, ∀ v ∈ declaredVisits s.1 s.2, v.id ≠ id) ∧
        ∀ v ∈ allStates root, v.id = id →
          v.path = a.path ∨ Precedes root a.parentPath v.path.dropLast := by
  have hsearch : findId root id [] =
      (visitedScopes allLevels root []).findSome? (declaredAs id) :=
    searchId_eq_findSome? id allLevels root [] hstates
  rw [hsearch]
  refine ⟨findSome?_declaredAs_eq_none_iff, fun a ha => ?_⟩
  obtain ⟨before, s, after, hsplit, hfound, hnone⟩ := List.findSome?_eq_some_iff.mp ha
  obtain ⟨hparent, hparentPath, hpath, hvisit⟩ := declaredAs_eq_some hfound
  have hbefore : ∀ s ∈ before, ∀ v ∈ declaredVisits s.1 s.2, v.id ≠ id := fun s hs =>
    declaredAs_eq_none (hnone s hs)
  have hs : s = (a.parent, a.parentPath) := by
    rw [hparent, hparentPath]
  refine ⟨⟨_, mem_allStates_iff_visitedScopes.mpr ⟨s, ?_, hvisit⟩, rfl, ?_⟩,
    ⟨before, after, hs ▸ hsplit, hbefore⟩, ?_⟩
  · rw [hsplit]
    exact List.mem_append_right _ List.mem_cons_self
  · have hfront : a.path.dropLast = a.parentPath := by
      rw [hpath, List.dropLast_concat, hparentPath]
    dsimp only
    rw [hfront]
  · rintro v hv rfl
    obtain ⟨t, ht, hvt⟩ := mem_allStates_iff_visitedScopes.mp hv
    obtain ⟨-, -, -, -, hvpath⟩ := mem_declaredVisits_iff.mp hvt
    rw [hvpath, List.dropLast_concat, hparentPath, hpath]
    -- the scope of the visit cannot be one of those before
    rcases visitedScopes_cases hroot hsplit ht with htBefore | rfl | hlater
    · exact absurd rfl (hbefore t htBefore v hvt)
    · exact Or.inl rfl
    · exact Or.inr hlater

end Search

/-- A state in a Map state, and one with the same id behind the Map state. -/
def sharedId : Value :=
  .obj [("States", .obj [
    ("M", .obj [("Type", .str "Map"), ("Next", .str "X"),
      ("ItemProcessor", .obj [("States", .obj [("X", .obj [("Type", .str "Pass")])])])]),
    ("X", .obj [("Type", .str "Succeed")])])]

/-- The search finds the outer state, although a visit reports the inner one before it. -/
theorem findId_first_sharedId :
    (allStates sharedId).map Visit.path =
        [[.name "M"], [.name "M", .name "X"], [.name "X"]] ∧
      ∃ a, findId sharedId "X" [] = some a ∧ a.path = [.name "X"] ∧
        (∃ v ∈ allStates sharedId, v.id = "X" ∧
          a = ⟨v.state, v.parent, v.path, v.path.dropLast⟩) ∧
        ∀ v ∈ allStates sharedId, v.id = "X" →
          v.path = a.path ∨ Precedes sharedId a.parentPath v.path.dropLast := by
  have hproper : sharedId.Proper := by decide
  have hstates : ∀ v ∈ allStates sharedId, v.state.isNull = false := by
    have hall : ((allStates sharedId).all fun v => !v.state.isNull) = true := by rfl
    simpa using hall
  obtain ⟨hvisit, -, horder⟩ := (findId_first hproper hstates "X").2 _ rfl
  exact ⟨rfl, _, rfl, rfl, hvisit, horder⟩

end Workflow
