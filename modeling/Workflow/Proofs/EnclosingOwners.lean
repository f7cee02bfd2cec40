import Mathlib.Data.List.Infix
import Mathlib.Data.List.TakeWhile
import Workflow.Proofs.OwnerPaths
import Workflow.Scope.Resolve

/-!
# The owners around a state

A state is located by an owner path to its scope and its id.  The states that own the scopes around
it stand at the beginnings of its path that end in a name; the nearest of them is found by dropping
the branch index from the path of the scope.
-/

namespace Workflow

/-- The last segment is a name. -/
def Path.endsInName (p : Path) : Bool := (p.getLast?.bind Segment.name?).isSome

/-- The paths of the owners around a state, from the nearest outward. -/
def Path.enclosing (p : Path) : List Path := (p.dropLast.inits.filter Path.endsInName).reverse

/-- The owners around a state, from the nearest outward. -/
def ownersAround (root : Value) (p : Path) : List Address := p.enclosing.filterMap (findPath root)

/-- A Map state that runs distributed hides everything around it from its nested states. -/
def Address.isolates (a : Address) : Bool :=
  State.isKind a.state .map && State.isDistributed a.state

/-- States of one kind isolate together when Map states among them run in the same mode. -/
theorem Address.isolates_congr
    {a a' : Address} (hkind : State.kind? a.state = State.kind? a'.state)
    (hmode : State.kind? a.state = some .map → State.mode a.state = State.mode a'.state) :
    a.isolates = a'.isolates := by
  rw [isolates, isolates, State.isKind, State.isKind, ← hkind]
  by_cases hmap : State.kind? a.state = some .map
  · rw [State.isDistributed, State.isDistributed, hmode hmap]
  · have hother : (State.kind? a.state == some .map) = false := by simpa using hmap
    rw [hother, Bool.false_and, Bool.false_and]

/-- The owners around a state whose scopes it can see: those before the first that isolates. -/
def visibleOwners (root : Value) (p : Path) : List Address :=
  (ownersAround root p).takeWhile fun owner => !owner.isolates

namespace Path

@[simp] theorem endsInName_concat
    (p : Path) (id : Text) :
    endsInName (p ++ [.name id]) = true := by
  simp [endsInName, Segment.name?]

theorem endsInName_concat_index
    {s : Segment} (hs : s.index?.isSome = true) (p : Path) :
    endsInName (p ++ [s]) = false := by
  obtain ⟨i, hi⟩ := Option.isSome_iff_exists.mp hs
  simp [endsInName, Segment.name?_eq_none_of_index? hi]

/-- A path that ends in a name is its own owner path. -/
@[simp] theorem ofOwner_concat
    (p : Path) (id : Text) :
    ofOwner (p ++ [.name id]) = p ++ [.name id] := by
  simp [ofOwner, Segment.index?, Segment.toValue, Value.index?]

/-- The branch index is dropped from the path of a branch. -/
theorem ofOwner_concat_index
    {s : Segment} (hs : s.index?.isSome = true) (p : Path) :
    ofOwner (p ++ [s]) = p := by
  simp [ofOwner, hs]

/-- The path of an owner is a beginning of the path of its scope. -/
theorem ofOwner_prefix
    (p : Path) :
    p.ofOwner <+: p := by
  unfold ofOwner
  split
  · split
    · exact List.dropLast_prefix p
    · exact List.prefix_rfl
  · exact List.nil_prefix

/-- The beginnings of a path that end in a name, where the path itself ends in one. -/
theorem filter_inits_concat
    (p : Path) (id : Text) :
    ((p ++ [Segment.name id]).inits.filter endsInName).reverse =
      (p ++ [.name id]) :: enclosing (p ++ [.name id]) := by
  simp [enclosing, List.inits_append]

/-- The nearest owner of a state in the scope of a Map state, and the owners around it. -/
theorem enclosing_concat
    (p : Path) (id : Text) (t : Segment) :
    enclosing (p ++ [.name id] ++ [t]) = (p ++ [.name id]) :: enclosing (p ++ [.name id]) := by
  rw [enclosing, List.dropLast_concat, filter_inits_concat]

/-- The nearest owner of a state in a branch of a Parallel state, and the owners around it. -/
theorem enclosing_concat_index
    {s : Segment} (hs : s.index?.isSome = true) (p : Path) (id : Text) (t : Segment) :
    enclosing (p ++ [.name id] ++ [s] ++ [t]) =
      (p ++ [.name id]) :: enclosing (p ++ [.name id]) := by
  have hindex := endsInName_concat_index hs (p ++ [.name id])
  rw [enclosing, List.dropLast_concat, List.inits_append, List.filter_append]
  have hlast : ([s].inits.tail.map fun l => p ++ [.name id] ++ l) = [p ++ [.name id] ++ [s]] := by
    rfl
  rw [hlast, List.filter_singleton, hindex, cond_false, List.append_nil]
  exact filter_inits_concat p id

end Path

namespace OwnerPath

/-- The last owner on an owner path, and the segments that lead from it to its scope. -/
theorem exists_last
    {root scope : Value} {b : Path} (h : OwnerPath root b scope) (hne : b ≠ []) :
    ∃ front middle id owner, OwnerPath root front middle ∧
      (State.declared? middle).bind (Fields.get? · id) = some owner ∧
      ((State.kind? owner = some .map ∧ b = front ++ [.name id]) ∨
        (State.kind? owner = some .parallel ∧
          ∃ s : Segment, s.index?.isSome = true ∧ b = front ++ [.name id] ++ [s])) := by
  -- the last owner of the rest is the last owner of the whole, unless nothing follows
  induction h with
  | here scope =>
      exact absurd rfl hne
  | @map scope id owner rest inner howner hkind hrest ih =>
      cases rest with
      | nil =>
          exact ⟨[], scope, id, owner, OwnerPath.here scope, howner, Or.inl ⟨hkind, rfl⟩⟩
      | cons t rest =>
          obtain ⟨front, middle, id', owner', hfront, howner', hlast⟩ :=
            ih (List.cons_ne_nil t rest)
          refine ⟨.name id :: front, middle, id', owner', OwnerPath.map howner hkind hfront,
            howner', ?_⟩
          rcases hlast with ⟨hkind', heq⟩ | ⟨hkind', s, hs, heq⟩
          · exact Or.inl ⟨hkind', by rw [heq]; rfl⟩
          · exact Or.inr ⟨hkind', s, hs, by rw [heq]; rfl⟩
  | @branch scope id owner scopes s i branch rest inner howner hkind hscopes hindex hbranch
      hrest ih =>
      cases rest with
      | nil =>
          refine ⟨[], scope, id, owner, OwnerPath.here scope, howner, Or.inr ⟨hkind, s, ?_, rfl⟩⟩
          rw [hindex]
          rfl
      | cons t rest =>
          obtain ⟨front, middle, id', owner', hfront, howner', hlast⟩ :=
            ih (List.cons_ne_nil t rest)
          refine ⟨.name id :: s :: front, middle, id', owner',
            OwnerPath.branch howner hkind hscopes hindex hbranch hfront, howner', ?_⟩
          rcases hlast with ⟨hkind', heq⟩ | ⟨hkind', s', hs, heq⟩
          · exact Or.inl ⟨hkind', by rw [heq]; rfl⟩
          · exact Or.inr ⟨hkind', s', hs, by rw [heq]; rfl⟩

end OwnerPath

namespace Address

/-- The address of a state that an owner path and an id lead to. -/
structure Located (root : Value) (a : Address) (id : Text) : Prop where
  path_eq : a.path = a.parentPath ++ [.name id]
  scope : OwnerPath root a.parentPath a.parent
  declared : (State.declared? a.parent).bind (Fields.get? · id) = some a.state

namespace Located

variable {root : Value} {a : Address} {id : Text}

theorem id?_eq
    (ha : a.Located root id) :
    a.id? = some id := by
  simp [Address.id?, ha.path_eq, Segment.name?]

/-- The scope of a located state declares it, beside its siblings. -/
theorem siblings
    (ha : a.Located root id) :
    State.declared? a.parent = some a.siblings ∧ a.siblings.get? id = some a.state := by
  obtain ⟨states, hstates, hget⟩ := Option.bind_eq_some_iff.mp ha.declared
  have hsiblings : a.siblings = states := by
    rw [Address.siblings, hstates, Option.getD_some]
  rw [hsiblings]
  exact ⟨hstates, hget⟩

theorem parent_proper
    (ha : a.Located root id) (hroot : root.Proper) :
    a.parent.Proper :=
  ha.scope.proper hroot

theorem leads
    (ha : a.Located root id) :
    a.path.Leads := by
  rw [ha.path_eq]
  exact Path.leads_concat ha.scope.leads (Or.inl rfl)

end Located

end Address

/-- A value of some kind is no null. -/
theorem Address.isPresent_of_kind?
    {a : Address} {kind : StateKind} (h : State.kind? a.state = some kind) :
    a.isPresent = true := by
  rw [isPresent]
  cases hstate : a.state with
  | null =>
      rw [hstate] at h
      cases h
  | _ => rfl

namespace Address

/-- The nearest owner of a located state: it stands one scope further out, and the owners around
the state are this one and the owners around it. -/
theorem Located.exists_owner
    {root : Value} {a : Address} {id : Text}
    (ha : a.Located root id) (hne : a.parentPath ≠ []) :
    ∃ (owner : Address) (ownerId : Text), owner.Located root ownerId ∧ owner.isPresent = true ∧
      a.ownerPath = owner.path ∧ a.path.enclosing = owner.path :: owner.path.enclosing ∧
      owner.parentPath.length < a.parentPath.length ∧
      owner.parentPath.owners ≤ a.parentPath.owners := by
  obtain ⟨front, middle, ownerId, state, hfront, hstate, hlast⟩ := ha.scope.exists_last hne
  refine ⟨⟨state, middle, front ++ [.name ownerId], front⟩, ownerId, ⟨rfl, hfront, hstate⟩, ?_⟩
  rw [Address.ownerPath, ha.path_eq]
  rcases hlast with ⟨hkind, heq⟩ | ⟨hkind, s, hs, heq⟩
  · rw [heq]
    refine ⟨isPresent_of_kind? hkind, Path.ofOwner_concat front ownerId,
      Path.enclosing_concat _ _ _, ?_, ?_⟩
    · simp
    · simp [Path.owners]
  · rw [heq]
    refine ⟨isPresent_of_kind? hkind, Path.ofOwner_concat_index hs _,
      Path.enclosing_concat_index hs _ _ _, ?_, ?_⟩
    · simp
    · simp [Path.owners]

end Address

/-- Search by path finds the located states whose paths are not too long. -/
theorem findPath_eq_some_iff
    {root : Value} {p : Path} {a : Address} :
    findPath root p = some a ↔
      a.path = p ∧ p.length ≤ maxPathLength ∧ ∃ id, a.Located root id := by
  constructor
  · intro h
    rw [findPath.eq_def] at h
    split at h
    · next id hlast =>
        split at h
        · cases h
        · next hlength =>
            cases hscope : ownedScope root p.dropLast with
            | none =>
                rw [hscope] at h
                cases h
            | some scope =>
                rw [hscope] at h
                dsimp only at h
                split at h
                · next state hstate =>
                    cases h
                    refine ⟨rfl, Nat.le_of_not_lt hlength, id, ?_, ?_, hstate⟩
                    · exact (List.dropLast_append_getLast? _ hlast).symm
                    · exact OwnerPath.of_ownedScope hscope
                · cases h
    · cases h
  · rintro ⟨rfl, hlength, id, ha⟩
    have hlast : a.path.getLast? = some (.name id) := by
      rw [ha.path_eq, List.getLast?_concat]
    have hparent : a.path.dropLast = a.parentPath := by
      rw [ha.path_eq, List.dropLast_concat]
    rw [findPath.eq_def]
    simp only [hlast, Nat.not_lt.mpr hlength, if_false, hparent, ha.scope.ownedScope_eq,
      ha.declared]

namespace Address

theorem Located.length_parentPath
    {root : Value} {a : Address} {id : Text} {n : Nat} (ha : a.Located root id)
    (hlength : a.path.length ≤ n) :
    a.parentPath.length ≤ n := by
  rw [ha.path_eq, List.length_append] at hlength
  exact Nat.le_of_add_right_le hlength

/-- An owner is found under its path when the path of the scope that it owns is not too long. -/
theorem Located.findPath_ownerPath
    {root : Value} {a owner : Address} {ownerId : Text} (howner : owner.Located root ownerId)
    (hpath : a.ownerPath = owner.path) (hlength : a.parentPath.length ≤ maxPathLength) :
    findPath root a.ownerPath = some owner := by
  have hshorter : a.ownerPath.length ≤ a.parentPath.length :=
    (Path.ofOwner_prefix a.parentPath).length_le
  exact findPath_eq_some_iff.mpr ⟨hpath.symm, hshorter.trans hlength, ownerId, howner⟩

end Address

/-- What a search by id finds is declared by the scope, or found in a scope nested in it. -/
theorem searchId_cases
    {id : Text} {levels : Nat} {scope : Value} {path : Path} {a : Address}
    (h : searchId id (levels + 1) scope path = some a) :
    ∃ states, State.declared? scope = some states ∧
      ((∃ state, states.get? id = some state ∧
          a = ⟨state, scope, path ++ [.name id], path⟩) ∨
        ∃ field ∈ states, ∃ nested ∈ State.nestedScopes field.2 (path ++ [.name field.1]),
          searchId id levels nested.1 nested.2 = some a) := by
  rw [searchId] at h
  cases hstates : State.declared? scope with
  | none =>
      rw [hstates] at h
      cases h
  | some states =>
      rw [hstates] at h
      dsimp only at h
      refine ⟨states, rfl, ?_⟩
      cases hget : states.get? id with
      | some state =>
          rw [hget] at h
          cases h
          exact Or.inl ⟨state, rfl, rfl⟩
      | none =>
          rw [hget] at h
          obtain ⟨field, hfield, hinner⟩ := List.exists_of_findSome?_eq_some h
          obtain ⟨nested, hnested, hfound⟩ := List.exists_of_findSome?_eq_some hinner
          obtain ⟨hsearch, -⟩ := Option.filter_eq_some_iff.mp hfound
          exact Or.inr ⟨field, hfield, nested, hnested, hsearch⟩

/-- The path of what a search by id finds ends in the id. -/
theorem path_eq_of_searchId
    {id : Text} {a : Address} :
    ∀ {levels : Nat} {scope : Value} {path : Path},
      searchId id levels scope path = some a → a.path = a.parentPath ++ [.name id]
  | 0, _, _, h => by
      cases h
  | levels + 1, _, _, h => by
      obtain ⟨states, -, ⟨state, -, rfl⟩ | ⟨field, -, nested, -, hsearch⟩⟩ := searchId_cases h
      · rfl
      · exact path_eq_of_searchId hsearch

/-- On a path of names and indexes, search by path cannot fail. -/
theorem findPath?_of_leads
    {p : Path} (hp : p.Leads) (root : Value) :
    findPath? root p = .ok (findPath root p) := by
  unfold findPath? findPath
  cases hlast : p.getLast? with
  | none => rfl
  | some s =>
      cases s with
      | name id =>
          by_cases hlength : maxPathLength < p.length
          · simp only [hlength, if_true]
          · have hkeys : p.dropLast.span Segment.isKey = (p.dropLast, []) := by
              rw [List.span_eq_takeWhile_dropWhile]
              have hall : ∀ s ∈ p.dropLast, s.isKey = true := fun s hs =>
                Segment.isKey_of_leads (hp s (List.mem_of_mem_dropLast hs))
              rw [List.takeWhile_eq_self_iff.mpr hall, List.dropWhile_eq_nil_iff.mpr hall]
            simp only [hlength, if_false, hkeys]
      | index i => rfl
      | other v => rfl

/-- A checked search by path finds nothing else than the search by path. -/
theorem findPath_of_findPath?
    {root : Value} {p : Path} {a : Address} (h : findPath? root p = .ok (some a)) :
    findPath root p = some a := by
  unfold findPath? at h
  split at h
  · split at h
    · cases h
    · split at h
      · split at h <;> cases h
      · exact Except.ok.inj h
  · cases h

/-- A state at the top sees no owners. -/
theorem visibleOwners_singleton
    (root : Value) (s : Segment) :
    visibleOwners root [s] = [] := by
  rfl

/-- A state sees its nearest owner and what this owner sees, unless the owner isolates it. -/
theorem visibleOwners_of_owner
    {root : Value} {p : Path} {owner : Address}
    (hfind : findPath root owner.path = some owner)
    (henclosing : p.enclosing = owner.path :: owner.path.enclosing) :
    visibleOwners root p =
      if owner.isolates then [] else owner :: visibleOwners root owner.path := by
  rw [visibleOwners, ownersAround, henclosing, List.filterMap_cons_some hfind, List.takeWhile_cons]
  cases owner.isolates with
  | true => rfl
  | false => rfl

/-- Seen from inside, a Map state that isolates has no variables at all. -/
theorem scopeAt_of_isolates
    {a : Address} (ha : a.isolates = true) (root : Value) (entries : Predecessors) (levels : Nat) :
    scopeAt root entries levels a true = .none := by
  cases levels with
  | zero => rfl
  | succ levels =>
      rw [Address.isolates] at ha
      rw [scopeAt, Bool.true_and, ha, if_pos rfl]

/-- The variables in scope at a goal, seen from a start, where both may be missing. -/
def scopeBetween (root : Value) (entries : Predecessors) :
    Option Address → Option Address → VariableScope
  | some goal, some start =>
    if goal.isPresent && start.isPresent then
      scopeAt root entries start.path.length start (!Path.same start.path goal.path)
    else .none
  | _, _ => .none

/-- Only the search for the two addresses can fail. -/
theorem variableScope_eq_bind
    (root : Value) (entries : Predecessors) (target : Reference) (current : Option Reference) :
    variableScope root entries target current =
      (target.locate root).bind fun goal =>
        ((current.getD target).locate root).map fun start =>
          scopeBetween root entries goal start := by
  have hanswer : ∀ goal start : Option Address,
      (match goal, start with
        | some goal, some start =>
          if goal.isPresent && start.isPresent then
            pure (scopeAt root entries start.path.length start (!Path.same start.path goal.path))
          else pure .none
        | _, _ => pure .none : Except Fault VariableScope) =
        .ok (scopeBetween root entries goal start) := by
    intro goal start
    cases goal with
    | none => rfl
    | some goal =>
        cases start with
        | none => rfl
        | some start =>
            rw [scopeBetween]
            dsimp only
            split <;> rfl
  unfold variableScope
  cases current with
  | none =>
      rw [Option.getD_none]
      cases target.locate root with
      | error fault => rfl
      | ok goal => exact hanswer goal goal
  | some reference =>
      rw [Option.getD_some]
      cases target.locate root with
      | error fault => rfl
      | ok goal =>
          dsimp only
          cases reference.locate root with
          | error fault => rfl
          | ok start => exact hanswer goal start

end Workflow
