import Workflow.Proofs.CheckedGenerations
import Workflow.Proofs.LenientChecks
import Workflow.Proofs.StateOrder

/-!
# Checks and the order of declarations

A scope may declare its states in any order, and under repeated names.  The check of a document
goes through the declarations one by one, but what it finds at one of them depends on the others
only through the names that the scope has and the states that are reached in it, and neither depends
on the order.  So the same is found in both orders; only the findings stand in another order.
-/

namespace Workflow

/-- What a property of an object of some role may stand for.  The kind of a state is not asked for:
fields that nest scopes in some states may do so in all of them. -/
def Role.below : Role → Text → Role
  | .scope, name => if name = statesKey then .states else .data
  | .states, _ => .state
  | .state, name =>
    if name = "ItemProcessor" ∨ name = "Iterator" then .scope
    else if name = "Branches" then .branches
    else .data
  | _, _ => .data

theorem Role.scope_ne_states :
    Role.scope ≠ .states := by
  intro h
  cases h

theorem Role.state_ne_states :
    Role.state ≠ .states := by
  intro h
  cases h

/-- Only the fields that nest scopes hold no data. -/
theorem Role.below_state
    {name : Text} (hname : name ∉ State.nestingFields) :
    Role.below .state name = .data := by
  simp only [State.nestingFields, List.mem_cons, List.not_mem_nil, or_false, not_or] at hname
  rw [Role.below, if_neg (not_or.mpr ⟨hname.1, hname.2.1⟩), if_neg hname.2.2]

/-- Trees that differ at most in the order in which one scope in them declares its states.  Every
declaration keeps its spans and what it holds. -/
inductive Tree.Reordered : Role → Tree → Tree → Prop
  | same (role : Role) (t : Tree) :
      Tree.Reordered role t t
  | states
      (span : Span) {properties properties' : List (Property Tree)}
      (hperm : properties.Perm properties') :
      Tree.Reordered .states (.object span properties) (.object span properties')
  | property
      {role : Role} (span : Span) (front : List (Property Tree)) (own : Span) (key : Key)
      (colon : Option Nat) {t t' : Tree} (back : List (Property Tree))
      (h : Tree.Reordered (role.below key.name) t t') :
      Tree.Reordered role (.object span (front ++ ⟨own, key, colon, some t⟩ :: back))
        (.object span (front ++ ⟨own, key, colon, some t'⟩ :: back))
  | item
      {role : Role} (span : Span) (front : List Tree) {t t' : Tree} (back : List Tree)
      (h : Tree.Reordered role.item t t') :
      Tree.Reordered role (.array span (front ++ t :: back)) (.array span (front ++ t' :: back))

/-- Properties of an object of some role, under one key, whose values are such trees. -/
inductive Property.Reordered (role : Role) : Property Tree → Property Tree → Prop
  | same (p : Property Tree) :
      Property.Reordered role p p
  | value
      (span : Span) (key : Key) (colon : Option Nat) {t t' : Tree}
      (h : Tree.Reordered (role.below key.name) t t') :
      Property.Reordered role ⟨span, key, colon, some t⟩ ⟨span, key, colon, some t'⟩

section Lists

variable {α β : Type} {r : α → α → Prop} {l l' : List α}

theorem isSome_of_rel
    {o o' : Option α} (h : Option.Rel r o o') :
    o'.isSome = o.isSome := by
  cases h <;> rfl

theorem forall₂_of_refl
    (hr : ∀ a, r a a) (l : List α) :
    List.Forall₂ r l l :=
  List.forall₂_same.mpr fun a _ => hr a

/-- Lists that differ in one element are related when this element is. -/
theorem forall₂_of_replaced
    (hr : ∀ a, r a a) (front : List α) {a a' : α} (h : r a a') (back : List α) :
    List.Forall₂ r (front ++ a :: back) (front ++ a' :: back) :=
  List.rel_append (forall₂_of_refl hr front) (List.Forall₂.cons h (forall₂_of_refl hr back))

/-- A computation that answers alike for related elements answers alike for related lists. -/
theorem mapM_congr_of_forall₂
    {f : α → Except Fault β} (h : List.Forall₂ r l l') (hf : ∀ a a', r a a' → f a' = f a) :
    l'.mapM f = l.mapM f := by
  induction h with
  | nil => rfl
  | @cons a a' l l' hfirst _ ih => rw [List.mapM_cons, List.mapM_cons, hf a a' hfirst, ih]

/-- Permutations of what is made of related elements. -/
theorem perm_flatMap_of_forall₂
    {f f' : α → List β} (h : List.Forall₂ r l l') (hf : ∀ a a', r a a' → (f a).Perm (f' a')) :
    (l.flatMap f).Perm (l'.flatMap f') := by
  induction h with
  | nil => exact List.Perm.refl []
  | @cons a a' l l' hfirst _ ih =>
      rw [List.flatMap_cons, List.flatMap_cons]
      exact (hf a a' hfirst).append ih

/-- Nothing related is found in related lists, or the first elements found are related. -/
theorem find?_of_forall₂
    {p : α → Bool} (h : List.Forall₂ r l l') (hp : ∀ a a', r a a' → p a' = p a) :
    Option.Rel r (l.find? p) (l'.find? p) := by
  induction h with
  | nil => exact Option.Rel.none
  | @cons a a' l l' hfirst _ ih =>
      rw [List.find?_cons, List.find?_cons, hp a a' hfirst]
      cases p a with
      | true => exact Option.Rel.some hfirst
      | false => exact ih

end Lists

namespace Property.Reordered

variable {role : Role} {p p' : Property Tree}

theorem key_eq
    (h : Property.Reordered role p p') :
    p'.key = p.key := by
  cases h <;> rfl

theorem colon_eq
    (h : Property.Reordered role p p') :
    p'.colon = p.colon := by
  cases h <;> rfl

theorem value_rel
    (h : Property.Reordered role p p') :
    Option.Rel (Tree.Reordered (role.below p.key.name)) p.value p'.value := by
  cases h with
  | same => exact Option.rel_refl (Tree.Reordered.same _) p.value
  | value span key colon h => exact Option.Rel.some h

end Property.Reordered

namespace Tree.Reordered

variable {role : Role} {t t' : Tree}

theorem isObject_eq
    (h : Reordered role t t') :
    t'.isObject = t.isObject := by
  cases h <;> rfl

/-- Data stay as they are. -/
theorem eq_of_data
    (h : Reordered role t t') (hrole : role = .data) :
    t' = t := by
  induction h with
  | same => rfl
  | states => cases hrole
  | property span front own key colon back h ih => rw [ih (by rw [hrole]; rfl)]
  | item span front back h ih => rw [ih (by rw [hrole]; rfl)]

/-- Where no states are declared, the properties correspond to each other one by one. -/
theorem properties?_rel
    (h : Reordered role t t') (hrole : role ≠ .states) :
    Option.Rel (List.Forall₂ (Property.Reordered role)) t.properties? t'.properties? := by
  cases h with
  | same =>
      exact Option.rel_refl (forall₂_of_refl Property.Reordered.same) t.properties?
  | states => exact absurd rfl hrole
  | property span front own key colon back h =>
      exact Option.Rel.some
        (forall₂_of_replaced Property.Reordered.same front (.value own key colon h) back)
  | item => exact Option.Rel.none

/-- Declared states correspond to each other one by one after they have been permuted. -/
theorem properties?_rel_states
    (h : Reordered .states t t') :
    Option.Rel (fun ps ps' => ∃ moved, ps.Perm moved ∧
      List.Forall₂ (Property.Reordered .states) moved ps') t.properties? t'.properties? := by
  cases h with
  | same =>
      exact Option.rel_refl
        (fun ps => ⟨ps, List.Perm.refl ps, forall₂_of_refl Property.Reordered.same ps⟩)
        t.properties?
  | states span hperm =>
      exact Option.Rel.some ⟨_, hperm, forall₂_of_refl Property.Reordered.same _⟩
  | property span front own key colon back h =>
      exact Option.Rel.some ⟨_, List.Perm.refl _,
        forall₂_of_replaced Property.Reordered.same front (.value own key colon h) back⟩
  | item => exact Option.Rel.none

/-- The items of an array correspond to each other one by one. -/
theorem items?_rel
    (h : Reordered role t t') :
    Option.Rel (List.Forall₂ (Reordered role.item)) t.items? t'.items? := by
  cases h with
  | same => exact Option.rel_refl (forall₂_of_refl (same role.item)) t.items?
  | states => exact Option.Rel.none
  | property => exact Option.Rel.none
  | item span front back h =>
      exact Option.Rel.some (forall₂_of_replaced (same role.item) front h back)

/-- The first properties with a key correspond to each other. -/
theorem property?_rel
    (h : Reordered role t t') (hrole : role ≠ .states) (name : Text) :
    Option.Rel (Property.Reordered role) (t.property? name) (t'.property? name) := by
  unfold Tree.property?
  obtain ⟨hnone, hnone'⟩ | ⟨ps, ps', hps, hps', hrel⟩ := Option.rel_cases (h.properties?_rel hrole)
  · rw [hnone, hnone']
    exact Option.Rel.none
  · rw [hps, hps']
    exact find?_of_forall₂ hrel fun p p' hp => by rw [hp.key_eq]

/-- What the first properties with a key hold corresponds to each other. -/
theorem value_rel
    (h : Reordered role t t') (hrole : role ≠ .states) (name : Text) :
    Option.Rel (Reordered (role.below name)) ((t.property? name).bind Property.value)
      ((t'.property? name).bind Property.value) := by
  obtain ⟨hnone, hnone'⟩ | ⟨p, p', hp, hp', hrel⟩ := Option.rel_cases (h.property?_rel hrole name)
  · rw [hnone, hnone']
    exact Option.Rel.none
  · rw [hp, hp', Option.bind_some, Option.bind_some, ← name_of_property? hp]
    exact hrel.value_rel

/-- A property that holds data stays as it is. -/
theorem property?_eq
    (h : Reordered role t t') (hrole : role ≠ .states) {name : Text}
    (hdata : role.below name = .data) :
    t'.property? name = t.property? name := by
  obtain ⟨hnone, hnone'⟩ | ⟨p, p', hp, hp', hrel⟩ := Option.rel_cases (h.property?_rel hrole name)
  · rw [hnone, hnone']
  · rw [hp, hp']
    rw [← name_of_property? hp] at hdata
    cases hrel with
    | same => rfl
    | value span key colon h => rw [h.eq_of_data hdata]

end Tree.Reordered

/-! ## States -/

/-- Assignments leave a field under every name that is assigned to. -/
theorem Fields.has_ofAssignments
    (assignments : List (Text × Value)) (name : Text) :
    (ofAssignments assignments).has name = assignments.any fun a => a.1 == name := by
  have hset : ∀ (fields : Fields),
      (assignments.foldl (fun fields a => fields.set a.1 a.2) fields).has name =
        (fields.has name || assignments.any fun a => a.1 == name) := by
    induction assignments with
    | nil =>
        intro fields
        rw [List.any_nil, Bool.or_false]
        rfl
    | cons a assignments ih =>
        intro fields
        rw [List.foldl_cons, ih, List.any_cons, ← Bool.or_assoc]
        congr 1
        rw [Bool.eq_iff_iff, Bool.or_eq_true, beq_iff_eq, has_iff, has_iff, names_set]
        split
        · next hknown =>
            refine ⟨Or.inl, Or.rec id ?_⟩
            rintro rfl
            exact has_iff.mp hknown
        · rw [List.mem_append, List.mem_singleton, eq_comm]
  exact hset []

namespace Tree

/-- An object has a field with a name when it has a property with this key. -/
theorem isSome_get?_toValue
    (t : Tree) (name : Text) :
    (t.toValue.get? name).isSome = (t.property? name).isSome := by
  cases t with
  | object span properties =>
      rw [toValue, property?, properties?, Option.bind_some, List.isSome_find?, Value.get?,
        Value.fields?, Option.bind_some, Fields.isSome_get?, Fields.has_ofAssignments,
        propertyValues_eq_map, List.any_map]
      rfl
  | number span n => cases n <;> rfl
  | _ => rfl

namespace Reordered

section State

variable {t t' : Tree} (h : Reordered .state t t')

include h

/-- Only what is nested in a state may be different. -/
theorem property?_eq_of_state
    (name : Text) (hname : name ∉ State.nestingFields) :
    t'.property? name = t.property? name :=
  h.property?_eq Role.state_ne_states (Role.below_state hname)

theorem isSome_get?_eq
    (name : Text) :
    (t'.toValue.get? name).isSome = (t.toValue.get? name).isSome := by
  rw [isSome_get?_toValue, isSome_get?_toValue]
  exact isSome_of_rel (h.property?_rel Role.state_ne_states name)

theorem selectorField_eq :
    State.selectorField t'.toValue = State.selectorField t.toValue := by
  rw [State.selectorField, State.selectorField, h.isSome_get?_eq]

theorem processorField_eq :
    State.processorField t'.toValue = State.processorField t.toValue := by
  rw [State.processorField, State.processorField, ← Option.not_isSome, ← Option.not_isSome,
    h.isSome_get?_eq, h.isSome_get?_eq]

theorem kindOf_eq :
    Check.kindOf t' = Check.kindOf t :=
  Check.kindOf_congr h.property?_eq_of_state

end State

end Reordered

end Tree

/-! ## Fields -/

namespace Tables

/-- A kind whose table has no further tables for the fields that may nest scopes. -/
def NestsFreely (kind : Value) : Prop :=
  ∀ name ∈ State.nestingFields,
    ((part (if kind.isNull then .obj [] else kind) "Properties").get name).isObject = false

theorem nestsFreely_packaged
    {t : Option Tree} {kind : Value} (h : kindTable (.obj stateTypes) t = .ok kind) :
    NestsFreely kind := by
  have hnull : NestsFreely .null := by
    intro name _
    rfl
  unfold kindTable at h
  split at h
  · next word _ =>
      cases h
      refine get_of_fields (P := NestsFreely) hnull ?_ word
      simp only [stateTypes, List.forall_mem_cons, NestsFreely, State.nestingFields]
      decide +kernel
  · cases h
    exact hnull

/-- What a field holds is not looked into when the table has no table for it. -/
theorem statePropertyFindings_congr
    {named common kind : Value} {hasCommon : Bool} {p p' : Property Tree} (hkey : p'.key = p.key)
    (hflat : ((part (if kind.isNull then .obj [] else kind) "Properties").get
      p.key.name).isObject = false) :
    statePropertyFindings named common kind hasCommon p' =
      statePropertyFindings named common kind hasCommon p := by
  unfold statePropertyFindings
  rw [hkey]
  refine bind_congr_of_ok fun isCommon _ => ?_
  split
  · rfl
  · refine bind_congr_of_ok fun fields hfields => bind_congr_of_ok fun entry hentry => ?_
    have hnotable : entry.isObject = false := by
      rw [(lookup_delivers _ _).yields entry hentry, (lookupD_delivers _ _ _).yields fields hfields]
      exact hflat
    rw [hnotable]
    split
    · cases p'.value <;> cases p.value <;> rfl
    · rfl

theorem stateFindings_reordered
    {t t' : Tree} (h : Tree.Reordered .state t t') :
    stateFindings packaged (some t') = stateFindings packaged (some t) := by
  have htype : kindTable (.obj stateTypes) (some t') = kindTable (.obj stateTypes) (some t) := by
    rw [kindTable, kindTable, Option.bind_some, Option.bind_some,
      h.property?_eq_of_state "Type" (by decide)]
  unfold stateFindings
  refine bind_congr_of_ok fun kinds hkinds => ?_
  refine bind_congr_of_ok fun common _ => bind_congr_of_ok fun named _ => ?_
  cases hkinds
  change kindTable (.obj stateTypes) (some t') >>= _ = kindTable (.obj stateTypes) (some t) >>= _
  rw [htype]
  refine bind_congr_of_ok fun kind hkind => bind_congr_of_ok fun hasCommon _ => ?_
  rw [Option.bind_some, Option.bind_some]
  obtain ⟨hnone, hnone'⟩ | ⟨ps, ps', hps, hps', hrel⟩ :=
    Option.rel_cases (h.properties?_rel Role.state_ne_states)
  · rw [hnone, hnone']
  · rw [hps, hps']
    refine congrArg (· >>= _) (mapM_congr_of_forall₂ hrel fun p p' hp => ?_)
    by_cases hnests : p.key.name ∈ State.nestingFields
    · exact statePropertyFindings_congr hp.key_eq (nestsFreely_packaged hkind _ hnests)
    · cases hp with
      | same => rfl
      | value span key colon h => rw [h.eq_of_data (Role.below_state hnests)]

theorem unknownFields_reordered
    {role : Role} {properties properties' : List (Property Tree)}
    (h : List.Forall₂ (Property.Reordered role) properties properties')
    (allowed : Text → Except Fault Bool) :
    unknownFields allowed properties' = unknownFields allowed properties := by
  unfold unknownFields
  exact congrArg (· >>= _) (mapM_congr_of_forall₂ h fun p p' hp => by rw [hp.key_eq])

end Tables

namespace Check

/-! ## The check of one state -/

section State

variable {t t' : Tree} (h : Tree.Reordered .state t t')

include h

/-- The scopes nested in a state correspond to each other one by one. -/
theorem nested_reordered :
    List.Forall₂ (fun inner inner' => inner'.1 = inner.1 ∧
        Tree.Reordered .scope inner.2 inner'.2)
      (nested (kindOf t) t) (nested (kindOf t') t') := by
  rw [h.kindOf_eq]
  unfold nested
  split
  · rw [h.processorField_eq]
    have hbelow : Role.below .state (State.processorField t.toValue) = .scope := by
      unfold State.processorField
      split <;> rfl
    obtain ⟨hnone, hnone'⟩ | ⟨scope, scope', hscope, hscope', hrel⟩ :=
      Option.rel_cases (h.value_rel Role.state_ne_states (State.processorField t.toValue))
    · rw [hnone, hnone']
      exact List.Forall₂.nil
    · rw [hbelow] at hrel
      rw [hscope, hscope']
      dsimp only
      rw [hrel.isObject_eq]
      split
      · exact List.Forall₂.cons ⟨rfl, hrel⟩ List.Forall₂.nil
      · exact List.Forall₂.nil
  · obtain ⟨hnone, hnone'⟩ | ⟨branches, branches', hbranches, hbranches', hrel⟩ :=
      Option.rel_cases (h.value_rel Role.state_ne_states "Branches")
    · rw [hnone, hnone']
      exact List.Forall₂.nil
    · have hrel : Tree.Reordered .branches branches branches' := hrel
      rw [hbranches, hbranches', Option.bind_some, Option.bind_some]
      obtain ⟨hnone, hnone'⟩ | ⟨scopes, scopes', hscopes, hscopes', hitems⟩ :=
        Option.rel_cases hrel.items?_rel
      · rw [hnone, hnone']
        exact List.Forall₂.nil
      · rw [hscopes, hscopes']
        dsimp only
        have hobjects := List.rel_filter (p := Tree.isObject) (q := Tree.isObject)
          (fun scope scope' hscope => Bool.eq_iff_iff.mp hscope.isObject_eq.symm) hitems
        exact List.rel_map (fun scope scope' hscope => ⟨rfl, hscope⟩) hobjects
  · exact List.Forall₂.nil

theorem stateOpening_reordered
    (names : List Text) :
    stateOpening Tables.packaged names t' = stateOpening Tables.packaged names t := by
  have hproperty := h.property?_eq_of_state
  rw [stateOpening, stateOpening, Tables.stateFindings_reordered h, templates_congr hproperty,
    caught_congr hproperty, kindFindings_congr hproperty h.selectorField_eq]

theorem stateClosing_reordered
    (names : List Text) :
    stateClosing names t' = stateClosing names t := by
  have hproperty := h.property?_eq_of_state
  rw [stateClosing, stateClosing, chosen_congr hproperty, hproperty "Next" (by decide)]

end State

section Names

variable {names names' : List Text} (hnames : names.Perm names')

include hnames

/-- The order of the names does not matter to a reference. -/
theorem reference_of_perm :
    reference names' = reference names := by
  have hcontains : names'.contains = names.contains := funext fun id => by
    rw [Bool.eq_iff_iff, List.contains_iff_mem, List.contains_iff_mem, hnames.mem_iff]
  funext code p
  rw [reference, reference, hcontains]

theorem rules_of_perm :
    rules names' = rules names := by
  funext field state
  unfold rules
  rw [reference_of_perm hnames]

theorem caught_of_perm :
    caught names' = caught names := by
  funext state
  rw [caught, caught, rules_of_perm hnames]

theorem chosen_of_perm :
    chosen names' = chosen names := by
  funext state
  rw [chosen, chosen, rules_of_perm hnames, reference_of_perm hnames]

end Names

/-! ## The check of one scope -/

/-- Declarations that correspond to each other one by one after they have been permuted. -/
def Redeclared (l l' : List (Key × Tree)) : Prop :=
  ∃ moved, l.Perm moved ∧
    List.Forall₂ (fun field field' => field'.1 = field.1 ∧
      Tree.Reordered .state field.2 field'.2) moved l'

namespace Redeclared

variable {l l' : List (Key × Tree)}

theorem perm_flatMap
    {β : Type} {f f' : Key × Tree → List β} (h : Redeclared l l')
    (hf : ∀ field field', field'.1 = field.1 → Tree.Reordered .state field.2 field'.2 →
      (f field).Perm (f' field')) :
    (l.flatMap f).Perm (l'.flatMap f') := by
  obtain ⟨moved, hperm, hrel⟩ := h
  exact (hperm.flatMap_right f).trans
    (perm_flatMap_of_forall₂ hrel fun field field' hfield => hf field field' hfield.1 hfield.2)

/-- What is made of the declarations in the same way is the same in another order. -/
theorem perm_map
    {β : Type} {f f' : Key × Tree → β} (h : Redeclared l l')
    (hf : ∀ field field', field'.1 = field.1 → Tree.Reordered .state field.2 field'.2 →
      f' field' = f field) :
    (l.map f).Perm (l'.map f') := by
  obtain ⟨moved, hperm, hrel⟩ := h
  rw [map_eq_map_of_forall₂ hrel fun field _ field' hfield => hf field field' hfield.1 hfield.2]
  exact hperm.map f

end Redeclared

section Scope

variable {t t' : Tree} (h : Tree.Reordered .scope t t')

include h

theorem mapping?_reordered :
    Option.Rel (fun ps ps' => ∃ moved, ps.Perm moved ∧
      List.Forall₂ (Property.Reordered .states) moved ps') (mapping? t) (mapping? t') := by
  unfold mapping?
  obtain ⟨hnone, hnone'⟩ | ⟨states, states', hstates, hstates', hrel⟩ :=
    Option.rel_cases (h.value_rel Role.scope_ne_states statesKey)
  · rw [hnone, hnone']
    exact Option.Rel.none
  · rw [hstates, hstates']
    exact Tree.Reordered.properties?_rel_states hrel

theorem declaredIn_reordered :
    Redeclared (declaredIn t) (declaredIn t') := by
  unfold declaredIn
  obtain ⟨hnone, hnone'⟩ | ⟨ps, ps', hps, hps', moved, hperm, hrel⟩ :=
    Option.rel_cases (mapping?_reordered h)
  · rw [hnone, hnone']
    exact ⟨[], List.Perm.refl [], List.Forall₂.nil⟩
  · rw [hps, hps', Option.getD_some, Option.getD_some]
    refine ⟨declared moved, hperm.filterMap _, ?_⟩
    refine List.rel_filterMap (fun p p' hp => ?_) hrel
    obtain ⟨hvalue, hvalue'⟩ | ⟨s, s', hs, hs', hstate⟩ := Option.rel_cases hp.value_rel
    · rw [hvalue, hvalue']
      exact Option.Rel.none
    · rw [hs, hs']
      dsimp only
      rw [hstate.isObject_eq, hp.key_eq]
      split
      · exact Option.Rel.some ⟨rfl, hstate⟩
      · exact Option.Rel.none

theorem namesIn_reordered
    (lenient : Bool) :
    (namesIn lenient t).Perm (namesIn lenient t') := by
  have hnames : ∀ scope, namesIn lenient scope = ((mapping? scope).getD []).filterMap fun q =>
      if lenient || q.colon.isSome then some q.key.name else none := by
    intro scope
    unfold namesIn mapping?
    cases scope.property? statesKey with
    | none => rfl
    | some states =>
        rw [Option.map_some, Option.getD_some, Option.bind_some, declaredNames]
        cases states.value.bind Tree.properties? <;> rfl
  rw [hnames, hnames]
  obtain ⟨hnone, hnone'⟩ | ⟨ps, ps', hps, hps', moved, hperm, hrel⟩ :=
    Option.rel_cases (mapping?_reordered h)
  · rw [hnone, hnone']
  · rw [hps, hps', Option.getD_some, Option.getD_some]
    refine (hperm.filterMap _).trans (List.Perm.of_eq ?_)
    rw [← List.forall₂_eq_eq_eq]
    refine List.rel_filterMap (fun p p' hp => ?_) hrel
    rw [hp.key_eq, hp.colon_eq]
    exact Option.rel_refl (fun _ => rfl) _

theorem startAt_reordered :
    t'.property? "StartAt" = t.property? "StartAt" :=
  h.property?_eq Role.scope_ne_states rfl

theorem opening_reordered
    (lenient : Bool) (kind : ScopeKind) :
    opening Tables.packaged lenient kind t' = opening Tables.packaged lenient kind t := by
  have hfields : scopeFields Tables.packaged kind (t'.properties?.getD []) =
      scopeFields Tables.packaged kind (t.properties?.getD []) := by
    obtain ⟨hnone, hnone'⟩ | ⟨ps, ps', hps, hps', hrel⟩ :=
      Option.rel_cases (h.properties?_rel Role.scope_ne_states)
    · rw [hnone, hnone']
    · rw [hps, hps']
      unfold scopeFields
      exact congrArg (_ >>= ·) (funext fun table => Tables.unknownFields_reordered hrel _)
  have hstates := isSome_of_rel (h.property?_rel Role.scope_ne_states statesKey)
  rw [opening, opening, hfields, hstates, startAt_reordered h,
    reference_of_perm (namesIn_reordered h lenient)]

omit h in
/-- In a permuted list of reports a terminal state is missing when it was. -/
theorem missingEnd_of_perm
    (key : Key) {reports reports' : List StateReport} (hperm : reports.Perm reports') :
    missingEnd key reports' = missingEnd key reports := by
  rw [missingEnd, missingEnd, hperm.any_eq]

omit h in
/-- With the same reports in another order, the same keys in another order are not reached. -/
theorem unreached_of_perm
    (start : List Text) {l l' : List (Key × Tree)} {reports reports' : List StateReport}
    (hkeys : (l.map Prod.fst).Perm (l'.map Prod.fst)) (hperm : reports.Perm reports') :
    (unreached start l reports).Perm (unreached start l' reports') := by
  have hcontains : (start ++ reports'.flatMap StateReport.reached).contains =
      (start ++ reports.flatMap StateReport.reached).contains := funext fun id => by
    rw [Bool.eq_iff_iff, List.contains_iff_mem, List.contains_iff_mem,
      ((hperm.flatMap_right StateReport.reached).append_left start).mem_iff]
  have hkeysOnly : ∀ (l : List (Key × Tree)) (reports : List StateReport),
      unreached start l reports = (l.map Prod.fst).filterMap fun key =>
        if (start ++ reports.flatMap StateReport.reached).contains key.name then none
        else some ⟨key.span, .unreachableState⟩ := by
    intro l reports
    rw [List.filterMap_map]
    rfl
  rw [hkeysOnly, hkeysOnly, hcontains]
  exact hkeys.filterMap _

theorem closing_reordered
    (lenient : Bool) :
    (closing lenient t).Perm (closing lenient t') := by
  have hdeclared := declaredIn_reordered h
  unfold closing
  obtain ⟨hnone, hnone'⟩ | ⟨states, states', hstates, hstates', hproperty⟩ :=
    Option.rel_cases (h.property?_rel Role.scope_ne_states statesKey)
  · rw [hnone, hnone']
  · obtain ⟨hnone, hnone'⟩ | ⟨ps, ps', hps, hps', -⟩ := Option.rel_cases (mapping?_reordered h)
    · rw [hstates, hstates', hnone, hnone']
    · rw [declaredIn, declaredIn, hps, hps', Option.getD_some, Option.getD_some] at hdeclared
      rw [hstates, hstates', hps, hps']
      -- neither the order of the names nor what is nested in a state matters to its report
      have hreports : ((declared ps).map fun field =>
            report (namesIn lenient t) [] [] field.2).Perm
          ((declared ps').map fun field => report (namesIn lenient t') [] [] field.2) := by
        refine hdeclared.perm_map fun field field' _ hstate => ?_
        rw [report_congr hstate.property?_eq_of_state hstate.selectorField_eq]
        have hnames := namesIn_reordered h lenient
        rw [report, report, caught_of_perm hnames, chosen_of_perm hnames, reference_of_perm hnames]
      dsimp only
      rw [hproperty.key_eq, startAt_reordered h, missingEnd_of_perm _ hreports]
      exact (unreached_of_perm _ (hdeclared.perm_map fun _ _ hkey _ => hkey) hreports).append_left _

end Scope

/-- A check finds the same in another order. -/
theorem trace_reordered
    (lenient : Bool) :
    ∀ (levels : Nat) (kind : ScopeKind) {t t' : Tree}, Tree.Reordered .scope t t' →
      ((trace Tables.packaged lenient levels kind t).map Prod.snd).Perm
        ((trace Tables.packaged lenient levels kind t').map Prod.snd)
  | 0, _, _, _, _ => List.Perm.refl []
  | levels + 1, kind, t, t', h => by
      rw [map_snd_trace, map_snd_trace, opening_reordered h]
      refine ((List.Perm.refl _).append ?_).append (closing_reordered h lenient)
      refine (declaredIn_reordered h).perm_flatMap fun field field' _ hstate => ?_
      have hnames := namesIn_reordered h lenient
      have hopening : stateOpening Tables.packaged (namesIn lenient t') field'.2 =
          stateOpening Tables.packaged (namesIn lenient t) field.2 := by
        rw [stateOpening_reordered hstate, stateOpening, stateOpening, caught_of_perm hnames]
      have hclosing : stateClosing (namesIn lenient t') field'.2 =
          stateClosing (namesIn lenient t) field.2 := by
        rw [stateClosing_reordered hstate, stateClosing, stateClosing, chosen_of_perm hnames,
          reference_of_perm hnames]
      rw [hopening, hclosing]
      refine List.Perm.append_right _ (List.Perm.append_left _ ?_)
      refine perm_flatMap_of_forall₂ (nested_reordered hstate) fun inner inner' hinner => ?_
      rw [hinner.1]
      exact trace_reordered lenient levels inner.1 hinner.2

end Check

namespace Document

/-- When the states of one scope are declared in another order, the check of the document answers
with the same diagnostics in another order. -/
theorem check_reordered
    {d d' : Document} (htext : d'.text = d.text) {messages : Value}
    (hmessages : messages.isObject = true) (lenient : Bool) (kind : ScopeKind)
    {given given' : Option Tree}
    (h : Option.Rel (Tree.Reordered .scope) (given.or d.root) (given'.or d'.root)) :
    ∃ diagnostics diagnostics',
      d.check ⟨Tables.packaged, messages, lenient⟩ kind given = .ok diagnostics ∧
        d'.check ⟨Tables.packaged, messages, lenient⟩ kind given' = .ok diagnostics' ∧
        diagnostics.Perm diagnostics' := by
  obtain ⟨hnone, hnone'⟩ | ⟨t, t', ht, ht', hrel⟩ := Option.rel_cases h
  · exact ⟨[], [], by rw [check, hnone], by rw [check, hnone'], List.Perm.refl []⟩
  · refine ⟨_, _, d.check_eq_map hmessages lenient kind ht,
      d'.check_eq_map hmessages lenient kind ht', ?_⟩
    have hrange : Finding.diagnostic d' messages = Finding.diagnostic d messages := by
      funext f
      rw [Finding.diagnostic, Finding.diagnostic, rangeOf, rangeOf, htext]
    rw [hrel.isObject_eq, hrange]
    split
    · exact (Check.trace_reordered lenient allLevels kind hrel).map _
    · exact List.Perm.refl []

end Document

/-- A text in which the processor of a Map state declares one name twice. -/
def repeatedNameText : Text :=
  "StartAt: M
States:
 M:
  Type: Map
  ItemProcessor:
   StartAt: A
   States:
    A:
     Next: Z
    C:
     Type: Choice
     Default: Z
    A:
     Type: Succeed
"

/-- A plain word in a text. -/
def plainWord (offset : Nat) (t : Text) : Tree := .string ⟨offset, t.length⟩ t

/-- A property whose value stands behind the colon. -/
def plainProperty (offset : Nat) (name : Text) (value : Tree) : Property Tree :=
  ⟨⟨offset, value.span.stop - offset⟩, ⟨⟨offset, name.length⟩, name⟩, some (offset + name.length),
    some value⟩

/-- The declarations in the processor, in the order of the text. -/
def repeatedNames : List (Property Tree) :=
  [plainProperty 81 "A" (.object ⟨89, 12⟩ [plainProperty 89 "Next" (plainWord 95 "Z")]),
    plainProperty 101 "C" (.object ⟨109, 33⟩
      [plainProperty 109 "Type" (plainWord 115 "Choice"),
        plainProperty 127 "Default" (plainWord 136 "Z")]),
    plainProperty 142 "A" (.object ⟨150, 14⟩ [plainProperty 150 "Type" (plainWord 156 "Succeed")])]

/-- The tree of the text, with these declarations in the processor. -/
def repeatedNameTree (declarations : List (Property Tree)) : Tree :=
  .object ⟨0, 164⟩
    [plainProperty 0 "StartAt" (plainWord 9 "M"),
      plainProperty 11 "States" (.object ⟨20, 144⟩
        [plainProperty 20 "M" (.object ⟨25, 139⟩
          [plainProperty 25 "Type" (plainWord 31 "Map"),
            plainProperty 37 "ItemProcessor" (.object ⟨55, 109⟩
              [plainProperty 55 "StartAt" (plainWord 64 "A"),
                plainProperty 69 "States" (.object ⟨81, 83⟩ declarations)])])])]

/-- The document of the text, with these declarations in the processor. -/
def repeatedNameDocument (declarations : List (Property Tree)) : Document :=
  ⟨repeatedNameText, .yaml, some (repeatedNameTree declarations), 0⟩

theorem repeatedNameTree_reordered
    {declarations declarations' : List (Property Tree)} (h : declarations.Perm declarations') :
    Tree.Reordered .scope (repeatedNameTree declarations) (repeatedNameTree declarations') := by
  refine .property _ [plainProperty 0 "StartAt" (plainWord 9 "M")] _ ⟨_, "States"⟩ _ [] ?_
  refine .property _ [] _ ⟨_, "M"⟩ _ [] ?_
  refine .property _ [plainProperty 25 "Type" (plainWord 31 "Map")] _ ⟨_, "ItemProcessor"⟩ _ [] ?_
  refine .property _ [plainProperty 55 "StartAt" (plainWord 64 "A")] _ ⟨_, "States"⟩ _ [] ?_
  exact .states _ h

/-- In the other order the declaration with the wrong `Default` comes first, and the state that
nothing reaches is the same. -/
theorem check_reordered_repeatedNames :
    ∃ diagnostics diagnostics',
      (repeatedNameDocument repeatedNames).check ⟨Tables.packaged, Tables.messages, false⟩ .top
          none = .ok diagnostics ∧
        (repeatedNameDocument repeatedNames.reverse).check
          ⟨Tables.packaged, Tables.messages, false⟩ .top none = .ok diagnostics' ∧
        diagnostics.map Diagnostic.code =
          [some .invalidNext, some .invalidDefault, some .unreachableState,
            some .noTerminalState] ∧
        diagnostics'.map Diagnostic.code =
          [some .invalidDefault, some .invalidNext, some .unreachableState,
            some .noTerminalState] ∧
        diagnostics.Perm diagnostics' := by
  have hcodes : ((repeatedNameDocument repeatedNames).check
        ⟨Tables.packaged, Tables.messages, false⟩ .top none).toOption.map
          (List.map Diagnostic.code) = some [some .invalidNext, some .invalidDefault,
            some .unreachableState, some .noTerminalState] ∧
      ((repeatedNameDocument repeatedNames.reverse).check
        ⟨Tables.packaged, Tables.messages, false⟩ .top none).toOption.map
          (List.map Diagnostic.code) = some [some .invalidDefault, some .invalidNext,
            some .unreachableState, some .noTerminalState] := by
    decide +kernel
  obtain ⟨diagnostics, diagnostics', hcheck, hcheck', hperm⟩ :=
    @Document.check_reordered (repeatedNameDocument repeatedNames)
      (repeatedNameDocument repeatedNames.reverse) rfl Tables.messages rfl false .top none none
      (.some (repeatedNameTree_reordered (List.reverse_perm repeatedNames).symm))
  rw [hcheck, hcheck'] at hcodes
  exact ⟨diagnostics, diagnostics', hcheck, hcheck', Option.some.inj hcodes.1,
    Option.some.inj hcodes.2, hperm⟩

end Workflow
