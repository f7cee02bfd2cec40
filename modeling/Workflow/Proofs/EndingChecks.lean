import Mathlib.Data.List.Perm.Subperm
import Mathlib.Data.List.Range
import Mathlib.Order.WellFounded
import Workflow.Proofs.FieldFindings

/-!
# Checks of fields end

A check of a tree against a table calls other checks.  Most of them go down into the tree; but a
table that sends an object to another table keeps the object, so that nothing gets smaller there.
The tables may be of any form, and the rules on arrays and on exclusive fields may lead from a table
back to itself.

What ends the calls is that no way from table to table runs in a circle: then each call either goes
down into the tree, or keeps the tree and shortens the way that is left.  So the description of a
check by the checks that it calls, `Tables.checkOnce`, has exactly one solution, and this is the
check that follows the tables with a bound on their number.
-/

namespace Workflow

namespace Tables

/-- The check does not run in a circle. -/
def Ends {α : Type} (x : Except Fault α) : Prop := x ≠ .error .circularRules

section Ends

variable {α β : Type}

theorem ends_ok
    (a : α) :
    Ends (.ok a : Except Fault α) := nofun

theorem Ends.bind_of_ok
    {x : Except Fault α} {f : α → Except Fault β} (hx : Ends x)
    (hf : ∀ a, x = .ok a → Ends (f a)) :
    Ends (x >>= f) := by
  cases x with
  | error fault =>
      intro h
      cases h
      exact hx rfl
  | ok a => exact hf a rfl

theorem Ends.bind
    {x : Except Fault α} {f : α → Except Fault β} (hx : Ends x) (hf : ∀ a, Ends (f a)) :
    Ends (x >>= f) :=
  hx.bind_of_ok fun a _ => hf a

theorem Ends.map
    {x : Except Fault α} (hx : Ends x) (f : α → β) :
    Ends (x.map f) := by
  cases x with
  | error fault =>
      intro h
      cases h
      exact hx rfl
  | ok a => exact ends_ok (f a)

theorem Ends.mapM
    {l : List α} {f : α → Except Fault β} (hf : ∀ a ∈ l, Ends (f a)) :
    Ends (l.mapM f) := by
  induction l with
  | nil => exact ends_ok []
  | cons a l ih =>
      rw [List.mapM_cons]
      exact (hf a List.mem_cons_self).bind fun b =>
        (ih fun c hc => hf c (List.mem_cons_of_mem _ hc)).bind fun bs => ends_ok (b :: bs)

theorem ends_lookup
    (table : Value) (name : Text) :
    Ends (lookup table name) := by
  cases table <;> nofun

theorem ends_lookupD
    (table : Value) (name : Text) (default : Value) :
    Ends (lookupD table name default) := by
  cases table <;> nofun

end Ends

/-! ## The calls of a check -/

/-- What a table says about objects: at most one field of a named table, a named table instead, or
fields of its own. -/
inductive Directive where
  | oneOf (name : Text)
  | valueOf (name : Text)
  | fields

/-- The directive of a table for objects. -/
def directive (table : Value) : Directive :=
  match table.get oneOfKey, table.get valueOfKey with
  | .str name, _ => .oneOf name
  | _, .str name => .valueOf name
  | _, _ => .fields

/-- The fields that a table states itself. -/
def ownFields (table : Value) : Value :=
  if (table.get "properties").isObject then table.get "properties" else table

/-- The exclusive fields under a name; whatever does not count has none. -/
def exclusiveFields (group : Value) : Value := if group.truthy then group else .obj []

/-- The findings in each of some places, one place after another. -/
def gather {α : Type} (find : α → Except Fault (List Finding)) (places : List α) :
    Except Fault (List Finding) := do
  let found ← places.mapM find
  pure found.flatten

/-- The check of a value, if it has been typed and there is a table for it. -/
def checkValue (check : Value → Tree → Except Fault (List Finding)) (entry : Value) :
    Option Tree → Except Fault (List Finding)
  | some t => if entry.isObject then check entry t else pure []
  | none => pure []

/-- The findings in a tree that is checked against a table, given the answers of the checks that
this check calls. -/
def checkOnce (named : Value) (check : Value → Tree → Except Fault (List Finding)) (table : Value) :
    Tree → Except Fault (List Finding)
  | .array _ items =>
    match table.get arrayOfKey with
    | .str name => do
      let next ← lookup named name
      if next.isObject then gather (check next) (items.filter Tree.isObject) else pure []
    | _ => pure []
  | .object span properties =>
    match directive table with
    | .oneOf name => do
      let group ← lookup named name
      let fields := exclusiveFields group
      let unknown ← unknownFields
        (fun name => do
          let own ← lookup fields name
          let other ← lookup table name
          pure (own.truthy || other.truthy)) properties
      match presentIn fields properties with
      | [] => pure unknown
      | [p] => do
        let inside ← checkValue check (fields.get p.key.name) p.value
        pure (unknown ++ inside)
      | present => pure (unknown ++ present.map fun p => ⟨p.key.span, .exclusiveProperties⟩)
    | .valueOf name => do
      let next ← lookup named name
      if next.isObject then check next (.object span properties) else pure []
    | .fields =>
      gather
        (fun p => do
          let entry ← lookup (ownFields table) p.key.name
          if entry.truthy then checkValue check entry p.value
          else pure [⟨p.key.span, .invalidPropertyName⟩]) properties
  | _ => pure []

/-- One check, of a tree against a table, may be called by another one.  Whether the table is one
at all is only seen when it is looked at. -/
inductive CalledBy (named : Value) : Value × Tree → Value × Tree → Prop
  | item
      {table : Value} {span : Span} {items : List Tree} {name : Text} {t : Tree}
      (hname : table.get arrayOfKey = .str name) (ht : t ∈ items) :
      CalledBy named (named.get name, t) (table, .array span items)
  | operator
      {table : Value} {span : Span} {properties : List (Property Tree)} {name : Text}
      {p : Property Tree} {t : Tree}
      (hname : directive table = .oneOf name)
      (honly : presentIn (exclusiveFields (named.get name)) properties = [p])
      (ht : p.value = some t) :
      CalledBy named ((exclusiveFields (named.get name)).get p.key.name, t)
        (table, .object span properties)
  | elsewhere
      {table : Value} {span : Span} {properties : List (Property Tree)} {name : Text}
      (hname : directive table = .valueOf name) (hnext : (named.get name).isObject = true) :
      CalledBy named (named.get name, .object span properties) (table, .object span properties)
  | field
      {table : Value} {span : Span} {properties : List (Property Tree)} {p : Property Tree}
      {t : Tree} (hname : directive table = .fields) (hp : p ∈ properties) (ht : p.value = some t) :
      CalledBy named ((ownFields table).get p.key.name, t) (table, .object span properties)

/-- A table under one name sends objects to the table under another name. -/
def RefersTo (named : Value) (name next : Text) : Prop :=
  (named.get name).get valueOfKey = .str next

/-- No way from table to table comes back to where it was. -/
def NoCircle (named : Value) : Prop := ∀ name, ¬ Relation.TransGen (RefersTo named) name name

section Calls

variable {named table : Value} {f g : Value → Tree → Except Fault (List Finding)} {t : Tree}

theorem lookup_eq_get
    {name : Text} {next : Value} (h : lookup named name = .ok next) :
    next = named.get name :=
  (lookup_delivers named name).yields next h

section Gather

variable {α : Type} {find find' : α → Except Fault (List Finding)} {places : List α}

theorem gather_cons
    (a : α) :
    gather find (a :: places) =
      find a >>= fun first => gather find places >>= fun rest => pure (first ++ rest) := by
  rw [gather, gather, List.mapM_cons]
  cases find a with
  | error fault => rfl
  | ok first =>
      cases places.mapM find <;> rfl

theorem gather_singleton
    (a : α) :
    gather find [a] = find a := by
  rw [gather_cons]
  cases find a with
  | error fault => rfl
  | ok first => exact congrArg Except.ok (List.append_nil first)

theorem gather_congr
    (h : ∀ a ∈ places, find a = find' a) :
    gather find places = gather find' places := by
  rw [gather, gather, mapM_congr h]

theorem ends_gather
    (h : ∀ a ∈ places, Ends (find a)) :
    Ends (gather find places) :=
  (Ends.mapM h).bind fun found => ends_ok found.flatten

end Gather

theorem checkValue_congr
    {entry : Value} {value : Option Tree} (h : ∀ t, value = some t → f entry t = g entry t) :
    checkValue f entry value = checkValue g entry value := by
  cases value with
  | none => rfl
  | some t => rw [checkValue, checkValue, h t rfl]

/-- What a check finds depends on the checks that it calls and on no others. -/
theorem checkOnce_congr
    (h : ∀ next u, CalledBy named (next, u) (table, t) → f next u = g next u) :
    checkOnce named f table t = checkOnce named g table t := by
  cases t with
  | array span items =>
      rw [checkOnce, checkOnce]
      split
      · next name hname =>
          refine bind_congr_of_ok fun next hnext => ?_
          rw [lookup_eq_get hnext,
            gather_congr fun u hu => h _ _ (.item hname (List.mem_of_mem_filter hu))]
      · rfl
  | object span properties =>
      rw [checkOnce, checkOnce]
      split
      · next name hname =>
          refine bind_congr_of_ok fun group hgroup => ?_
          rw [lookup_eq_get hgroup]
          refine congrArg _ (funext fun unknown => ?_)
          split
          · rfl
          · next p honly =>
              rw [checkValue_congr fun u hu => h _ _ (.operator hname honly hu)]
          · rfl
      · next name hname =>
          refine bind_congr_of_ok fun next hnext => ?_
          split
          · next hobject =>
              rw [lookup_eq_get hnext] at hobject ⊢
              exact h _ _ (.elsewhere hname hobject)
          · rfl
      · next hname =>
          refine gather_congr fun p hp => bind_congr_of_ok fun entry hentry => ?_
          rw [lookup_eq_get hentry, checkValue_congr fun u hu => h _ _ (.field hname hp hu)]
  | _ => rfl

theorem ends_unknownFields
    {allowed : Text → Except Fault Bool} (h : ∀ name, Ends (allowed name))
    (properties : List (Property Tree)) :
    Ends (unknownFields allowed properties) :=
  (Ends.mapM fun p _ => (h p.key.name).bind fun _ => ends_ok _).bind fun _ => ends_ok _

theorem ends_checkValue
    {entry : Value} {value : Option Tree} (h : ∀ t, value = some t → Ends (f entry t)) :
    Ends (checkValue f entry value) := by
  cases value with
  | none => exact ends_ok []
  | some t =>
      rw [checkValue]
      split
      · exact h t rfl
      · exact ends_ok []

/-- A check ends if the checks that it calls do. -/
theorem ends_checkOnce
    (h : ∀ next u, CalledBy named (next, u) (table, t) → Ends (f next u)) :
    Ends (checkOnce named f table t) := by
  cases t with
  | array span items =>
      rw [checkOnce]
      split
      · next name hname =>
          refine (ends_lookup named name).bind_of_ok fun next hnext => ?_
          rw [lookup_eq_get hnext]
          split
          · exact ends_gather fun u hu => h _ _ (.item hname (List.mem_of_mem_filter hu))
          · exact ends_ok []
      · exact ends_ok []
  | object span properties =>
      rw [checkOnce]
      split
      · next name hname =>
          refine (ends_lookup named name).bind_of_ok fun group hgroup => ?_
          rw [lookup_eq_get hgroup]
          refine (ends_unknownFields (fun other => ?_) properties).bind fun unknown => ?_
          · exact (ends_lookup _ _).bind fun _ => (ends_lookup _ _).bind fun _ => ends_ok _
          · split
            · exact ends_ok _
            · next p honly =>
                exact (ends_checkValue fun u hu => h _ _ (.operator hname honly hu)).bind
                  fun inside => ends_ok _
            · exact ends_ok _
      · next name hname =>
          refine (ends_lookup named name).bind_of_ok fun next hnext => ?_
          split
          · next hobject =>
              rw [lookup_eq_get hnext] at hobject ⊢
              exact h _ _ (.elsewhere hname hobject)
          · exact ends_ok []
      · next hname =>
          refine ends_gather fun p hp => ?_
          refine (ends_lookup _ _).bind_of_ok fun entry hentry => ?_
          split
          · rw [lookup_eq_get hentry]
            exact ends_checkValue fun u hu => h _ _ (.field hname hp hu)
          · exact ends_ok _
  | _ => exact ends_ok []

end Calls

/-! ## No endless calls -/

section Order

variable {named table : Value} {name : Text}

theorem get_of_directive
    (h : directive table = .valueOf name) :
    table.get valueOfKey = .str name := by
  unfold directive at h
  split at h
  · cases h
  · next hvalue _ =>
      cases h
      exact hvalue
  · cases h

/-- One step of following an object from table to table. -/
theorem objectRule_succ
    (named table : Value) (fuel : Nat) :
    objectRule named (fuel + 1) table =
      match directive table with
      | .oneOf name =>
        (lookup named name).map fun group => .exclusive table (exclusiveFields group)
      | .valueOf name =>
        lookup named name >>= fun next =>
          if next.isObject then objectRule named fuel next else pure .anything
      | .fields => .ok (.plain (ownFields table)) := by
  rw [objectRule, directive]
  cases table.get oneOfKey with
  | str name => cases table.get valueOfKey <;> rfl
  | _ =>
      cases table.get valueOfKey with
      | str name =>
          dsimp only
          cases lookup named name <;> rfl
      | _ => rfl

/-- The names that tables stand under. -/
def tableNames (named : Value) : List Text := Fields.names (named.fields?.getD [])

theorem ruleBound_eq
    (named : Value) :
    ruleBound named = (tableNames named).length + 2 := by
  cases named with
  | obj fields => exact congrArg (· + 2) (List.length_map _).symm
  | _ => rfl

/-- Only a table that stands under a name refers on. -/
theorem RefersTo.mem_tableNames
    {next : Text} (h : RefersTo named name next) :
    name ∈ tableNames named := by
  cases named with
  | obj fields =>
      cases hget : Fields.get? fields name with
      | none =>
          have hnone : (Value.obj fields).get name = .null := by
            rw [Value.get, Value.get?, Value.fields?, Option.bind_some, hget]
            rfl
          rw [RefersTo, hnone] at h
          cases h
      | some next => exact List.mem_map_of_mem (Fields.mem_of_get? hget)
  | _ => cases h

/-- On a way from table to table, every table but the last one refers on. -/
theorem dropLast_subset_tableNames
    {names : List Text} (h : names.IsChain (RefersTo named)) :
    names.dropLast ⊆ tableNames named := by
  induction names with
  | nil => exact List.nil_subset _
  | cons a names ih =>
      cases names with
      | nil => exact List.nil_subset _
      | cons b names =>
          obtain ⟨hab, hrest⟩ := List.isChain_cons_cons.mp h
          exact List.cons_subset.mpr ⟨hab.mem_tableNames, ih hrest⟩

/-- A way from table to table is not longer than there are tables, if it does not come back. -/
theorem length_le_of_isChain
    (hnamed : NoCircle named) {names : List Text} (h : names.IsChain (RefersTo named)) :
    names.length ≤ (tableNames named).length + 1 := by
  have hways : names.Pairwise (Relation.TransGen (RefersTo named)) :=
    (h.imp fun _ _ => Relation.TransGen.single).pairwise
  have hnodup : names.Nodup := by
    refine List.Pairwise.imp (fun {a b} hab => ?_) hways
    rintro rfl
    exact hnamed a hab
  have hshort := (hnodup.sublist (List.dropLast_sublist names)).subperm
    (dropLast_subset_tableNames h)
  have hlength := hshort.length_le
  rw [List.length_dropLast] at hlength
  omega

/-- References that never run in a circle come to an end. -/
theorem wellFounded_refersTo
    (hnamed : NoCircle named) :
    WellFounded fun next name => RefersTo named name next := by
  rw [wellFounded_iff_isEmpty_descending_chain]
  refine ⟨fun ⟨names, hnames⟩ => ?_⟩
  have hchain : ((List.range ((tableNames named).length + 2)).map names).IsChain
      (RefersTo named) :=
    (List.isChain_map names).mpr ((List.isChain_range _ _).mpr fun n _ => hnames n)
  have hlength := length_le_of_isChain hnamed hchain
  rw [List.length_map, List.length_range] at hlength
  omega

/-- When the bound on the tables is used up, there is a way of that many references. -/
theorem exists_isChain_of_circular
    {fuel : Nat} (h : objectRule named fuel table = .error .circularRules) :
    ∃ names : List Text, names.length = fuel ∧ names.IsChain (RefersTo named) ∧
      ∀ name ∈ names.head?, table.get valueOfKey = .str name := by
  induction fuel generalizing table with
  | zero => exact ⟨[], rfl, List.isChain_nil, nofun⟩
  | succ fuel ih =>
      rw [objectRule_succ] at h
      cases hname : directive table with
      | oneOf name =>
          rw [hname] at h
          exact absurd h ((ends_lookup named name).map _)
      | valueOf name =>
          rw [hname] at h
          dsimp only at h
          cases hlookup : lookup named name with
          | error fault =>
              rw [hlookup] at h
              cases h
              exact absurd hlookup (ends_lookup named name)
          | ok next =>
              rw [hlookup] at h
              change (if next.isObject then _ else _) = _ at h
              split at h
              · obtain ⟨names, hlength, hchain, hhead⟩ := ih h
                rw [lookup_eq_get hlookup] at hhead
                refine ⟨name :: names, congrArg (· + 1) hlength, ?_, ?_⟩
                · exact List.isChain_cons.mpr ⟨hhead, hchain⟩
                · rintro _ ⟨⟩
                  exact get_of_directive hname
              · cases h
      | fields =>
          rw [hname] at h
          cases h

/-- A table sends objects to the next one. -/
def SentTo (named next table : Value) : Prop :=
  ∃ name, table.get valueOfKey = .str name ∧ next = named.get name

theorem wellFounded_sentTo
    (hnamed : NoCircle named) :
    WellFounded (SentTo named) := by
  have hacc : ∀ name, Acc (SentTo named) (named.get name) := fun name =>
    (wellFounded_refersTo hnamed).induction name fun name ih =>
      Acc.intro _ fun _ ⟨next, hnext, heq⟩ => heq ▸ ih next hnext
  exact ⟨fun table => Acc.intro _ fun _ ⟨next, _, heq⟩ => heq ▸ hacc next⟩

theorem sizeOf_value_lt
    {span : Span} {properties : List (Property Tree)} {p : Property Tree} {t : Tree}
    (hp : p ∈ properties) (ht : p.value = some t) :
    sizeOf t < sizeOf (Tree.object span properties) := by
  have hproperty := List.sizeOf_lt_of_mem hp
  obtain ⟨own, key, colon, value⟩ := p
  dsimp only at ht
  rw [ht] at hproperty
  simp only [Property.mk.sizeOf_spec, Option.some.sizeOf_spec] at hproperty
  simp only [Tree.object.sizeOf_spec]
  omega

/-- The calls of a check come to an end: each one goes down into the tree, or keeps the tree and
follows a reference. -/
theorem wellFounded_calledBy
    (hnamed : NoCircle named) :
    WellFounded (CalledBy named) := by
  refine Subrelation.wf ?_ (InvImage.wf (fun call : Value × Tree => (sizeOf call.2, call.1))
    (wellFounded_lt.prod_lex (wellFounded_sentTo hnamed)))
  intro inner outer hcall
  cases hcall with
  | item hname ht =>
      refine Prod.Lex.left _ _ ?_
      have hitem := List.sizeOf_lt_of_mem ht
      simp only [Tree.array.sizeOf_spec]
      omega
  | operator hname honly ht =>
      refine Prod.Lex.left _ _ (sizeOf_value_lt ?_ ht)
      exact List.mem_of_mem_filter (honly ▸ List.mem_singleton_self _)
  | elsewhere hname hnext => exact Prod.Lex.right _ ⟨_, get_of_directive hname, rfl⟩
  | field hname hp ht => exact Prod.Lex.left _ _ (sizeOf_value_lt hp ht)

/-! ## The bound on the tables -/

/-- From a table with a name, an object is followed no further than there are tables. -/
theorem ends_objectRule_named
    (hnamed : NoCircle named) (name : Text) {fuel : Nat}
    (hfuel : (tableNames named).length < fuel) :
    Ends (objectRule named fuel (named.get name)) := by
  intro h
  obtain ⟨names, hlength, hchain, hhead⟩ := exists_isChain_of_circular h
  have := length_le_of_isChain hnamed (List.isChain_cons.mpr ⟨hhead, hchain⟩)
  rw [List.length_cons] at this
  omega

/-- What was found with some bound is found with a greater one. -/
theorem objectRule_of_ends
    {fuel : Nat} (h : Ends (objectRule named fuel table)) :
    objectRule named (fuel + 1) table = objectRule named fuel table := by
  induction fuel generalizing table with
  | zero => exact absurd rfl h
  | succ fuel ih =>
      rw [objectRule_succ] at h ⊢
      rw [objectRule_succ]
      cases hname : directive table with
      | valueOf name =>
          refine bind_congr_of_ok fun next hnext => ?_
          rw [hname] at h
          dsimp only at h
          rw [hnext] at h
          change Ends (if _ then _ else _) at h
          split
          · next hobject =>
              rw [if_pos hobject] at h
              exact ih h
          · rfl
      | _ => rfl

end Order

/-! ## The solution -/

section Solution

variable {named table : Value}

theorem itemFindings_eq_gather
    (items : List Tree) :
    itemFindings named table items =
      gather (findings named table) (items.filter Tree.isObject) := by
  induction items with
  | nil => rfl
  | cons t items ih =>
      rw [itemFindings, ih, List.filter_cons]
      split
      · exact (gather_cons t).symm
      · cases gather (findings named table) (items.filter Tree.isObject) <;> rfl

theorem fieldFindings_eq_gather
    (properties : List (Property Tree)) :
    fieldFindings named table properties =
      gather
        (fun p => do
          let entry ← lookup table p.key.name
          if entry.truthy then checkValue (findings named) entry p.value
          else pure [⟨p.key.span, .invalidPropertyName⟩]) properties := by
  induction properties with
  | nil => rfl
  | cons p properties ih =>
      obtain ⟨span, key, colon, value⟩ := p
      rw [fieldFindings.eq_def, gather_cons]
      dsimp only
      rw [ih]
      cases lookup table key.name with
      | error fault => rfl
      | ok entry =>
          change (if _ then _ else _) = (if _ then _ else _) >>= _
          split
          · cases value with
            | none => rfl
            | some t =>
                change (if _ then _ else _) = (if _ then _ else _) >>= _
                split <;> rfl
          · rfl

/-- Inside the values of the properties there is only something to be found where a property counts
as present. -/
theorem valueFindings_eq_gather
    (properties : List (Property Tree)) :
    valueFindings named table properties =
      gather (fun p => checkValue (findings named) (table.get p.key.name) p.value)
        (presentIn table properties) := by
  induction properties with
  | nil => rfl
  | cons p properties ih =>
      obtain ⟨span, key, colon, value⟩ := p
      rw [valueFindings.eq_def, presentIn, List.filter_cons]
      dsimp only
      rw [ih]
      cases htruthy : (table.get key.name).truthy with
      | true =>
          rw [if_pos rfl, gather_cons, Bool.and_true]
          cases value with
          | none => rfl
          | some t =>
              change (if _ then _ else _) = (if _ then _ else _) >>= _
              split <;> rfl
      | false =>
          rw [if_neg Bool.false_ne_true, Bool.and_false]
          cases value with
          | none => exact bind_pure (gather _ (presentIn table properties))
          | some t => exact bind_pure (gather _ (presentIn table properties))

/-- A check is described by the checks that it calls. -/
theorem findings_eq_checkOnce
    (hnamed : NoCircle named) (table : Value) (t : Tree) :
    findings named table t = checkOnce named (findings named) table t := by
  cases t with
  | array span items =>
      rw [findings, checkOnce]
      cases table.get arrayOfKey with
      | str name =>
          refine congrArg (lookup named name >>= ·) (funext fun next => ?_)
          rw [itemFindings_eq_gather]
      | _ => rfl
  | object span properties =>
      rw [findings, checkOnce, ruleBound_eq, objectRule_succ]
      cases directive table with
      | oneOf name =>
          dsimp only
          cases lookup named name with
          | error fault => rfl
          | ok group =>
            refine congrArg (unknownFields _ properties >>= ·) (funext fun unknown => ?_)
            rw [valueFindings_eq_gather]
            cases presentIn (exclusiveFields group) properties with
            | nil => exact congrArg Except.ok (List.append_nil unknown)
            | cons p present =>
                cases present with
                | nil =>
                    rw [gather_singleton]
                    rfl
                | cons q present => rfl
      | valueOf name =>
          dsimp only
          cases hlookup : lookup named name with
          | error fault => rfl
          | ok next =>
              change (if _ then _ else _) >>= _ = if _ then _ else _
              split
              · rw [findings, ruleBound_eq, lookup_eq_get hlookup, objectRule_of_ends
                  (ends_objectRule_named hnamed name (Nat.lt_succ_self _))]
              · rfl
      | fields => exact fieldFindings_eq_gather properties
  | null span => rfl
  | boolean span b => rfl
  | number span n => rfl
  | string span text => rfl

/-- The description of a check has no other solution. -/
theorem eq_findings_of_solution
    (hnamed : NoCircle named) {check : Value → Tree → Except Fault (List Finding)}
    (hcheck : ∀ table t, check table t = checkOnce named check table t) :
    check = findings named := by
  have hcalls : ∀ call : Value × Tree, check call.1 call.2 = findings named call.1 call.2 := by
    intro call
    induction call using (wellFounded_calledBy hnamed).induction with
    | h call ih =>
        rw [hcheck, findings_eq_checkOnce hnamed]
        exact checkOnce_congr fun next u hcall => ih (next, u) hcall
  exact funext fun table => funext fun t => hcalls (table, t)

/-- A check does not run in a circle. -/
theorem ends_findings
    (hnamed : NoCircle named) (table : Value) (t : Tree) :
    Ends (findings named table t) := by
  have hcalls : ∀ call : Value × Tree, Ends (findings named call.1 call.2) := by
    intro call
    induction call using (wellFounded_calledBy hnamed).induction with
    | h call ih =>
        rw [findings_eq_checkOnce hnamed]
        exact ends_checkOnce fun next u hcall => ih (next, u) hcall
  exact hcalls (table, t)

theorem ends_statePropertyFindings
    (hnamed : NoCircle named) (common kind : Value) (hasCommon : Bool) (p : Property Tree) :
    Ends (statePropertyFindings named common kind hasCommon p) := by
  unfold statePropertyFindings
  refine Ends.bind ?_ fun isCommon => ?_
  · unfold isCommonField
    split
    · exact (ends_lookup common _).map _
    · exact ends_ok false
  · split
    · exact ends_ok []
    · refine (ends_lookupD _ _ _).bind fun fields => (ends_lookup fields _).bind fun entry => ?_
      split
      · split
        · split
          · exact ends_findings hnamed entry _
          · exact ends_ok []
        · exact ends_ok []
      · exact ends_ok _

/-- The check of the properties of a state does not run in a circle. -/
theorem ends_stateFindings
    {schema : Value} (hnamed : NoCircle (part schema "ReferenceTypes")) (state : Option Tree) :
    Ends (stateFindings schema state) := by
  unfold stateFindings
  refine (ends_lookupD schema _ _).bind fun kinds => ?_
  refine (ends_lookupD schema _ _).bind fun common => ?_
  refine (ends_lookupD schema _ _).bind_of_ok fun named hlookup => ?_
  have heq : named = part schema "ReferenceTypes" :=
    (lookupD_delivers schema _ _).yields named hlookup
  rw [heq]
  refine Ends.bind ?_ fun kind => Ends.bind ?_ fun hasCommon => ?_
  · unfold kindTable
    split
    · exact ends_lookup kinds _
    · exact ends_ok Value.null
  · unfold allowsCommon
    split
    · exact ends_ok true
    · exact (ends_lookup kind _).map _
  · split
    · nofun
    · exact (Ends.mapM fun p _ =>
        ends_statePropertyFindings hnamed common kind hasCommon p).bind fun found => ends_ok _

/-- Named tables that send no object any further run in no circle. -/
theorem SoundNamed.noCircle
    (h : SoundNamed named) :
    NoCircle named := by
  intro name hway
  obtain ⟨next, hfirst, -⟩ := Relation.TransGen.head'_iff.mp hway
  have hobject : (named.get name).isObject = true := by
    cases hvalue : named.get name with
    | obj fields => rfl
    | _ =>
        rw [RefersTo, hvalue] at hfirst
        cases hfirst
  exact (h.direct hobject).2 next hfirst

end Solution

/-- The check of fields ends for every tree, every table and every schema whose named tables do not
send objects in a circle.  Each chain of calls comes to an end, the description of a check by its
calls has the check as its only solution, and neither the check of a tree nor that of a state meets
its bound on the tables.  The packaged tables run in no circle. -/
theorem checks_end :
    (∀ named, NoCircle named →
      WellFounded (CalledBy named) ∧
        (∀ check, (∀ table t, check table t = checkOnce named check table t) ↔
          check = findings named) ∧
        ∀ table t, findings named table t ≠ .error .circularRules) ∧
      (∀ schema state, NoCircle (part schema "ReferenceTypes") →
        stateFindings schema state ≠ .error .circularRules) ∧
      NoCircle (part packaged "ReferenceTypes") := by
  refine ⟨fun named hnamed => ⟨wellFounded_calledBy hnamed, fun check => ⟨?_, ?_⟩,
    ends_findings hnamed⟩, fun schema state hnamed => ends_stateFindings hnamed state,
    packaged_sound.named.noCircle⟩
  · exact eq_findings_of_solution hnamed
  · rintro rfl
    exact findings_eq_checkOnce hnamed

/-- Tables that lead back to themselves through arrays and exclusive fields. -/
def entangled : Value :=
  .obj
    [entry "Rule" [valueOf "Plain"],
      entry "Plain" ([oneOf "Operators"] ++ allow ["Next"]),
      entry "Operators" [entry "And" [arrayOf "Rule"], entry "Not" [valueOf "Rule"]]]

/-- An object is sent from one table to another, and inside of it the same tables come up again. -/
theorem checks_end_entangled :
    NoCircle entangled ∧ WellFounded (CalledBy entangled) ∧
      (∀ t, findings entangled (entangled.get "Rule") t ≠ .error .circularRules) ∧
      ∀ state, stateFindings packaged state ≠ .error .circularRules := by
  have hrefers : ∀ name next, RefersTo entangled name next → name = "Rule" ∧ next = "Plain" := by
    intro name next h
    have hmem : name ∈ (["Rule", "Plain", "Operators"] : List Text) := h.mem_tableNames
    simp only [List.mem_cons, List.not_mem_nil, or_false] at hmem
    rcases hmem with rfl | rfl | rfl
    · exact ⟨rfl, (Value.str.inj h).symm⟩
    · cases h
    · cases h
  have hnamed : NoCircle entangled := by
    intro name hway
    obtain ⟨_, hfirst, -⟩ := Relation.TransGen.head'_iff.mp hway
    obtain ⟨_, -, hlast⟩ := Relation.TransGen.tail'_iff.mp hway
    have heq : ("Rule" : Text) = "Plain" := (hrefers _ _ hfirst).1.symm.trans (hrefers _ _ hlast).2
    exact absurd heq (by decide)
  obtain ⟨hcalls, -, hends⟩ := checks_end.1 entangled hnamed
  exact ⟨hnamed, hcalls, hends _, fun state => checks_end.2.1 packaged state checks_end.2.2⟩

/-- A table that sends objects back to itself is never done with them. -/
example :
    findings (.obj [entry "Rule" [valueOf "Rule"]]) (.obj [valueOf "Rule"]) (.object ⟨0, 2⟩ []) =
      .error .circularRules := rfl

end Tables

end Workflow
