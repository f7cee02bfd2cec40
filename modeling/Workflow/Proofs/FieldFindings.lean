import Mathlib.Data.List.Forall2
import Workflow.Check.Properties
import Workflow.Check.States
import Workflow.Proofs.ProperValues

/-!
# What the tables find

The check of properties against tables has two sides.  Whatever the tables are, it finds fields that
are not allowed and fields that exclude each other, and nothing else; in particular it judges neither
scopes nor references.  And when the tables are sound it does not fail: tables are objects, and no
table that is referred to by name sends an object to a further table.  The packaged tables are
sound.
-/

namespace Workflow

/-- What a computation followed by another one delivers comes from what the first one delivers. -/
theorem exists_of_bind_eq_ok
    {α β : Type} {x : Except Fault α} {f : α → Except Fault β} {b : β} (h : x >>= f = .ok b) :
    ∃ a, x = .ok a ∧ f a = .ok b := by
  cases hx : x with
  | error e =>
      rw [hx] at h
      cases h
  | ok a =>
      rw [hx] at h
      exact ⟨a, rfl, h⟩

/-- A result that was changed comes from a result. -/
theorem exists_of_map_eq_ok
    {α β : Type} {x : Except Fault α} {f : α → β} {b : β} (h : x.map f = .ok b) :
    ∃ a, x = .ok a ∧ f a = b := by
  cases x with
  | error fault => cases h
  | ok a => exact ⟨a, rfl, Except.ok.inj h⟩

/-- Computations that go on in the same way from whatever the first one delivers. -/
theorem bind_congr_of_ok
    {α β : Type} {x : Except Fault α} {f g : α → Except Fault β}
    (h : ∀ a, x = .ok a → f a = g a) :
    x >>= f = x >>= g := by
  cases x with
  | error e => rfl
  | ok a => exact h a rfl

/-- What a computation delivers has a property, and when it is safe it does deliver. -/
structure Delivers {α : Type} (x : Except Fault α) (safe : Prop) (P : α → Prop) : Prop where
  yields : ∀ a, x = .ok a → P a
  succeeds : safe → ∃ a, x = .ok a

namespace Delivers

variable {α β : Type} {safe : Prop} {P : α → Prop} {Q : β → Prop}

theorem pure
    {a : α} (h : P a) :
    Delivers (Pure.pure a) safe P where
  yields := by
    intro b hb
    cases hb
    exact h
  succeeds _ := ⟨a, rfl⟩

/-- One computation after another. -/
theorem bind
    {x : Except Fault α} {f : α → Except Fault β}
    (hx : Delivers x safe P) (hf : ∀ a, P a → Delivers (f a) safe Q) :
    Delivers (x >>= f) safe Q where
  yields := by
    intro b hb
    obtain ⟨a, ha, hb⟩ := exists_of_bind_eq_ok hb
    exact (hf a (hx.yields a ha)).yields b hb
  succeeds := by
    intro hsafe
    obtain ⟨a, ha⟩ := hx.succeeds hsafe
    obtain ⟨b, hb⟩ := (hf a (hx.yields a ha)).succeeds hsafe
    refine ⟨b, ?_⟩
    rw [ha]
    exact hb

theorem mono
    {x : Except Fault α} {safe' : Prop} {P' : α → Prop}
    (hx : Delivers x safe P) (hsafe : safe' → safe) (hP : ∀ a, P a → P' a) :
    Delivers x safe' P' where
  yields a ha := hP a (hx.yields a ha)
  succeeds h := hx.succeeds (hsafe h)

/-- A property that a safe computation has may as well be stated for safe computations only. -/
theorem of_safe
    {x : Except Fault α} (h : safe → ∃ a, x = .ok a ∧ P a) :
    Delivers x safe (fun a => safe → P a) where
  yields := by
    intro a ha hsafe
    obtain ⟨b, hb, hP⟩ := h hsafe
    rw [ha] at hb
    cases hb
    exact hP
  succeeds := by
    intro hsafe
    obtain ⟨a, ha, -⟩ := h hsafe
    exact ⟨a, ha⟩

theorem map
    {x : Except Fault α} {f : α → β} (hx : Delivers x safe P) (hf : ∀ a, P a → Q (f a)) :
    Delivers (x.map f) safe Q := by
  have hbind : x.map f = x >>= fun a => Pure.pure (f a) := by
    cases x <;> rfl
  rw [hbind]
  exact hx.bind fun a ha => Delivers.pure (hf a ha)

/-- A computation for each element of a list. -/
theorem mapM
    {l : List α} {f : α → Except Fault β} (hf : ∀ a ∈ l, Delivers (f a) safe Q) :
    Delivers (l.mapM f) safe (fun bs => ∀ b ∈ bs, Q b) := by
  induction l with
  | nil =>
      rw [List.mapM_nil]
      exact Delivers.pure fun b hb => absurd hb List.not_mem_nil
  | cons a l ih =>
      rw [List.mapM_cons]
      refine (hf a List.mem_cons_self).bind fun b hb => ?_
      refine (ih fun a' ha' => hf a' (List.mem_cons_of_mem _ ha')).bind fun bs hbs => ?_
      exact Delivers.pure fun b' hb' => by
        rcases List.mem_cons.mp hb' with rfl | hb'
        · exact hb
        · exact hbs b' hb'

end Delivers

/-- The results of a computation for each element of a list. -/
theorem forall₂_of_mapM
    {α β : Type} {f : α → Except Fault β} :
    ∀ {l : List α} {bs : List β}, l.mapM f = .ok bs → List.Forall₂ (fun a b => f a = .ok b) l bs
  | [], bs, h => by
      rw [List.mapM_nil] at h
      cases h
      exact List.Forall₂.nil
  | a :: l, bs, h => by
      rw [List.mapM_cons] at h
      obtain ⟨b, hb, h⟩ := exists_of_bind_eq_ok h
      obtain ⟨rest, hrest, h⟩ := exists_of_bind_eq_ok h
      cases h
      exact List.Forall₂.cons hb (forall₂_of_mapM hrest)

/-- Whatever belongs to each element of a list belongs to this one. -/
theorem exists_of_forall₂
    {α β : Type} {R : α → β → Prop} {l : List α} {bs : List β}
    (h : List.Forall₂ R l bs) {a : α} (ha : a ∈ l) :
    ∃ b ∈ bs, R a b := by
  induction h with
  | nil => cases ha
  | @cons a' b l bs hab _ ih =>
      rcases List.mem_cons.mp ha with rfl | ha
      · exact ⟨b, List.mem_cons_self, hab⟩
      · obtain ⟨b', hb', hab'⟩ := ih ha
        exact ⟨b', List.mem_cons_of_mem _ hb', hab'⟩

/-- Computations that agree on the elements of a list agree on the list. -/
theorem mapM_congr
    {α β : Type} {l : List α} {f g : α → Except Fault β} (h : ∀ a ∈ l, f a = g a) :
    l.mapM f = l.mapM g := by
  induction l with
  | nil => rfl
  | cons a l ih =>
      rw [List.mapM_cons, List.mapM_cons, h a List.mem_cons_self,
        ih fun b hb => h b (List.mem_cons_of_mem _ hb)]

/-- A computation that answers for each element of a list answers for the list. -/
theorem mapM_eq_ok_map
    {α β : Type} {l : List α} {f : α → Except Fault β} {g : α → β}
    (h : ∀ a ∈ l, f a = .ok (g a)) :
    l.mapM f = .ok (l.map g) := by
  induction l with
  | nil => rfl
  | cons a l ih =>
      rw [List.mapM_cons, h a List.mem_cons_self,
        ih fun a' ha' => h a' (List.mem_cons_of_mem _ ha')]
      rfl

/-- Results that agree with what they were computed from, element by element. -/
theorem map_eq_map_of_forall₂
    {α β γ : Type} {R : α → β → Prop} {f : α → γ} {g : β → γ} {l : List α} {bs : List β}
    (h : List.Forall₂ R l bs) (hfg : ∀ a ∈ l, ∀ b, R a b → g b = f a) :
    bs.map g = l.map f := by
  induction h with
  | nil => rfl
  | @cons a b l bs hab _ ih =>
      rw [List.map_cons, List.map_cons, hfg a List.mem_cons_self b hab,
        ih fun a' ha' => hfg a' (List.mem_cons_of_mem _ ha')]

/-- The codes of judgements on a whole scope. -/
def DiagnosticCode.isVerdict : DiagnosticCode → Bool
  | .unreachableState | .noTerminalState => true
  | _ => false

/-- The codes of references to something that is no state of the scope. -/
def DiagnosticCode.isReference : DiagnosticCode → Bool
  | .invalidNext | .invalidDefault | .invalidStartAt => true
  | _ => false

/-- The judgements on scopes among some findings. -/
def verdictsIn (fs : List Finding) : List Finding := fs.filter fun f => f.code.isVerdict

/-- The wrong references among some findings. -/
def referencesIn (fs : List Finding) : List Finding := fs.filter fun f => f.code.isReference

@[simp] theorem verdictsIn_nil :
    verdictsIn [] = [] := by
  rfl

@[simp] theorem verdictsIn_append
    (fs gs : List Finding) :
    verdictsIn (fs ++ gs) = verdictsIn fs ++ verdictsIn gs := by
  simp [verdictsIn]

@[simp] theorem verdictsIn_flatten
    (fss : List (List Finding)) :
    verdictsIn fss.flatten = (fss.map verdictsIn).flatten := by
  unfold verdictsIn
  rw [List.filter_flatten]

theorem verdictsIn_flatMap
    {α : Type} (l : List α) (f : α → List Finding) :
    verdictsIn (l.flatMap f) = l.flatMap fun a => verdictsIn (f a) := by
  unfold verdictsIn
  rw [List.filter_flatMap]

/-- The findings are about fields: neither judgements on a scope nor wrong references. -/
def AboutFields (fs : List Finding) : Prop :=
  ∀ f ∈ fs, f.code.isVerdict = false ∧ f.code.isReference = false

section AboutFields

variable {fs gs : List Finding}

theorem aboutFields_nil : AboutFields [] := by
  intro f hf
  cases hf

theorem aboutFields_append :
    AboutFields (fs ++ gs) ↔ AboutFields fs ∧ AboutFields gs := by
  unfold AboutFields
  rw [List.forall_mem_append]

theorem aboutFields_singleton
    {f : Finding} (hverdict : f.code.isVerdict = false) (hreference : f.code.isReference = false) :
    AboutFields [f] := by
  intro g hg
  rw [List.mem_singleton.mp hg]
  exact ⟨hverdict, hreference⟩

theorem aboutFields_flatMap
    {α : Type} {l : List α} {f : α → List Finding} (h : ∀ a ∈ l, AboutFields (f a)) :
    AboutFields (l.flatMap f) := by
  intro g hg
  obtain ⟨a, ha, hg⟩ := List.mem_flatMap.mp hg
  exact h a ha g hg

theorem aboutFields_flatten
    {fss : List (List Finding)} (h : ∀ fs ∈ fss, AboutFields fs) :
    AboutFields fss.flatten := by
  intro f hf
  obtain ⟨fs, hfs, hf⟩ := List.mem_flatten.mp hf
  exact h fs hfs f hf

theorem AboutFields.verdictsIn_eq
    (h : AboutFields fs) :
    verdictsIn fs = [] := by
  refine List.filter_eq_nil_iff.mpr fun f hf => ?_
  rw [(h f hf).1]
  exact Bool.false_ne_true

theorem AboutFields.referencesIn_eq
    (h : AboutFields fs) :
    referencesIn fs = [] := by
  refine List.filter_eq_nil_iff.mpr fun f hf => ?_
  rw [(h f hf).2]
  exact Bool.false_ne_true

end AboutFields

theorem verdictsIn_singleton
    {f : Finding} (h : f.code.isVerdict = false) :
    verdictsIn [f] = [] := by
  simp [verdictsIn, h]

/-- Findings about fields in front of others about fields. -/
theorem Delivers.append
    {safe : Prop} {x : Except Fault (List Finding)} (hx : Delivers x safe AboutFields)
    (first : List Finding) (hfirst : AboutFields first) :
    Delivers (do
      let rest ← x
      Pure.pure (first ++ rest)) safe AboutFields := by
  refine hx.bind fun rest hrest => ?_
  exact Delivers.pure (aboutFields_append.mpr ⟨hfirst, hrest⟩)

namespace Tables

/-- A table that sends no object to a further table. -/
def Direct (table : Value) : Prop :=
  table.isObject = true ∧ ∀ name, table.get valueOfKey ≠ .str name

/-- Tables with names: whatever a name stands for, if it counts, is a direct table. -/
def SoundNamed (named : Value) : Prop :=
  named.isObject = true ∧ ∀ name, (named.get name).truthy = true → Direct (named.get name)

/-- A rule for objects whose tables are objects. -/
def ObjectRule.Sound : ObjectRule → Prop
  | .anything => True
  | .exclusive table fields => table.isObject = true ∧ fields.isObject = true
  | .plain table => table.isObject = true

theorem lookup_delivers
    (table : Value) (name : Text) :
    Delivers (lookup table name) (table.isObject = true) (fun v => v = table.get name) := by
  cases table with
  | obj fields => exact Delivers.pure rfl
  | _ =>
      refine ⟨nofun, fun h => ?_⟩
      cases h

theorem lookupD_delivers
    (table : Value) (name : Text) (default : Value) :
    Delivers (lookupD table name default) (table.isObject = true)
      (fun v => v = (table.get? name).getD default) := by
  cases table with
  | obj fields => exact Delivers.pure rfl
  | _ =>
      refine ⟨nofun, fun h => ?_⟩
      cases h

/-- A table that a name stands for is direct. -/
theorem SoundNamed.direct
    {named : Value} (h : SoundNamed named)
    {name : Text} (hobject : (named.get name).isObject = true) :
    Direct (named.get name) := by
  cases htruthy : (named.get name).truthy with
  | true => exact h.2 name htruthy
  | false =>
      refine ⟨hobject, fun other => ?_⟩
      cases hvalue : named.get name with
      | obj fields =>
          -- an object that does not count has no fields
          rw [hvalue, Value.truthy, Bool.not_eq_false', List.isEmpty_iff] at htruthy
          rw [htruthy]
          nofun
      | _ =>
          rw [hvalue] at hobject
          cases hobject

/-- The rule of a table that names a table of exclusive fields. -/
theorem objectRule_of_oneOf
    {named table : Value} (hnamed : SoundNamed named) (htable : table.isObject = true)
    {name : Text} (hname : table.get oneOfKey = .str name) (fuel : Nat) :
    ∃ rule, objectRule named (fuel + 1) table = .ok rule ∧ rule.Sound := by
  obtain ⟨fields, hfields⟩ := (lookup_delivers named name).succeeds hnamed.1
  have hvalue := (lookup_delivers named name).yields fields hfields
  rw [objectRule, hname]
  simp only [hfields]
  refine ⟨_, rfl, htable, ?_⟩
  cases htruthy : fields.truthy with
  | true =>
      rw [if_pos rfl, hvalue]
      rw [hvalue] at htruthy
      exact (hnamed.2 name htruthy).1
  | false => rfl

/-- The rule of a direct table. -/
theorem objectRule_of_direct
    {named table : Value} (hnamed : SoundNamed named) (htable : Direct table) (fuel : Nat) :
    ∃ rule, objectRule named (fuel + 1) table = .ok rule ∧ rule.Sound := by
  cases hone : table.get oneOfKey with
  | str name => exact objectRule_of_oneOf hnamed htable.1 hone fuel
  | _ =>
      rw [objectRule, hone]
      cases hvalue : table.get valueOfKey with
      | str name => exact absurd hvalue (htable.2 name)
      | _ =>
          refine ⟨_, rfl, ?_⟩
          dsimp only [ObjectRule.Sound]
          split
          · next hinner => exact hinner
          · exact htable.1

/-- Objects are sent to another table at most once when the named tables are direct. -/
theorem objectRule_delivers
    (named table : Value) :
    Delivers (objectRule named (ruleBound named) table)
      (SoundNamed named ∧ table.isObject = true)
      (fun rule => SoundNamed named ∧ table.isObject = true → rule.Sound) := by
  refine Delivers.of_safe ?_
  rintro ⟨hnamed, htable⟩
  -- the bound leaves room for two tables, and a named table sends the object no further
  obtain ⟨fuel, hfuel⟩ : ∃ fuel, ruleBound named = fuel + 2 := by
    cases named with
    | obj fields => exact ⟨fields.length, rfl⟩
    | _ => exact ⟨0, rfl⟩
  rw [hfuel]
  cases hone : table.get oneOfKey with
  | str name => exact objectRule_of_oneOf hnamed htable hone _
  | _ =>
      cases hvalue : table.get valueOfKey with
      | str name =>
          obtain ⟨next, hnext⟩ := (lookup_delivers named name).succeeds hnamed.1
          have heq := (lookup_delivers named name).yields next hnext
          rw [objectRule, hone, hvalue]
          simp only [hnext]
          split
          · next hobject =>
              rw [heq] at hobject ⊢
              exact objectRule_of_direct hnamed (hnamed.direct hobject) fuel
          · exact ⟨_, rfl, trivial⟩
      | _ =>
          refine objectRule_of_direct hnamed ⟨htable, fun name hname => ?_⟩ (fuel + 1)
          rw [hvalue] at hname
          cases hname

/-- The findings at unknown fields are about fields, and looking the names up is all that can
fail. -/
theorem unknownFields_delivers
    {safe : Prop} {allowed : Text → Except Fault Bool}
    (hallowed : ∀ name, Delivers (allowed name) safe (fun _ => True))
    (properties : List (Property Tree)) :
    Delivers (unknownFields allowed properties) safe AboutFields := by
  unfold unknownFields
  refine Delivers.bind (P := fun marks => ∀ fs ∈ marks, AboutFields fs) ?_ ?_
  · refine Delivers.mapM fun p _ => (hallowed p.key.name).bind fun ok _ => Delivers.pure ?_
    cases ok with
    | true => exact aboutFields_nil
    | false => exact aboutFields_singleton rfl rfl
  · intro marks hmarks
    exact Delivers.pure (aboutFields_flatten hmarks)

mutual

/-- The findings in a tree are about fields, and with sound tables they are always delivered. -/
theorem findings_delivers
    (named : Value) :
    ∀ (t : Tree) (table : Value),
      Delivers (findings named table t) (SoundNamed named ∧ table.isObject = true)
        AboutFields
  | .array _ items, table => by
      rw [findings]
      split
      · next name _ =>
          refine ((lookup_delivers named name).mono (fun h => h.1.1) fun _ h => h).bind ?_
          intro next _
          split
          · next hobject =>
              exact (itemFindings_delivers named items next).mono (fun h => ⟨h.1, hobject⟩)
                fun _ h => h
          · exact Delivers.pure aboutFields_nil
      · exact Delivers.pure aboutFields_nil
  | .object _ properties, table => by
      rw [findings]
      refine (objectRule_delivers named table).bind fun rule hrule => ?_
      cases rule with
      | anything => exact Delivers.pure aboutFields_nil
      | exclusive table' fields =>
          refine Delivers.bind (P := AboutFields) ?_ fun unknown hunknown => ?_
          · refine unknownFields_delivers (fun name => ?_) properties
            refine ((lookup_delivers fields name).mono (fun h => (hrule h).2) fun _ h => h).bind ?_
            intro own _
            refine ((lookup_delivers table' name).mono (fun h => (hrule h).1) fun _ h => h).bind ?_
            intro other _
            exact Delivers.pure trivial
          · dsimp only
            split
            · refine Delivers.pure (aboutFields_append.mpr ⟨hunknown, fun f hf => ?_⟩)
              obtain ⟨p, -, rfl⟩ := List.mem_map.mp hf
              exact ⟨rfl, rfl⟩
            · refine ((valueFindings_delivers named properties fields).mono
                (fun h => ⟨h.1, (hrule h).2⟩) fun _ h => h).bind fun inside hinside => ?_
              exact Delivers.pure (aboutFields_append.mpr ⟨hunknown, hinside⟩)
      | plain table' =>
          exact (fieldFindings_delivers named properties table').mono
            (fun h => ⟨h.1, hrule h⟩) fun _ h => h
  | .null _, _ => Delivers.pure aboutFields_nil
  | .boolean _ _, _ => Delivers.pure aboutFields_nil
  | .number _ _, _ => Delivers.pure aboutFields_nil
  | .string _ _, _ => Delivers.pure aboutFields_nil

/-- The same of the items of an array. -/
theorem itemFindings_delivers
    (named : Value) :
    ∀ (items : List Tree) (table : Value),
      Delivers (itemFindings named table items) (SoundNamed named ∧ table.isObject = true)
        AboutFields
  | [], table => by
      rw [itemFindings]
      exact Delivers.pure aboutFields_nil
  | t :: items, table => by
      have hgoOn := (itemFindings_delivers named items table).append
      rw [itemFindings]
      split
      · exact (findings_delivers named t table).bind hgoOn
      · exact hgoOn [] aboutFields_nil

/-- The same of properties whose names have to be allowed. -/
theorem fieldFindings_delivers
    (named : Value) :
    ∀ (properties : List (Property Tree)) (table : Value),
      Delivers (fieldFindings named table properties) (SoundNamed named ∧ table.isObject = true)
        AboutFields
  | [], table => by
      rw [fieldFindings]
      exact Delivers.pure aboutFields_nil
  | ⟨_, key, _, value⟩ :: properties, table => by
      have hgoOn := (fieldFindings_delivers named properties table).append
      rw [fieldFindings]
      refine ((lookup_delivers table key.name).mono (fun h => h.2) fun _ h => h).bind ?_
      intro entry _
      dsimp only
      split
      · cases value with
        | none => exact hgoOn [] aboutFields_nil
        | some t =>
            dsimp only
            split
            · next hobject =>
                refine ((findings_delivers named t entry).mono (fun h => ⟨h.1, hobject⟩)
                  fun _ h => h).bind hgoOn
            · exact hgoOn [] aboutFields_nil
      · exact hgoOn _ (aboutFields_singleton rfl rfl)

/-- The same of properties whose names are taken as allowed. -/
theorem valueFindings_delivers
    (named : Value) :
    ∀ (properties : List (Property Tree)) (table : Value),
      Delivers (valueFindings named table properties) (SoundNamed named ∧ table.isObject = true)
        AboutFields
  | [], table => by
      rw [valueFindings]
      exact Delivers.pure aboutFields_nil
  | ⟨_, key, _, value⟩ :: properties, table => by
      have hgoOn := (valueFindings_delivers named properties table).append
      rw [valueFindings.eq_def]
      dsimp only
      cases value with
      | none => exact hgoOn [] aboutFields_nil
      | some t =>
          dsimp only
          split
          · next hobject =>
              rw [Bool.and_eq_true] at hobject
              refine ((findings_delivers named t _).mono (fun h => ⟨h.1, hobject.1⟩)
                fun _ h => h).bind hgoOn
          · exact hgoOn [] aboutFields_nil

end

/-- One of the tables of a schema; a missing one is empty. -/
def part (schema : Value) (name : Text) : Value := (schema.get? name).getD (.obj [])

/-- Tables by which any document can be checked without a fault. -/
structure Sound (schema : Value) : Prop where
  isObject : schema.isObject = true
  common : (part schema "Common").isObject = true
  kinds : (part schema "StateTypes").isObject = true
  kind : ∀ name, ((part schema "StateTypes").get name).isNull = false →
    ((part schema "StateTypes").get name).isObject = true ∧
      (part ((part schema "StateTypes").get name) "Properties").isObject = true
  named : SoundNamed (part schema "ReferenceTypes")
  scope : ∀ kind : ScopeKind, (part schema kind.table).isObject = true

/-- What a kind has to be for the check of a state: null, or an object with a table of fields. -/
def SoundKind (kind : Value) : Prop :=
  kind.isNull = false → kind.isObject = true ∧ (part kind "Properties").isObject = true

theorem kindTable_delivers
    (schema : Value) (state : Option Tree) :
    Delivers (kindTable (part schema "StateTypes") state) (Sound schema)
      (fun kind => Sound schema → SoundKind kind) := by
  unfold kindTable
  split
  · next name _ =>
      refine (lookup_delivers _ name).mono (fun h => h.kinds) fun kind hkind hsound => ?_
      rw [hkind]
      exact hsound.kind name
  · refine Delivers.pure fun _ hnull => ?_
    cases hnull

theorem allowsCommon_delivers
    {kind : Value} {safe : Prop} (hkind : safe → SoundKind kind) :
    Delivers (allowsCommon kind) safe (fun _ => True) := by
  unfold allowsCommon
  split
  · exact Delivers.pure trivial
  · next hnull =>
      rw [Bool.not_eq_true] at hnull
      exact ((lookup_delivers kind _).mono (fun h => (hkind h hnull).1) fun _ _ => trivial).map
        fun _ _ => trivial

theorem statePropertyFindings_delivers
    {schema kind : Value} (hkind : Sound schema → SoundKind kind) (hasCommon : Bool)
    (p : Property Tree) :
    Delivers
      (statePropertyFindings (part schema "ReferenceTypes") (part schema "Common") kind hasCommon p)
      (Sound schema) AboutFields := by
  unfold statePropertyFindings
  refine Delivers.bind (P := fun _ => True) ?_ fun isCommon _ => ?_
  · unfold isCommonField
    split
    · exact ((lookup_delivers _ _).mono (fun h => h.common) fun _ _ => trivial).map
        fun _ _ => trivial
    · exact Delivers.pure trivial
  · split
    · exact Delivers.pure aboutFields_nil
    · have hfields : Sound schema → (if kind.isNull then Value.obj [] else kind).isObject = true ∧
          (part (if kind.isNull then Value.obj [] else kind) "Properties").isObject = true := by
        intro hsound
        cases hnull : kind.isNull with
        | true => exact ⟨rfl, rfl⟩
        | false => exact hkind hsound hnull
      refine ((lookupD_delivers _ _ _).mono (fun h => (hfields h).1) fun _ h => h).bind ?_
      rintro fields rfl
      refine ((lookup_delivers _ _).mono (fun h => (hfields h).2) fun _ h => h).bind ?_
      intro entry _
      split
      · split
        · split
          · next t _ hobject =>
              exact (findings_delivers _ t entry).mono (fun h => ⟨h.named, hobject⟩) fun _ h => h
          · exact Delivers.pure aboutFields_nil
        · exact Delivers.pure aboutFields_nil
      · exact Delivers.pure (aboutFields_singleton rfl rfl)

/-- The findings in the properties of a state are about fields, and with sound tables they are
always delivered for an object. -/
theorem stateFindings_delivers
    (schema : Value) (t : Tree) :
    Delivers (stateFindings schema (some t)) (Sound schema ∧ t.isObject = true)
      AboutFields := by
  unfold stateFindings
  refine ((lookupD_delivers schema _ _).mono (fun h => h.1.isObject) fun _ h => h).bind ?_
  rintro kinds rfl
  refine ((lookupD_delivers schema _ _).mono (fun h => h.1.isObject) fun _ h => h).bind ?_
  rintro common rfl
  refine ((lookupD_delivers schema _ _).mono (fun h => h.1.isObject) fun _ h => h).bind ?_
  rintro named rfl
  refine ((kindTable_delivers schema _).mono (fun h => h.1) fun _ h => h).bind ?_
  intro kind hkind
  refine (allowsCommon_delivers fun h => hkind h.1).bind fun hasCommon _ => ?_
  cases hproperties : t.properties? with
  | none =>
      simp only [Option.bind_some, hproperties]
      refine ⟨nofun, fun h => ?_⟩
      rw [Tree.isObject, hproperties] at h
      cases h.2
  | some properties =>
      simp only [Option.bind_some, hproperties]
      refine Delivers.bind (P := fun marks => ∀ fs ∈ marks, AboutFields fs) ?_
        fun marks hmarks => ?_
      · exact Delivers.mapM fun p _ =>
          (statePropertyFindings_delivers hkind hasCommon p).mono (fun h => h.1) fun _ h => h
      · exact Delivers.pure (aboutFields_flatten hmarks)

/-- What holds of null and of all fields of an object holds of all its look-ups. -/
theorem get_of_fields
    {P : Value → Prop} {fields : Fields} (hnull : P .null) (h : ∀ field ∈ fields, P field.2)
    (name : Text) :
    P ((Value.obj fields).get name) := by
  rw [Value.get, Value.get?, Value.fields?, Option.bind_some]
  cases hget : fields.get? name with
  | none => exact hnull
  | some v => exact h _ (Fields.mem_of_get? hget)

/-- A table without the rule that sends an object to a further table is direct. -/
theorem direct_of_get?
    {fields : Fields} (h : fields.get? valueOfKey = none) :
    Direct (.obj fields) := by
  refine ⟨rfl, fun name hname => ?_⟩
  rw [Value.get, Value.get?, Value.fields?, Option.bind_some, h] at hname
  cases hname

/-- By the packaged tables any document can be checked. -/
theorem packaged_sound : Sound packaged where
  isObject := rfl
  common := rfl
  kinds := rfl
  kind := by
    have hkinds : part packaged "StateTypes" = .obj stateTypes := rfl
    rw [hkinds]
    refine get_of_fields (P := SoundKind) nofun ?_
    simp only [stateTypes, List.forall_mem_cons]
    exact ⟨fun _ => ⟨rfl, rfl⟩, fun _ => ⟨rfl, rfl⟩, fun _ => ⟨rfl, rfl⟩, fun _ => ⟨rfl, rfl⟩,
      fun _ => ⟨rfl, rfl⟩, fun _ => ⟨rfl, rfl⟩, fun _ => ⟨rfl, rfl⟩, fun _ => ⟨rfl, rfl⟩,
      fun _ h => absurd h List.not_mem_nil⟩
  named := by
    have hnamed : part packaged "ReferenceTypes" = .obj referenceTypes := rfl
    rw [hnamed]
    refine ⟨rfl, get_of_fields (P := fun table => table.truthy = true → Direct table) nofun ?_⟩
    simp only [referenceTypes, List.forall_mem_cons]
    exact ⟨fun _ => direct_of_get? rfl, fun _ => direct_of_get? rfl, fun _ => direct_of_get? rfl,
      fun _ => direct_of_get? rfl, fun _ => direct_of_get? rfl,
      fun _ h => absurd h List.not_mem_nil⟩
  scope := by
    intro kind
    cases kind <;> rfl

end Tables

/-- The findings at the fields of a scope are about fields, and with sound tables they are always
delivered. -/
theorem Check.scopeFields_delivers
    (schema : Value) (kind : ScopeKind) (properties : List (Property Tree)) :
    Delivers (scopeFields schema kind properties) (Tables.Sound schema)
      AboutFields := by
  unfold scopeFields
  refine ((Tables.lookupD_delivers schema _ _).mono (fun h => h.isObject) fun _ h => h).bind ?_
  rintro table rfl
  refine Tables.unknownFields_delivers (fun name => ?_) properties
  exact ((Tables.lookup_delivers _ name).mono (fun h => h.scope kind) fun _ _ => trivial).map
    fun _ _ => trivial

end Workflow
