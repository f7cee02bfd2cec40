import Mathlib.Logic.Relation
import Workflow.Document.Focus
import Workflow.Proofs.FieldFindings
import Workflow.Proofs.LinePositions

/-!
# Where findings stand

Whatever tables a document is checked against, every finding stands at a part of the checked tree:
at a key that is not allowed or that declares a state, or at a value.  So the range of a diagnostic
is that of a part, and for a part that lies in the text it leads back to the offsets where the part
begins and ends.
-/

namespace Workflow

namespace Tree

/-- The part stands in the tree. -/
def HasPart (t : Tree) (part : Part) : Prop :=
  Relation.ReflTransGen (fun outer inner : Part => inner ∈ outer.children) (.tree t) part

section HasPart

variable {t u : Tree} {p : Property Tree}

theorem hasPart_self
    (t : Tree) :
    t.HasPart (.tree t) := Relation.ReflTransGen.refl

theorem HasPart.item
    (h : t.HasPart (.tree u)) {items : List Tree} (hitems : u.items? = some items) {v : Tree}
    (hv : v ∈ items) :
    t.HasPart (.tree v) := by
  cases u with
  | array span others =>
      cases hitems
      exact h.tail (List.mem_map_of_mem hv)
  | _ => cases hitems

theorem HasPart.property
    (h : t.HasPart (.tree u)) {properties : List (Property Tree)}
    (hproperties : u.properties? = some properties) (hp : p ∈ properties) :
    t.HasPart (.property p) := by
  cases u with
  | object span others =>
      cases hproperties
      exact h.tail (List.mem_map_of_mem hp)
  | _ => cases hproperties

theorem HasPart.property?
    (h : t.HasPart (.tree u)) {name : Text} (hp : u.property? name = some p) :
    t.HasPart (.property p) := by
  obtain ⟨properties, hproperties, hfind⟩ := Option.bind_eq_some_iff.mp hp
  exact h.property hproperties (List.mem_of_find?_eq_some hfind)

theorem HasPart.key
    (h : t.HasPart (.property p)) :
    t.HasPart (.key p.key) := h.tail List.mem_cons_self

theorem HasPart.value
    (h : t.HasPart (.property p)) (hvalue : p.value = some u) :
    t.HasPart (.tree u) := by
  refine h.tail (List.mem_cons_of_mem _ ?_)
  rw [hvalue]
  exact List.mem_singleton_self _

/-- The value of a field. -/
theorem HasPart.field
    (h : t.HasPart (.tree u)) {name : Text} {v : Tree}
    (hvalue : (u.property? name).bind Property.value = some v) :
    t.HasPart (.tree v) := by
  obtain ⟨p, hp, hvalue⟩ := Option.bind_eq_some_iff.mp hvalue
  exact (h.property? hp).value hvalue

end HasPart

end Tree

/-- The findings stand at parts of a tree. -/
def StandIn (whole : Tree) (fs : List Finding) : Prop :=
  ∀ f ∈ fs, ∃ part, whole.HasPart part ∧ f.span = part.span

section StandIn

variable {whole : Tree}

theorem standIn_nil :
    StandIn whole [] := nofun

theorem standIn_append
    {fs gs : List Finding} :
    StandIn whole (fs ++ gs) ↔ StandIn whole fs ∧ StandIn whole gs := List.forall_mem_append

theorem standIn_singleton
    {part : Part} (h : whole.HasPart part) (code : DiagnosticCode) :
    StandIn whole [⟨part.span, code⟩] := by
  intro f hf
  rw [List.mem_singleton.mp hf]
  exact ⟨part, h, rfl⟩

theorem standIn_flatMap
    {α : Type} {l : List α} {f : α → List Finding} (h : ∀ a ∈ l, StandIn whole (f a)) :
    StandIn whole (l.flatMap f) := by
  intro x hx
  obtain ⟨a, ha, hx⟩ := List.mem_flatMap.mp hx
  exact h a ha x hx

theorem standIn_flatten
    {fss : List (List Finding)} (h : ∀ fs ∈ fss, StandIn whole fs) :
    StandIn whole fss.flatten := by
  intro x hx
  obtain ⟨fs, hfs, hx⟩ := List.mem_flatten.mp hx
  exact h fs hfs x hx

/-- Nothing is said about what a computation delivers. -/
theorem Delivers.trivial
    {α : Type} (x : Except Fault α) :
    Delivers x False (fun _ => True) := ⟨fun _ _ => True.intro, False.elim⟩

/-- Findings in front of others. -/
theorem Delivers.append_standIn
    {x : Except Fault (List Finding)} (hx : Delivers x False (StandIn whole))
    (first : List Finding) (hfirst : StandIn whole first) :
    Delivers (do
      let rest ← x
      Pure.pure (first ++ rest)) False (StandIn whole) := by
  refine hx.bind fun rest hrest => ?_
  exact Delivers.pure (standIn_append.mpr ⟨hfirst, hrest⟩)

namespace Tables

theorem unknownFields_standIn
    (allowed : Text → Except Fault Bool) {properties : List (Property Tree)}
    (hproperties : ∀ p ∈ properties, whole.HasPart (.property p)) :
    Delivers (unknownFields allowed properties) False (StandIn whole) := by
  unfold unknownFields
  refine Delivers.bind (P := fun marks => ∀ fs ∈ marks, StandIn whole fs) ?_ ?_
  · refine Delivers.mapM fun p hp => (Delivers.trivial _).bind fun ok _ => Delivers.pure ?_
    cases ok with
    | true => exact standIn_nil
    | false => exact standIn_singleton (hproperties p hp).key _
  · intro marks hmarks
    exact Delivers.pure (standIn_flatten hmarks)

mutual

/-- The findings in a tree that is checked against a table stand at its parts. -/
theorem findings_standIn
    (named : Value) :
    ∀ (t : Tree) (table : Value), whole.HasPart (.tree t) →
      Delivers (findings named table t) False (StandIn whole)
  | .array _ items, table, ht => by
      rw [findings]
      split
      · refine (Delivers.trivial _).bind fun next _ => ?_
        split
        · exact itemFindings_standIn named items next fun u hu => ht.item rfl hu
        · exact Delivers.pure standIn_nil
      · exact Delivers.pure standIn_nil
  | .object _ properties, table, ht => by
      have hproperties : ∀ p ∈ properties, whole.HasPart (.property p) :=
        fun p hp => ht.property rfl hp
      rw [findings]
      refine (Delivers.trivial _).bind fun rule _ => ?_
      cases rule with
      | anything => exact Delivers.pure standIn_nil
      | exclusive table' fields =>
          refine Delivers.bind (unknownFields_standIn _ hproperties) fun unknown hunknown => ?_
          dsimp only
          split
          · refine Delivers.pure (standIn_append.mpr ⟨hunknown, fun f hf => ?_⟩)
            obtain ⟨p, hp, rfl⟩ := List.mem_map.mp hf
            exact ⟨_, (hproperties p (List.mem_filter.mp hp).1).key, rfl⟩
          · refine (valueFindings_standIn named properties fields hproperties).bind
              fun inside hinside => ?_
            exact Delivers.pure (standIn_append.mpr ⟨hunknown, hinside⟩)
      | plain table' => exact fieldFindings_standIn named properties table' hproperties
  | .null _, _, _ => Delivers.pure standIn_nil
  | .boolean _ _, _, _ => Delivers.pure standIn_nil
  | .number _ _, _, _ => Delivers.pure standIn_nil
  | .string _ _, _, _ => Delivers.pure standIn_nil

/-- The same of the items of an array. -/
theorem itemFindings_standIn
    (named : Value) :
    ∀ (items : List Tree) (table : Value), (∀ t ∈ items, whole.HasPart (.tree t)) →
      Delivers (itemFindings named table items) False (StandIn whole)
  | [], table, _ => by
      rw [itemFindings]
      exact Delivers.pure standIn_nil
  | t :: items, table, hitems => by
      obtain ⟨ht, hrest⟩ := List.forall_mem_cons.mp hitems
      have hgoOn := (itemFindings_standIn named items table hrest).append_standIn
      rw [itemFindings]
      split
      · exact (findings_standIn named t table ht).bind hgoOn
      · exact hgoOn [] standIn_nil

/-- The same of properties whose names have to be allowed. -/
theorem fieldFindings_standIn
    (named : Value) :
    ∀ (properties : List (Property Tree)) (table : Value),
      (∀ p ∈ properties, whole.HasPart (.property p)) →
      Delivers (fieldFindings named table properties) False (StandIn whole)
  | [], table, _ => by
      rw [fieldFindings]
      exact Delivers.pure standIn_nil
  | ⟨_, key, _, value⟩ :: properties, table, hproperties => by
      obtain ⟨hp, hrest⟩ := List.forall_mem_cons.mp hproperties
      have hgoOn := (fieldFindings_standIn named properties table hrest).append_standIn
      rw [fieldFindings]
      refine (Delivers.trivial _).bind fun entry _ => ?_
      dsimp only
      split
      · cases value with
        | none => exact hgoOn [] standIn_nil
        | some t =>
            dsimp only
            split
            · exact (findings_standIn named t entry (hp.value rfl)).bind hgoOn
            · exact hgoOn [] standIn_nil
      · exact hgoOn _ (standIn_singleton hp.key _)

/-- The same of properties whose names are taken as allowed. -/
theorem valueFindings_standIn
    (named : Value) :
    ∀ (properties : List (Property Tree)) (table : Value),
      (∀ p ∈ properties, whole.HasPart (.property p)) →
      Delivers (valueFindings named table properties) False (StandIn whole)
  | [], table, _ => by
      rw [valueFindings]
      exact Delivers.pure standIn_nil
  | ⟨_, key, _, value⟩ :: properties, table, hproperties => by
      obtain ⟨hp, hrest⟩ := List.forall_mem_cons.mp hproperties
      have hgoOn := (valueFindings_standIn named properties table hrest).append_standIn
      rw [valueFindings.eq_def]
      dsimp only
      cases value with
      | none => exact hgoOn [] standIn_nil
      | some t =>
          dsimp only
          split
          · exact (findings_standIn named t _ (hp.value rfl)).bind hgoOn
          · exact hgoOn [] standIn_nil

end

/-- The findings in the properties of a state stand at parts of it. -/
theorem stateFindings_standIn
    (schema : Value) {t : Tree} (ht : whole.HasPart (.tree t)) :
    Delivers (stateFindings schema (some t)) False (StandIn whole) := by
  unfold stateFindings
  refine (Delivers.trivial _).bind fun kinds _ => (Delivers.trivial _).bind fun common _ =>
    (Delivers.trivial _).bind fun named _ => (Delivers.trivial _).bind fun kind _ =>
    (Delivers.trivial _).bind fun hasCommon _ => ?_
  rw [Option.bind_some]
  cases hproperties : t.properties? with
  | none => exact ⟨nofun, False.elim⟩
  | some properties =>
      refine Delivers.bind (P := fun marks => ∀ fs ∈ marks, StandIn whole fs) ?_
        fun marks hmarks => Delivers.pure (standIn_flatten hmarks)
      refine Delivers.mapM fun p hp => ?_
      have hpart := ht.property hproperties hp
      unfold statePropertyFindings
      refine (Delivers.trivial _).bind fun isCommon _ => ?_
      split
      · exact Delivers.pure standIn_nil
      · refine (Delivers.trivial _).bind fun fields _ => (Delivers.trivial _).bind fun entry _ => ?_
        split
        · split
          · next u hu =>
              split
              · exact findings_standIn named u entry (hpart.value hu)
              · exact Delivers.pure standIn_nil
          · exact Delivers.pure standIn_nil
        · exact Delivers.pure (standIn_singleton hpart.key _)

end Tables

/-! ## The findings of a scope -/

mutual

/-- What is found in a template stands in it. -/
theorem standIn_templateFindings :
    ∀ t : Tree, whole.HasPart (.tree t) → StandIn whole (templateFindings t)
  | .object _ properties, ht =>
      standIn_templateFieldFindings properties fun _ hp => ht.property rfl hp
  | .array _ _, _ => standIn_nil
  | .null _, _ => standIn_nil
  | .boolean _ _, _ => standIn_nil
  | .number _ _, _ => standIn_nil
  | .string _ _, _ => standIn_nil

theorem standIn_templateFieldFindings :
    ∀ properties : List (Property Tree), (∀ p ∈ properties, whole.HasPart (.property p)) →
      StandIn whole (templateFieldFindings properties)
  | [], _ => standIn_nil
  | ⟨_, _, _, some t⟩ :: properties, hproperties => by
      obtain ⟨hp, hrest⟩ := List.forall_mem_cons.mp hproperties
      have ht : whole.HasPart (.tree t) := hp.value rfl
      rw [templateFieldFindings, standIn_append]
      refine ⟨?_, standIn_templateFieldFindings properties hrest⟩
      split
      · split
        · exact standIn_nil
        · exact standIn_singleton ht _
      · exact standIn_templateFindings t ht
  | ⟨_, _, _, none⟩ :: properties, hproperties =>
      standIn_templateFieldFindings properties (List.forall_mem_cons.mp hproperties).2

end

section State

variable {state : Tree} (hstate : whole.HasPart (.tree state))

include hstate

theorem standIn_propertyFindings
    (name : Text) :
    StandIn whole (propertyFindings (state.property? name)) := by
  unfold propertyFindings
  split
  · next t ht => exact standIn_templateFindings t (hstate.field ht)
  · exact standIn_nil

theorem standIn_failPathFindings :
    StandIn whole (failPathFindings state) := by
  unfold failPathFindings
  refine standIn_flatMap fun name _ => ?_
  split
  · next t ht =>
      split
      · exact standIn_nil
      · exact standIn_singleton (hstate.field ht) _
  · exact standIn_nil

namespace Check

theorem standIn_reference
    (names : List Text) (code : DiagnosticCode) (name : Text) :
    StandIn whole (reference names code (state.property? name)) := by
  unfold reference
  split
  · next t ht =>
      split
      · exact standIn_nil
      · exact standIn_singleton (hstate.field ht) _
  · exact standIn_nil

theorem standIn_rules
    (names : List Text) (field : Text) :
    StandIn whole (rules names field state).1 := by
  unfold rules
  split
  · exact standIn_nil
  · next items hitems =>
      obtain ⟨array, harray, hitems⟩ := Option.bind_eq_some_iff.mp hitems
      refine standIn_flatMap fun p hp => ?_
      obtain ⟨item, hitem, hnext⟩ := List.mem_filterMap.mp hp
      rw [← hnext]
      exact standIn_reference ((hstate.field harray).item hitems hitem) names _ _

theorem standIn_caught
    (names : List Text) :
    StandIn whole (caught names state).1 := by
  unfold caught
  split
  · exact standIn_rules hstate names _
  · exact standIn_nil

theorem standIn_chosen
    (names : List Text) :
    StandIn whole (chosen names state).1 := by
  unfold chosen
  split
  · exact standIn_append.mpr
      ⟨standIn_reference hstate names _ _, standIn_rules hstate names _⟩
  · exact standIn_nil

theorem standIn_templates :
    StandIn whole (templates state).1 ∧ StandIn whole (templates state).2 := by
  unfold templates
  constructor
  · dsimp only
    split
    · exact standIn_propertyFindings hstate _
    · exact standIn_nil
  · dsimp only
    split
    · exact standIn_propertyFindings hstate _
    · exact standIn_nil

theorem standIn_kindFindings
    {inner : List Finding} (hinner : StandIn whole inner) :
    StandIn whole (kindFindings inner state) := by
  unfold kindFindings
  split
  · exact standIn_append.mpr ⟨standIn_propertyFindings hstate _, hinner⟩
  · exact hinner
  · exact standIn_failPathFindings hstate
  · exact standIn_nil

/-- The report on a state stands in it, as far as the reports on its fields and scopes do. -/
theorem standIn_report
    (names : List Text) {inner fields : List Finding} (hinner : StandIn whole inner)
    (hfields : StandIn whole fields) :
    StandIn whole (report names inner fields state).findings := by
  unfold report
  simp only [standIn_append]
  exact ⟨⟨⟨⟨⟨⟨hfields, (standIn_templates hstate).1⟩, standIn_caught hstate names⟩,
    (standIn_templates hstate).2⟩, standIn_kindFindings hstate hinner⟩,
    standIn_chosen hstate names⟩, standIn_reference hstate names _ _⟩

/-- The scopes nested in a state stand in it. -/
theorem hasPart_of_mem_nested
    {kind : Option StateKind} {s : ScopeKind × Tree} (hs : s ∈ nested kind state) :
    whole.HasPart (.tree s.2) := by
  unfold nested at hs
  split at hs
  · split at hs
    · next scope hscope =>
        split at hs
        · rw [List.mem_singleton.mp hs]
          exact hstate.field hscope
        · cases hs
    · cases hs
  · split at hs
    · next scopes hscopes =>
        obtain ⟨array, harray, hscopes⟩ := Option.bind_eq_some_iff.mp hscopes
        obtain ⟨scope, hscope, rfl⟩ := List.mem_map.mp hs
        exact (hstate.field harray).item hscopes (List.mem_filter.mp hscope).1
    · cases hs
  · cases hs

end Check

end State

namespace Check

/-- Declared states stand among the properties that declare them. -/
theorem hasPart_of_mem_declared
    {properties : List (Property Tree)}
    (hproperties : ∀ p ∈ properties, whole.HasPart (.property p))
    {x : Key × Tree} (hx : x ∈ declared properties) :
    whole.HasPart (.key x.1) ∧ whole.HasPart (.tree x.2) := by
  obtain ⟨p, hp, hx⟩ := List.mem_filterMap.mp hx
  split at hx
  · next t ht =>
      split at hx
      · cases hx
        exact ⟨(hproperties p hp).key, (hproperties p hp).value ht⟩
      · cases hx
  · cases hx

theorem scopeFields_standIn
    (schema : Value) (kind : ScopeKind) {tree : Tree} (htree : whole.HasPart (.tree tree)) :
    Delivers (scopeFields schema kind (tree.properties?.getD [])) False (StandIn whole) := by
  refine (Delivers.trivial _).bind fun table _ => Tables.unknownFields_standIn _ fun p hp => ?_
  cases hproperties : tree.properties? with
  | none =>
      rw [hproperties] at hp
      cases hp
  | some properties =>
      rw [hproperties] at hp
      exact htree.property hproperties hp

theorem standIn_missingEnd
    {key : Key} (hkey : whole.HasPart (.key key)) (reports : List StateReport) :
    StandIn whole (missingEnd key reports) := by
  unfold missingEnd
  split
  · exact standIn_nil
  · exact standIn_singleton hkey _

theorem standIn_unreached
    {states : List (Key × Tree)} (hstates : ∀ x ∈ states, whole.HasPart (.key x.1))
    (starts : List Text) (reports : List StateReport) :
    StandIn whole (unreached starts states reports) := by
  intro f hf
  obtain ⟨⟨key, state⟩, hx, hf⟩ := List.mem_filterMap.mp hf
  dsimp only at hf
  split at hf
  · cases hf
  · cases hf
    exact ⟨_, hstates _ hx, rfl⟩

/-- The findings in a scope and in the scopes nested in it stand at its parts. -/
theorem scope_standIn
    (schema : Value) (lenient : Bool) :
    ∀ (levels : Nat) (kind : ScopeKind) (tree : Tree), whole.HasPart (.tree tree) →
      Delivers (scope schema lenient levels kind tree) False (StandIn whole)
  | 0, _, _, _ => Delivers.pure standIn_nil
  | levels + 1, kind, tree, htree => by
      rw [scope]
      refine (scopeFields_standIn schema kind htree).bind fun fields hfields => ?_
      split
      · exact Delivers.pure hfields
      · next states hstates =>
          have hstart := fun names =>
            standIn_reference htree names .invalidStartAt (Text.ofString "StartAt")
          have hpart := htree.property? hstates
          dsimp only
          split
          · exact Delivers.pure (standIn_append.mpr ⟨hfields, hstart _⟩)
          · next properties hproperties =>
              obtain ⟨mapping, hmapping, hproperties⟩ := Option.bind_eq_some_iff.mp hproperties
              have hdeclared := @hasPart_of_mem_declared whole properties fun p hp =>
                (hpart.value hmapping).property hproperties hp
              refine Delivers.bind
                (P := fun reports => ∀ r ∈ reports, StandIn whole r.findings) ?_ ?_
              · refine Delivers.mapM fun x hx => ?_
                have hx := (hdeclared hx).2
                refine Delivers.bind (P := fun inner => ∀ fs ∈ inner, StandIn whole fs) ?_ ?_
                · exact Delivers.mapM fun s hs =>
                    scope_standIn schema lenient levels s.1 s.2 (hasPart_of_mem_nested hx hs)
                · intro inner hinner
                  exact (Tables.stateFindings_standIn schema hx).map fun fields hfields =>
                    standIn_report hx _ (standIn_flatten hinner) hfields
              · intro reports hreports
                refine Delivers.pure ?_
                simp only [standIn_append]
                exact ⟨⟨⟨⟨hfields, hstart _⟩, standIn_flatMap hreports⟩,
                  standIn_missingEnd hpart.key _⟩,
                  standIn_unreached (fun x hx => (hdeclared hx).1) _ _⟩

end Check

end StandIn

/-- The span begins and ends in the text. -/
def Span.LiesIn (s : Span) (t : Text) : Prop :=
  s.offset ≤ t.length ∧ 0 ≤ s.stop ∧ s.stop ≤ t.length

namespace Document

/-- Every diagnostic of a check has the range of a part of the checked tree. -/
theorem exists_part_of_check
    (d : Document) {options : CheckOptions} {kind : ScopeKind} {given : Option Tree}
    {diagnostics : List Diagnostic} (h : d.check options kind given = .ok diagnostics) :
    ∀ x ∈ diagnostics, ∃ t part, given.or d.root = some t ∧ t.HasPart part ∧
      x.range = d.rangeOf part.span := by
  intro x hx
  rw [check] at h
  split at h
  · next t ht =>
      rw [checkScope] at h
      split at h
      · obtain ⟨fs, hfs, h⟩ := exists_of_bind_eq_ok h
        have hstand := (Check.scope_standIn _ _ _ _ t t.hasPart_self).yields fs hfs
        have hreport : Delivers (d.report options.messages fs) False
            (fun xs => ∀ x ∈ xs, ∃ f ∈ fs, x.range = d.rangeOf f.span) :=
          Delivers.mapM fun f hf => (Delivers.trivial _).map fun _ _ => ⟨f, hf, rfl⟩
        obtain ⟨f, hf, hrange⟩ := hreport.yields diagnostics h x hx
        obtain ⟨part, hpart, hspan⟩ := hstand f hf
        exact ⟨t, part, ht, hpart, by rw [hrange, hspan]⟩
      · cases h
        cases hx
  · cases h
    cases hx

/-- The range of a span leads back to the offsets where the span begins and ends. -/
theorem offsetAt_rangeOf
    (d : Document) {s : Span} (hs : s.LiesIn d.text) :
    d.text.offsetAt (d.rangeOf s).start = s.offset ∧
      (d.text.offsetAt (d.rangeOf s).stop : Int) = s.stop := by
  obtain ⟨hoffset, hstop, hlength⟩ := hs
  rw [rangeOf, Text.offsetAt_positionAt, Text.offsetAt_positionAt, Text.clamp, Text.clamp]
  omega

/-- Offsets and positions of a document are inverse to each other up to clamping, and both ways keep
the order.  Every diagnostic of a check has the range of a part of the checked tree, and the range
of a part that lies in the text leads back to the offsets where the part begins and ends. -/
theorem positions_exact
    (d : Document) :
    (∀ o : Int, (d.text.offsetAt (d.text.positionAt o) : Int) = max 0 (min o d.text.length)) ∧
      (∀ a b : Int, 0 ≤ a → a < b → b ≤ d.text.length →
        d.text.positionAt a < d.text.positionAt b) ∧
      (∀ p : Position, d.text.offsetAt p ≤ d.text.length) ∧
      (∀ p q : Position, p ≤ q → d.text.offsetAt p ≤ d.text.offsetAt q) ∧
      (∀ options kind given diagnostics, d.check options kind given = .ok diagnostics →
        ∀ x ∈ diagnostics, ∃ t part, given.or d.root = some t ∧ t.HasPart part ∧
          x.range = d.rangeOf part.span) ∧
      ∀ s : Span, s.LiesIn d.text → d.text.offsetAt (d.rangeOf s).start = s.offset ∧
        (d.text.offsetAt (d.rangeOf s).stop : Int) = s.stop := by
  refine ⟨fun o => ?_, fun a b ha hab hb => Text.positionAt_lt ha hab hb,
    d.text.offsetAt_le_length, fun p q hpq => Text.offsetAt_mono hpq,
    fun options kind given diagnostics h => d.exists_part_of_check h,
    fun s hs => d.offsetAt_rangeOf hs⟩
  rw [Text.offsetAt_positionAt, Text.clamp]
  omega

end Document

/-- A text with all kinds of line ends. -/
def mixedLinesText : Text := "StartAt: X\r\nStates:\r A:\n  Foo: 1\n"

/-- The document of that text. -/
def mixedLinesDocument : Document :=
  match Document.treeOf .yaml mixedLinesText with
  | .ok (some root) => ⟨mixedLinesText, .yaml, root, 0⟩
  | _ => ⟨mixedLinesText, .yaml, none, 0⟩

/-- The offset 11 is that of the line feed after a carriage return, and `Foo` stands at 26. -/
theorem positions_exact_mixedLines :
    let d := mixedLinesDocument
    let options : CheckOptions := ⟨Tables.packaged, Tables.messages, false⟩
    d.text.positionAt 11 = ⟨0, 11⟩ ∧
      (d.text.offsetAt (d.text.positionAt 11) : Int) = max 0 (min (11 : Int) d.text.length) ∧
      d.text.positionAt 11 < d.text.positionAt 12 ∧ d.text.offsetAt ⟨1, 99⟩ ≤ d.text.length ∧
      d.text.offsetAt ⟨1, 99⟩ ≤ d.text.offsetAt ⟨2, -1⟩ ∧
      (∃ diagnostics, d.check options .top none = .ok diagnostics ∧
        diagnostics.map (fun x => (x.range.start, x.range.stop)) =
          [(⟨0, 9⟩, ⟨0, 10⟩), (⟨3, 2⟩, ⟨3, 5⟩), (⟨1, 0⟩, ⟨1, 6⟩), (⟨2, 1⟩, ⟨2, 2⟩)] ∧
        ∀ x ∈ diagnostics, ∃ root part, d.root = some root ∧
          root.HasPart part ∧ x.range = d.rangeOf part.span) ∧
      d.rangeOf ⟨26, 3⟩ = ⟨⟨3, 2⟩, ⟨3, 5⟩⟩ ∧
      d.text.offsetAt (d.rangeOf ⟨26, 3⟩).start = 26 ∧
      (d.text.offsetAt (d.rangeOf ⟨26, 3⟩).stop : Int) = 29 := by
  intro d options
  obtain ⟨hback, hforth, hinside, hmono, hparts, hranges⟩ :=
    Document.positions_exact mixedLinesDocument
  have hcheck : (d.check options .top none).toOption.map
      (List.map fun x => (x.range.start, x.range.stop)) =
        some [(⟨0, 9⟩, ⟨0, 10⟩), (⟨3, 2⟩, ⟨3, 5⟩), (⟨1, 0⟩, ⟨1, 6⟩), (⟨2, 1⟩, ⟨2, 2⟩)] := by
    decide +kernel
  have hlength : d.text.length = 33 := by
    decide +kernel
  refine ⟨by decide +kernel, hback 11, hforth 11 12 (by decide) (by decide) ?_, hinside _,
    hmono _ _ (Or.inl (by decide)), ?_, by decide +kernel, hranges ⟨26, 3⟩ ?_⟩
  · rw [show mixedLinesDocument.text.length = 33 from hlength]
    decide
  · cases hresult : d.check options .top none with
    | error e =>
        rw [hresult] at hcheck
        cases hcheck
    | ok diagnostics =>
        rw [hresult] at hcheck
        exact ⟨diagnostics, rfl, Option.some.inj hcheck,
          hparts options .top none diagnostics hresult⟩
  · rw [Span.LiesIn, show mixedLinesDocument.text.length = 33 from hlength]
    decide

end Workflow
