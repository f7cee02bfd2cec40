import Workflow.Proofs.CheckedScopes
import Workflow.Proofs.VisitedScopes

/-!
# A clean check closes the graph

When the check of a document finds no wrong reference, no edge of the value leaves the scope where
it starts.  The check goes through the tree and the visit of states through the value; both enter
the same scopes, down to the same number of levels, and in each of these scopes the check has looked
at every successor of every state.
-/

namespace Workflow

namespace State

/-- Only a state of some kind owns scopes, and only an object is of some kind. -/
theorem isObject_of_mem_nestedScopes
    {state inner : Value} {here p : Path} (h : (inner, p) ∈ nestedScopes state here) :
    state.isObject = true := by
  cases state with
  | obj fields => rfl
  | _ => cases h

end State

namespace Check

/-- The findings in the scopes nested in a state are among the findings in the report on it. -/
theorem subset_report
    {names : List Text} {inner fields : List Finding} {state : Tree} {s : ScopeKind × Tree}
    (hs : s ∈ nested (kindOf state) state) :
    inner ⊆ (report names inner fields state).findings := by
  have hkind : inner ⊆ kindFindings inner state := by
    unfold kindFindings
    cases hkind : kindOf state with
    | none =>
        rw [hkind] at hs
        cases hs
    | some kind =>
        rw [hkind] at hs
        cases kind with
        | map => exact List.subset_append_right _ _
        | parallel => exact List.Subset.refl _
        | _ => cases hs
  intro f hf
  have hmem := hkind hf
  simp only [report, List.mem_append]
  tauto

/-- Every scope that a run of the check enters is checked itself, and its findings are among those
of the run. -/
theorem exists_run_of_mem_entered
    {schema : Value} {lenient : Bool} :
    ∀ (levels : Nat) (kind : ScopeKind) (tree : Tree) (fs : List Finding),
      scope schema lenient levels kind tree = .ok fs → ∀ s ∈ entered levels tree,
        ∃ levels' kind' gs, scope schema lenient (levels' + 1) kind' s = .ok gs ∧ gs ⊆ fs
  | 0, _, _, _, _, s, hs => by
      rw [entered] at hs
      cases hs
  | levels + 1, kind, tree, fs, h, s, hs => by
      obtain ⟨field, hfield, inner, hinner, hs⟩ | rfl := mem_entered_iff.mp hs
      · obtain ⟨properties, hmapping, hdeclared⟩ := mem_declaredIn_iff.mp hfield
        obtain ⟨states, hstates, hproperties⟩ := mapping?_eq_some_iff.mp hmapping
        obtain ⟨own, reports, -, hreports, rfl⟩ := scope_of_some h hstates hproperties
        obtain ⟨r, hr, found, fields, hfound, -, rfl⟩ := exists_of_forall₂ hreports hdeclared
        obtain ⟨gs, hgs, hrun⟩ := exists_of_forall₂ (forall₂_of_mapM hfound) hinner
        obtain ⟨levels', kind', hs', hscope, hsub⟩ :=
          exists_run_of_mem_entered levels inner.1 inner.2 gs hrun s hs
        refine ⟨levels', kind', hs', hscope, fun f hf => ?_⟩
        have hflat : f ∈ found.flatten := List.mem_flatten.mpr ⟨gs, hgs, hsub hf⟩
        have hreport : f ∈
            (report (declaredNames lenient states) found.flatten fields field.2).findings :=
          subset_report hinner hflat
        have hreports : f ∈ reports.flatMap StateReport.findings :=
          List.mem_flatMap.mpr ⟨_, hr, hreport⟩
        simp only [List.mem_append]
        tauto
      · exact ⟨levels, kind, fs, h, List.Subset.refl fs⟩

/-- The scopes nested in the value of a state are the values of those nested in its tree. -/
theorem exists_of_mem_nestedScopes
    {state : Tree} (hstate : state.DistinctKeys) {inner : Value} {here p : Path}
    (h : (inner, p) ∈ State.nestedScopes state.toValue here) :
    ∃ s ∈ nested (kindOf state) state, s.2.toValue = inner := by
  rw [State.mem_nestedScopes_iff, ← kindOf_eq hstate] at h
  obtain ⟨hobject, ⟨hkind, rfl, -⟩ | ⟨hkind, scopes, i, hscopes, hi, -⟩⟩ := h
  · rw [State.processor_eq_get, hstate.get_toValue] at hobject ⊢
    cases hfound : (state.property? (State.processorField state.toValue)).bind Property.value with
    | none =>
        rw [hfound] at hobject
        cases hobject
    | some scope =>
        rw [hfound, Option.map_some, Option.getD_some, Tree.isObject_toValue] at hobject
        refine ⟨(.map, scope), ?_, rfl⟩
        rw [hkind, nested, hfound]
        simp [hobject]
  · rw [State.branches?, hstate.items?_get?_toValue] at hscopes
    obtain ⟨items, hitems, rfl⟩ := Option.map_eq_some_iff.mp hscopes
    obtain ⟨scope, hscope, rfl⟩ := List.mem_map.mp (List.mem_of_getElem? hi)
    rw [Tree.isObject_toValue] at hobject
    refine ⟨(.parallel, scope), ?_, rfl⟩
    rw [hkind, nested, hitems]
    exact List.mem_map_of_mem (List.mem_filter.mpr ⟨hscope, hobject⟩)

/-- Every state that a visit of the value reports stands in a scope that the check enters. -/
theorem exists_entered_of_mem_preorder
    {v : Visit} :
    ∀ (levels : Nat) (tree : Tree) (path : Path), tree.DistinctKeys →
      v ∈ preorder levels tree.toValue path →
      ∃ s ∈ entered levels tree, s.DistinctKeys ∧ v.parent = s.toValue ∧
        ∃ properties, mapping? s = some properties ∧ ∃ p ∈ properties, v.state = p.toValue
  | 0, _, _, _, h => by
      rw [preorder] at h
      cases h
  | levels + 1, tree, path, htree, h => by
      rw [preorder, declared?_toValue htree] at h
      cases hfound : mapping? tree with
      | none =>
          rw [hfound] at h
          cases h
      | some properties =>
          rw [hfound] at h
          simp only [Option.map_some, List.mem_flatMap, List.mem_cons, Prod.exists] at h
          obtain ⟨id, state, hmem, rfl | ⟨inner, q, hnested, hv⟩⟩ := h
          · obtain ⟨p, hp, heq⟩ := List.mem_map.mp hmem
            cases heq
            have hself : tree ∈ entered (levels + 1) tree := mem_entered_iff.mpr (Or.inr rfl)
            exact ⟨tree, hself, htree, rfl, properties, hfound, p, hp, rfl⟩
          · obtain ⟨p, hp, heq⟩ := List.mem_map.mp hmem
            cases heq
            obtain ⟨t, hvalue, hobject⟩ :=
              exists_tree_of_isObject (State.isObject_of_mem_nestedScopes hnested)
            have hdeclared : (p.key, t) ∈ declaredIn tree := mem_declaredIn_iff.mpr
              ⟨properties, hfound, mem_declared_iff.mpr ⟨p, hp, rfl, hvalue, hobject⟩⟩
            have ht := distinctKeys_of_declaredIn htree hdeclared
            rw [Property.toValue, hvalue, Option.map_some, Option.getD_some] at hnested
            -- both go one level down here, so the induction keeps them at the same level
            obtain ⟨s, hs, rfl⟩ := exists_of_mem_nestedScopes ht hnested
            obtain ⟨s', hs', hrest⟩ := exists_entered_of_mem_preorder levels s.2 q
              (distinctKeys_of_nested ht hs) hv
            exact ⟨s', mem_entered_iff.mpr (Or.inl ⟨_, hdeclared, s, hs, hs'⟩), hrest⟩

/-- The names that a mapping declares are names of the states in the value of the scope. -/
theorem mem_names_of_declaredNames
    {scope : Tree} (hscope : scope.DistinctKeys) {states : Property Tree}
    {properties : List (Property Tree)} (hstates : scope.property? statesKey = some states)
    (hproperties : states.value.bind Tree.properties? = some properties)
    {lenient : Bool} {id : Text} (hid : id ∈ declaredNames lenient states) :
    id ∈ Fields.names ((State.declared? scope.toValue).getD []) := by
  rw [declaredNames, hproperties] at hid
  obtain ⟨p, hp, hname⟩ := List.mem_filterMap.mp hid
  split at hname
  · cases hname
    rw [declared?_toValue hscope, mapping?_eq_some_iff.mpr ⟨states, hstates, hproperties⟩,
      Option.map_some, Option.getD_some, Fields.names, List.map_map]
    exact List.mem_map.mpr ⟨p, hp, rfl⟩
  · cases hname

/-- The start of a scope with a mapping of states, when it has a value, is one of these states. -/
def StartsInside (scope : Tree) : Prop :=
  ∀ states, State.declared? scope.toValue = some states →
    ∀ t, (scope.property? "StartAt").bind Property.value = some t →
      ∃ id, t.text? = some id ∧ id ∈ Fields.names states

section Clean

variable {schema : Value} {lenient : Bool} {levels : Nat} {kind : ScopeKind} {tree : Tree}
variable {fs : List Finding}
variable (htree : tree.DistinctKeys) (h : scope schema lenient (levels + 1) kind tree = .ok fs)
variable (hright : ReferencesRight fs)

include htree h hright

/-- Where no reference is wrong, a scope starts inside. -/
theorem startsInside_of_right :
    StartsInside tree := by
  intro fields hfields t ht
  rw [declared?_toValue htree] at hfields
  obtain ⟨properties, hfound, hmap⟩ := Option.map_eq_some_iff.mp hfields
  obtain ⟨states, hstates, hproperties⟩ := mapping?_eq_some_iff.mp hfound
  obtain ⟨own, reports, -, -, rfl⟩ := scope_of_some h hstates hproperties
  simp only [referencesRight_append] at hright
  have hstart := reference_eq_nil_of_right rfl hright.1.1.1.2
  obtain ⟨id, hid, htext⟩ := reference_eq_nil_iff.mp hstart t ht
  refine ⟨id, htext, ?_⟩
  have hname := mem_names_of_declaredNames htree hstates hproperties hid
  rw [declared?_toValue htree, hfound, Option.map_some, Option.getD_some, hmap] at hname
  exact hname

/-- Where no reference is wrong, every successor of a declared state is declared beside it. -/
theorem mem_names_of_right
    {properties : List (Property Tree)} (hfound : mapping? tree = some properties)
    {p : Property Tree} (hp : p ∈ properties) {id : Text} (hid : id ∈ State.nextIds p.toValue) :
    id ∈ Fields.names ((State.declared? tree.toValue).getD []) := by
  obtain ⟨t, hvalue, ht⟩ := exists_tree_of_isObject (State.isObject_of_mem_nextIds hid)
  obtain ⟨states, hstates, hproperties⟩ := mapping?_eq_some_iff.mp hfound
  obtain ⟨own, reports, -, hreports, rfl⟩ := scope_of_some h hstates hproperties
  have hdeclared : (p.key, t) ∈ declared properties :=
    mem_declared_iff.mpr ⟨p, hp, rfl, hvalue, ht⟩
  obtain ⟨r, hr, inner, fields, -, -, rfl⟩ := exists_of_forall₂ hreports hdeclared
  simp only [referencesRight_append] at hright
  have hreport : ReferencesRight
      (report (declaredNames lenient states) inner.flatten fields t).findings := fun f hf =>
    hright.1.1.2 f (List.mem_flatMap.mpr ⟨_, hr, hf⟩)
  have hdistinct := distinctKeys_of_declaredIn htree
    (mem_declaredIn_iff.mpr ⟨properties, hfound, hdeclared⟩)
  rw [Property.toValue, hvalue] at hid
  exact mem_names_of_declaredNames htree hstates hproperties
    (mem_names_of_mem_nextIds hdistinct hreport hid)

end Clean

end Check

/-- The check of a document with the packaged tables answers, and where it finds no wrong reference,
every successor of every state in the value is declared beside this state, and every scope starts
with one of its own states. -/
theorem Document.check_closed
    {d : Document} {given : Option Tree} {t : Tree} (hgiven : given.or d.root = some t)
    (ht : t.DistinctKeys) (lenient : Bool) (kind : ScopeKind) :
    ∃ ds, d.check ⟨Tables.packaged, Tables.messages, lenient⟩ kind given = .ok ds ∧
      ((∀ x ∈ ds, x.code.any DiagnosticCode.isReference = false) →
        (∀ v ∈ allStates t.toValue, ∀ id ∈ State.nextIds v.state,
          id ∈ Fields.names ((State.declared? v.parent).getD [])) ∧
        ∀ s ∈ Check.entered allLevels t, Check.StartsInside s) := by
  have hdelivers := d.check_delivers ⟨Tables.packaged, Tables.messages, lenient⟩ kind given
  obtain ⟨ds, hds⟩ := hdelivers.succeeds ⟨Tables.packaged_sound, rfl⟩
  refine ⟨ds, hds, fun hclean => ?_⟩
  rcases Document.exists_findings_of_check hgiven hds with ⟨hobject, -⟩ | ⟨fs, hfs, hreport⟩
  · refine ⟨fun v hv => ?_, fun s hs => ?_⟩
    · rw [allStates, preorder_of_not_object _ _ (by rw [Tree.isObject_toValue, hobject])] at hv
      cases hv
    · rw [allLevels, Check.entered_of_not_object hobject, List.mem_singleton] at hs
      intro states hstates
      rw [hs, Check.declared?_toValue ht, Check.mapping?_of_not_object hobject] at hstates
      cases hstates
  · have hright : ReferencesRight fs := by
      intro f hf
      obtain ⟨x, hx, hfound⟩ := exists_of_forall₂ (forall₂_of_mapM hreport) hf
      have hcode := hclean x hx
      rw [(Finding.code_of_report hfound).1] at hcode
      exact hcode
    have hrun := Check.exists_run_of_mem_entered allLevels kind t fs hfs
    refine ⟨fun v hv id hid => ?_, fun s hs => ?_⟩
    · obtain ⟨s, hs, hdistinct, hparent, properties, hfound, p, hp, hstate⟩ :=
        Check.exists_entered_of_mem_preorder allLevels t [] ht hv
      obtain ⟨levels, kind', gs, hscope, hsub⟩ := hrun s hs
      rw [hstate] at hid
      rw [hparent]
      exact Check.mem_names_of_right hdistinct hscope (fun f hf => hright f (hsub hf)) hfound hp hid
    · obtain ⟨levels, kind', gs, hscope, hsub⟩ := hrun s hs
      exact Check.startsInside_of_right (Check.distinctKeys_of_entered allLevels t ht s hs) hscope
        fun f hf => hright f (hsub hf)

/-- A text in which a Choice state and a Parallel state lead to each other. -/
def roundTripText : Text :=
  "StartAt: A
States:
 A:
  Type: Choice
  Default: B
 B:
  Type: Parallel
  Next: A
  Branches:
  - StartAt: C
    States:
     C:
      End: true
"

/-- The document of that text. -/
def roundTripDocument : Document :=
  match Document.treeOf .yaml roundTripText with
  | .ok (some root) => ⟨roundTripText, .yaml, root, 0⟩
  | _ => ⟨roundTripText, .yaml, none, 0⟩

/-- No reference is wrong in that document, so its graph is closed. -/
theorem check_closed_roundTripDocument :
    ∃ t, roundTripDocument.root = some t ∧
      (∀ v ∈ allStates t.toValue, ∀ id ∈ State.nextIds v.state,
        id ∈ Fields.names ((State.declared? v.parent).getD [])) ∧
      ∀ s ∈ Check.entered allLevels t, Check.StartsInside s := by
  have hfacts : (roundTripDocument.root.any fun t => decide t.DistinctKeys &&
      (roundTripDocument.check ⟨Tables.packaged, Tables.messages, false⟩ .top none).toOption.any
        fun ds => ds.all fun x => !x.code.any DiagnosticCode.isReference) = true := by
    decide +kernel
  obtain ⟨t, ht, hfacts⟩ := (Option.any_eq_true _ _).mp hfacts
  rw [Bool.and_eq_true, decide_eq_true_iff] at hfacts
  obtain ⟨ds, hds, hclosed⟩ :=
    @Document.check_closed roundTripDocument none t ht hfacts.1 false .top
  refine ⟨t, ht, hclosed fun x hx => ?_⟩
  have hclean := hfacts.2
  rw [hds, Except.toOption, Option.any_some, List.all_eq_true] at hclean
  simpa using hclean x hx

end Workflow
