import Mathlib.Data.List.Flatten
import Workflow.Proofs.ScopeBlocks

/-!
# Lenient checks

A lenient check counts every key among the states of a scope as a name, whether a colon follows it
or not.  The more names a scope has, the fewer references are wrong; references that are right reach
the state they name, so the more states are reached, too.  Both changes only take findings away, and
the others keep their order.
-/

namespace Workflow

namespace Check

/-! ## More names -/

section Names

variable {names more : List Text} (hmore : names ⊆ more)

include hmore

/-- With more names, a reference that was right stays right. -/
theorem reference_sublist
    (code : DiagnosticCode) (p : Option (Property Tree)) :
    (reference more code p).Sublist (reference names code p) := by
  unfold reference
  cases hvalue : p.bind Property.value with
  | none => exact List.Sublist.refl []
  | some t =>
      dsimp only
      split
      · exact List.nil_sublist _
      · next hwrong =>
          rw [if_neg]
          intro hright
          obtain ⟨id, htext, hid⟩ := (Option.any_eq_true _ _).mp hright
          refine hwrong ((Option.any_eq_true _ _).mpr ⟨id, htext, ?_⟩)
          rw [List.contains_iff_mem] at hid ⊢
          exact hmore hid

theorem isEmpty_reference
    {code : DiagnosticCode} {p : Option (Property Tree)}
    (hright : (reference names code p).isEmpty = true) :
    (reference more code p).isEmpty = true := by
  rw [List.isEmpty_iff] at hright ⊢
  have hsublist := reference_sublist hmore code p
  rw [hright] at hsublist
  exact List.sublist_nil.mp hsublist

/-- With more names, fewer rules of a field are wrong. -/
theorem rules_fst_sublist
    (field : Text) (state : Tree) :
    (rules more field state).1.Sublist (rules names field state).1 := by
  unfold rules
  split
  · exact List.Sublist.refl []
  · exact List.Sublist.flatMap_right _ fun p _ => reference_sublist hmore _ _

/-- With more names, the rules of a field reach more states. -/
theorem rules_snd_subset
    (field : Text) (state : Tree) :
    (rules names field state).2 ⊆ (rules more field state).2 := by
  unfold rules
  split
  · exact List.Subset.refl []
  · intro id hid
    obtain ⟨p, hp, hreached⟩ := List.mem_filterMap.mp hid
    split at hreached
    · next hright =>
        refine List.mem_filterMap.mpr ⟨p, hp, ?_⟩
        rw [if_pos (isEmpty_reference hmore hright)]
        exact hreached
    · cases hreached

theorem caught_fst_sublist
    (state : Tree) :
    (caught more state).1.Sublist (caught names state).1 := by
  unfold caught
  split
  · exact rules_fst_sublist hmore _ _
  · exact List.Sublist.refl []

theorem caught_snd_subset
    (state : Tree) :
    (caught names state).2 ⊆ (caught more state).2 := by
  unfold caught
  split
  · exact rules_snd_subset hmore _ _
  · exact List.Subset.refl []

theorem chosen_fst_sublist
    (state : Tree) :
    (chosen more state).1.Sublist (chosen names state).1 := by
  unfold chosen
  split
  · exact (reference_sublist hmore _ _).append (rules_fst_sublist hmore _ _)
  · exact List.Sublist.refl []

theorem chosen_snd_subset
    (state : Tree) :
    (chosen names state).2 ⊆ (chosen more state).2 := by
  unfold chosen
  split
  · intro id hid
    refine List.mem_append.mpr ((List.mem_append.mp hid).imp ?_ fun h =>
      rules_snd_subset hmore _ _ h)
    intro hdefault
    split at hdefault
    · next hright =>
        rw [if_pos (isEmpty_reference hmore hright)]
        exact hdefault
    · cases hdefault
  · exact List.Subset.refl []

theorem stateOpening_sublist
    (schema : Value) (state : Tree) :
    (stateOpening schema more state).Sublist (stateOpening schema names state) := by
  unfold stateOpening
  exact (((caught_fst_sublist hmore state).append_left _).append_right _).append_right _

theorem stateClosing_sublist
    (state : Tree) :
    (stateClosing more state).Sublist (stateClosing names state) :=
  (chosen_fst_sublist hmore state).append (reference_sublist hmore _ _)

/-- With more names, a state reaches more of them. -/
theorem reached_subset
    (inner fields inner' fields' : List Finding) (state : Tree) :
    (report names inner fields state).reached ⊆ (report more inner' fields' state).reached := by
  intro id hid
  simp only [report, List.mem_append] at hid ⊢
  exact hid.imp (Or.imp_right fun h => caught_snd_subset hmore state h)
    fun h => chosen_snd_subset hmore state h

end Names

/-- The findings at the states that nothing reaches, one for each of these states. -/
theorem unreached_eq_map
    (start : List Text) (declared : List (Key × Tree)) (reports : List StateReport) :
    unreached start declared reports =
      (declared.filter fun field =>
        !(start ++ reports.flatMap StateReport.reached).contains field.1.name).map
          fun field => ⟨field.1.span, .unreachableState⟩ := by
  rw [unreached, ← List.filterMap_eq_map, List.filterMap_filter]
  refine List.filterMap_congr fun field _ => ?_
  dsimp only
  cases (start ++ reports.flatMap StateReport.reached).contains field.1.name <;> rfl

/-- The more is reached, the fewer states are not. -/
theorem unreached_sublist
    (start : List Text) (declared : List (Key × Tree)) {reports reports' : List StateReport}
    (hreached : reports.flatMap StateReport.reached ⊆ reports'.flatMap StateReport.reached) :
    (unreached start declared reports').Sublist (unreached start declared reports) := by
  rw [unreached_eq_map, unreached_eq_map]
  refine (List.monotone_filter_right declared fun field hfield => ?_).map _
  rw [Bool.not_eq_true', ← Bool.not_eq_true, List.contains_iff_mem] at hfield ⊢
  refine fun hmem => hfield ?_
  exact List.mem_append.mpr ((List.mem_append.mp hmem).imp_right fun h => hreached h)

/-! ## The names in a lenient check -/

theorem declaredNames_subset
    (states : Property Tree) :
    declaredNames false states ⊆ declaredNames true states := by
  unfold declaredNames
  split
  · intro id hid
    obtain ⟨p, hp, hname⟩ := List.mem_filterMap.mp hid
    split at hname
    · exact List.mem_filterMap.mpr ⟨p, hp, hname⟩
    · cases hname
  · exact List.Subset.refl []

/-- A lenient check knows every name that a strict one knows. -/
theorem namesIn_subset
    (scope : Tree) :
    namesIn false scope ⊆ namesIn true scope := by
  unfold namesIn
  cases scope.property? statesKey with
  | none => exact List.Subset.refl []
  | some states => exact declaredNames_subset states

theorem opening_sublist
    (schema : Value) (kind : ScopeKind) (scope : Tree) :
    (opening schema true kind scope).Sublist (opening schema false kind scope) := by
  unfold opening
  refine List.Sublist.append_left ?_ _
  split
  · exact reference_sublist (namesIn_subset scope) _ _
  · exact List.Sublist.refl []

/-- A lenient check judges a scope as a strict one does, but misses no edge to a state whose key is
not followed by a colon. -/
theorem closing_sublist
    (scope : Tree) :
    (closing true scope).Sublist (closing false scope) := by
  unfold closing
  split
  · next states properties hstates hproperties =>
      refine List.Sublist.append ?_ (unreached_sublist _ _ ?_)
      · -- whether a state ends its scope does not depend on the names
        simp only [missingEnd, List.any_map]
        exact List.Sublist.refl _
      · rw [List.flatMap_map, List.flatMap_map]
        intro id hid
        obtain ⟨field, hfield, hreached⟩ := List.mem_flatMap.mp hid
        exact List.mem_flatMap.mpr ⟨field, hfield,
          reached_subset (namesIn_subset scope) _ _ _ _ field.2 hreached⟩
  · exact List.Sublist.refl []

/-- What a lenient check finds is part of what a strict check finds, in the same order. -/
theorem trace_sublist
    (schema : Value) :
    ∀ (levels : Nat) (kind : ScopeKind) (tree : Tree),
      ((trace schema true levels kind tree).map Prod.snd).Sublist
        ((trace schema false levels kind tree).map Prod.snd)
  | 0, _, _ => List.Sublist.refl []
  | levels + 1, kind, tree => by
      rw [map_snd_trace, map_snd_trace]
      refine ((opening_sublist schema kind tree).append ?_).append (closing_sublist tree)
      refine List.Sublist.flatMap_right _ fun field _ => ?_
      have hnames := namesIn_subset tree
      refine ((stateOpening_sublist hnames schema field.2).append ?_).append
        (stateClosing_sublist hnames field.2)
      exact List.Sublist.flatMap_right _ fun inner _ => trace_sublist schema levels inner.1 inner.2

end Check

namespace Document

/-- The check of a document answers with the findings in the checked scope. -/
theorem check_eq_map
    (d : Document) {messages : Value} (hmessages : messages.isObject = true) (lenient : Bool)
    (kind : ScopeKind) {given : Option Tree} {t : Tree} (hgiven : given.or d.root = some t) :
    d.check ⟨Tables.packaged, messages, lenient⟩ kind given =
      .ok (if t.isObject then
        ((Check.trace Tables.packaged lenient allLevels kind t).map Prod.snd).map
          (Finding.diagnostic d messages)
      else []) := by
  rw [check, hgiven]
  dsimp only
  rw [d.checkScope_eq_trace Tables.packaged_sound hmessages, trace]
  split
  · rw [List.map_map, List.map_map]
    rfl
  · rfl

/-- The strict and the lenient check of a document both answer, and the diagnostics of the lenient
check are some of those of the strict check, in the same order. -/
theorem check_lenient
    (d : Document) {messages : Value} (hmessages : messages.isObject = true) (kind : ScopeKind)
    (given : Option Tree) :
    ∃ strict lenient,
      d.check ⟨Tables.packaged, messages, false⟩ kind given = .ok strict ∧
        d.check ⟨Tables.packaged, messages, true⟩ kind given = .ok lenient ∧
        lenient.Sublist strict := by
  cases hgiven : given.or d.root with
  | none => exact ⟨[], [], by rw [check, hgiven], by rw [check, hgiven], List.Sublist.refl []⟩
  | some t =>
      refine ⟨_, _, d.check_eq_map hmessages false kind hgiven,
        d.check_eq_map hmessages true kind hgiven, ?_⟩
      split
      · exact (Check.trace_sublist Tables.packaged allLevels kind t).map _
      · exact List.Sublist.refl []

end Document

/-- A text in which no colon stands between the last key and its value, which is an alias. -/
def aliasedStateText : Text :=
  "StartAt: A
States:
 A:
  Type: Choice
  Default: C
 B: &last
  Type: Succeed
 C: *last
"

/-- The document of that text. -/
def aliasedStateDocument : Document :=
  match Document.treeOf .yaml aliasedStateText with
  | .ok (some root) => ⟨aliasedStateText, .yaml, root, 0⟩
  | _ => ⟨aliasedStateText, .yaml, none, 0⟩

/-- A lenient check counts the last state, so that the reference to it is right and reaches it. -/
theorem check_lenient_aliasedStateDocument :
    ∃ strict lenient,
      aliasedStateDocument.check ⟨Tables.packaged, Tables.messages, false⟩ .top none =
          .ok strict ∧
        aliasedStateDocument.check ⟨Tables.packaged, Tables.messages, true⟩ .top none =
          .ok lenient ∧
        strict.map Diagnostic.code =
          [some .invalidDefault, some .unreachableState, some .unreachableState] ∧
        lenient.map Diagnostic.code = [some .unreachableState] ∧ lenient.Sublist strict := by
  have hcodes : ∀ lenient, (aliasedStateDocument.check ⟨Tables.packaged, Tables.messages, lenient⟩
      .top none).toOption.map (List.map Diagnostic.code) =
        some (if lenient then [some .unreachableState]
          else [some .invalidDefault, some .unreachableState, some .unreachableState]) := by
    decide +kernel
  obtain ⟨strict, lenient, hstrict, hlenient, hsublist⟩ :=
    @Document.check_lenient aliasedStateDocument Tables.messages rfl .top none
  have hfirst := hcodes false
  have hsecond := hcodes true
  rw [hstrict] at hfirst
  rw [hlenient] at hsecond
  exact ⟨strict, lenient, hstrict, hlenient, Option.some.inj hfirst, Option.some.inj hsecond,
    hsublist⟩

end Workflow
