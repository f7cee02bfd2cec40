import Workflow.Proofs.RuleFindings
import Workflow.Proofs.ScopeBlocks

/-!
# Comparison operators that exclude each other

A rule of a Choice state has one comparison operator.  The check of fields goes from rule to rule,
and where it finds several operators it reports all of them and goes no further.  The tables send
it to exactly the rules that are reached from the state, so the findings about exclusive operators
are those that these rules call for, once for each rule.
-/

namespace Workflow

/-- The findings about exclusive operators among some findings. -/
def exclusiveIn (fs : List Finding) : List Finding :=
  fs.filter fun f => f.code == .exclusiveProperties

theorem exclusiveIn_append
    (fs gs : List Finding) :
    exclusiveIn (fs ++ gs) = exclusiveIn fs ++ exclusiveIn gs := by
  simp [exclusiveIn]

/-- Findings that were collected element by element. -/
theorem exclusiveIn_flatMap
    {α : Type} (l : List α) (found : α → List Finding) :
    exclusiveIn (l.flatMap found) = l.flatMap fun a => exclusiveIn (found a) :=
  List.filter_flatMap

namespace Focus

/-- A rule is reported for its own operators, whatever table it is checked against. -/
theorem exclusiveIn_ruleFindings
    (own : Fields) (rule : Focus) :
    exclusiveIn (rule.ruleFindings own) = rule.conflict := by
  simp [ruleFindings, exclusiveIn]

theorem exclusiveIn_findingsFrom
    (own : Fields) (rule : Focus) :
    exclusiveIn (rule.findingsFrom own) = rule.rulesFrom.flatMap conflict := by
  rw [findingsFrom, rulesFrom_eq, List.tail_cons, List.flatMap_cons, exclusiveIn_append,
    exclusiveIn_flatMap]
  simp only [exclusiveIn_ruleFindings]

/-- A property of a Choice state is reported for the rules that it holds. -/
theorem exclusiveIn_choiceFindings
    (p : Focus) :
    exclusiveIn p.choiceFindings =
      ((rulesHeld ["Choices"] [] p).flatMap rulesFrom).flatMap conflict := by
  unfold choiceFindings
  split
  · rw [findingsHeld, exclusiveIn_append, exclusiveIn_flatMap, exclusiveIn, filter_code_strange,
      List.flatMap_assoc]
    simp only [exclusiveIn_findingsFrom]
    rfl
  · next hname =>
      rw [Bool.not_eq_true] at hname
      rw [rulesHeld_of_unnamed (Part.unnamed_of_subset hname (by decide +kernel))
        (Part.unnamed_of_subset hname (by decide +kernel))]
      exact filter_code_strange _ [p]

end Focus

/-- The findings about exclusive operators in a Choice state are those at the rules that are reached
from it. -/
theorem Tables.stateFindings_reports
    {state : Tree} (hkind : Check.kindOf state = some .choice) (fs : List Finding)
    (hfs : stateFindings packaged (some state) = .ok fs) :
    exclusiveIn fs = (Focus.root state).rulesOf.flatMap Focus.conflict := by
  rw [stateFindings_choice hkind, Except.ok.injEq] at hfs
  rw [← hfs, exclusiveIn_flatMap, Focus.rulesOf, Focus.rulesUnder, List.flatMap_assoc,
    List.flatMap_assoc]
  refine List.flatMap_congr fun p _ => ?_
  rw [Focus.exclusiveIn_choiceFindings, List.flatMap_assoc]

/-- The diagnostics about exclusive operators in a Choice state are those at the operators of the
rules with several operators, for each rule that is reached from the state. -/
theorem Document.exclusive_operators_exact
    (d : Document) {messages : Value} (hmessages : messages.isObject = true) {state : Tree}
    (hkind : Check.kindOf state = some .choice) :
    ∃ (diagnostics : List Diagnostic) (rules : List Focus),
      Tables.stateFindings Tables.packaged (some state) >>= d.report messages = .ok diagnostics ∧
        rules.Nodup ∧ (∀ rule, rule ∈ rules ↔ Focus.ReachedRule (.root state) rule) ∧
        diagnostics.filter (fun x => x.code == some .exclusiveProperties) =
          (rules.flatMap Focus.conflict).map (Finding.diagnostic d messages) := by
  have hobject : state.isObject = true := by
    cases hproperties : state.properties? with
    | none => simp [Check.kindOf, Check.textIn, Tree.property?, hproperties] at hkind
    | some properties => rw [Tree.isObject, hproperties, Option.isSome_some]
  obtain ⟨fs, hfs⟩ := (Tables.stateFindings_delivers Tables.packaged state).succeeds
    ⟨Tables.packaged_sound, hobject⟩
  refine ⟨fs.map (Finding.diagnostic d messages), (Focus.root state).rulesOf, ?_,
    Focus.rulesOf_nodup _, fun rule => Focus.mem_rulesOf_iff, ?_⟩
  · rw [hfs]
    exact d.report_eq_map hmessages fs
  · rw [← Tables.stateFindings_reports hkind fs hfs, exclusiveIn, List.filter_map]
    rfl

/-- A Choice state with rules that have several operators, inside of each other. -/
def exclusiveText : Text :=
  "Type: Choice
Choices:
- And:
  - IsNull: 1
    Not:
      Or: []
      And: []
  - Not:
      IsNull: 1
      IsNull: 2
"

/-- The document of that text. -/
def exclusiveDocument : Document :=
  match Document.treeOf .yaml exclusiveText with
  | .ok (some root) => ⟨exclusiveText, .yaml, root, 0⟩
  | _ => ⟨exclusiveText, .yaml, none, 0⟩

/-- The two operators in the first item of `And` are reported and lead no further; in the second
item one operator leads to a rule that repeats another one. -/
theorem exclusive_operators_exact_exclusiveDocument :
    ∃ state, exclusiveDocument.root = some state ∧ Check.kindOf state = some .choice ∧
      ∃ (diagnostics : List Diagnostic) (rules : List Focus),
        Tables.stateFindings Tables.packaged (some state) >>=
            exclusiveDocument.report Tables.messages = .ok diagnostics ∧
          rules.Nodup ∧ (∀ rule, rule ∈ rules ↔ Focus.ReachedRule (.root state) rule) ∧
          diagnostics.filter (fun x => x.code == some .exclusiveProperties) =
            (rules.flatMap Focus.conflict).map
              (Finding.diagnostic exclusiveDocument Tables.messages) ∧
          diagnostics.map (fun x => (x.code, x.range.start)) =
            [(some .exclusiveProperties, ⟨3, 4⟩), (some .exclusiveProperties, ⟨4, 4⟩),
              (some .exclusiveProperties, ⟨8, 6⟩), (some .exclusiveProperties, ⟨9, 6⟩)] := by
  have hfacts : exclusiveDocument.root.any (fun state =>
      decide (Check.kindOf state = some .choice) &&
        decide ((Tables.stateFindings Tables.packaged (some state) >>=
          exclusiveDocument.report Tables.messages).toOption.map
            (List.map fun x => (x.code, x.range.start)) =
          some [(some .exclusiveProperties, ⟨3, 4⟩), (some .exclusiveProperties, ⟨4, 4⟩),
            (some .exclusiveProperties, ⟨8, 6⟩), (some .exclusiveProperties, ⟨9, 6⟩)])) = true := by
    decide +kernel
  obtain ⟨state, hstate, hfacts⟩ := (Option.any_eq_true _ _).mp hfacts
  rw [Bool.and_eq_true, decide_eq_true_iff, decide_eq_true_iff] at hfacts
  obtain ⟨hkind, hplaces⟩ := hfacts
  obtain ⟨diagnostics, rules, hcheck, hnodup, hrules, hexclusive⟩ :=
    @Document.exclusive_operators_exact exclusiveDocument Tables.messages rfl state hkind
  rw [hcheck] at hplaces
  exact ⟨state, hstate, hkind, diagnostics, rules, hcheck, hnodup, hrules, hexclusive,
    Option.some.inj hplaces⟩

end Workflow
