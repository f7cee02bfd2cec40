import Mathlib.Data.List.Induction
import Workflow.Proofs.VisitOrder

/-!
# Where a visit stops

A visitor answers each call from what it remembers of the earlier ones.  Two answers end a visit, an
explicit stop and the truth value false, and they end it everywhere at once: the calls of a visit
are the preorder of the workflow up to the first call that is so answered, this call included.  The
other answers cut nothing.
-/

namespace Workflow

section Prefixes

variable {σ α : Type} {step : σ → α → σ × Bool}

/-- The memory that some steps leave. -/
def memoryAfter (step : σ → α → σ × Bool) (memory : σ) (xs : List α) : σ :=
  xs.foldl (fun memory x => (step memory x).1) memory

@[simp] theorem memoryAfter_concat
    (memory : σ) (xs : List α) (x : α) :
    memoryAfter step memory (xs ++ [x]) = (step (memoryAfter step memory xs) x).1 := by
  rw [memoryAfter, List.foldl_append]
  rfl

/-- All steps along a list say to go on. -/
def GoesOnAlong (step : σ → α → σ × Bool) (memory : σ) (xs : List α) : Prop :=
  ∀ past x rest, xs = past ++ x :: rest → (step (memoryAfter step memory past) x).2 = true

/-- A list along which all steps say to go on is run to its end. -/
theorem runWhile_of_goesOnAlong
    {xs : List α} :
    ∀ {memory : σ}, GoesOnAlong step memory xs →
      runWhile step memory xs = (memoryAfter step memory xs, true) := by
  induction xs with
  | nil =>
      intro memory _
      rfl
  | cons x xs ih =>
      intro memory h
      have hfirst : (step memory x).2 = true := h [] x xs rfl
      have hrest : GoesOnAlong step (step memory x).1 xs := by
        intro past y rest hxs
        exact h (x :: past) y rest (by rw [hxs, List.cons_append])
      rw [runWhile]
      rcases hstep : step memory x with ⟨next, goesOn⟩
      rw [hstep] at hfirst hrest
      cases hfirst
      rw [memoryAfter, List.foldl_cons, hstep]
      exact ih hrest

/-- A run ends with the first step that says to stop, whatever comes behind it. -/
theorem runWhile_of_stops
    {memory : σ} {past : List α} {x : α} (hpast : GoesOnAlong step memory past)
    (hstop : (step (memoryAfter step memory past) x).2 = false) (rest : List α) :
    runWhile step memory (past ++ x :: rest) =
      (memoryAfter step memory (past ++ [x]), false) := by
  rw [runWhile_append, runWhile_of_goesOnAlong hpast, if_pos rfl, runWhile, memoryAfter_concat]
  rcases hstep : step (memoryAfter step memory past) x with ⟨next, goesOn⟩
  rw [hstep] at hstop
  cases hstop
  rfl

end Prefixes

/-- The answers that end a visit. -/
def VisitAnswer.Ends (a : VisitAnswer) : Prop := a = .stop ∨ a = .truth false

theorem VisitAnswer.stops_iff
    {a : VisitAnswer} :
    a.stops = true ↔ a.Ends := by
  cases a with
  | truth b => cases b <;> simp [stops, Ends]
  | _ => simp [stops, Ends]

/-- The visitor that gives some answers, each from what it remembers, and remembers the call. -/
def Visitor.ofAnswers {σ : Type} (reply : σ → Visit → σ × VisitAnswer) : Visitor σ :=
  fun memory call => ((reply memory call).1, !(reply memory call).2.stops)

section Answers

variable {σ : Type} (reply : σ → Visit → σ × VisitAnswer) (memory : σ)

/-- The answer to a call that is made after some others. -/
def answerAfter (past : List Visit) (call : Visit) : VisitAnswer :=
  (reply (memoryAfter (Visitor.ofAnswers reply) memory past) call).2

/-- None of some calls is answered so that a visit ends. -/
def NeverEnds (calls : List Visit) : Prop :=
  ∀ past call rest, calls = past ++ call :: rest → ¬ (answerAfter reply memory past call).Ends

variable {reply} {memory}

/-- A visitor says to go on unless its answer ends the visit. -/
theorem goesOn_ofAnswers_iff
    {past : List Visit} {call : Visit} :
    (Visitor.ofAnswers reply (memoryAfter (Visitor.ofAnswers reply) memory past) call).2 = true ↔
      ¬ (answerAfter reply memory past call).Ends := by
  rw [← VisitAnswer.stops_iff]
  show (!(answerAfter reply memory past call).stops) = true ↔ _
  rw [Bool.not_eq_true', Bool.not_eq_true]

theorem neverEnds_iff
    {calls : List Visit} :
    NeverEnds reply memory calls ↔ GoesOnAlong (Visitor.ofAnswers reply) memory calls :=
  forall₄_congr fun _ _ _ _ => goesOn_ofAnswers_iff.symm

/-- Either no call of a list ends the visit, or one of them is the first to do so. -/
theorem neverEnds_or_exists_first
    (calls : List Visit) :
    NeverEnds reply memory calls ∨
      ∃ past call rest, calls = past ++ call :: rest ∧ NeverEnds reply memory past ∧
        (answerAfter reply memory past call).Ends := by
  induction calls using List.reverseRecOn with
  | nil =>
      left
      intro past call rest hnil
      cases past <;> cases hnil
  | append_singleton calls last ih =>
      rcases ih with hnever | ⟨past, call, rest, rfl, hpast, hends⟩
      · by_cases hlast : (answerAfter reply memory calls last).Ends
        · exact Or.inr ⟨calls, last, [], rfl, hnever, hlast⟩
        · left
          intro past call rest hcalls
          rcases List.eq_nil_or_concat rest with rfl | ⟨rest, final, rfl⟩
          -- the last call of the longer list
          · obtain ⟨rfl, hcall⟩ := List.append_inj' hcalls rfl
            rw [List.cons.injEq] at hcall
            rwa [← hcall.1]
          -- a call of the shorter one
          · rw [List.concat_eq_append, ← List.cons_append, ← List.append_assoc] at hcalls
            exact hnever past call rest (List.append_inj' hcalls rfl).1
      · refine Or.inr ⟨past, call, rest ++ [last], ?_, hpast, hends⟩
        rw [List.append_assoc, List.cons_append]

end Answers

section Recording

variable {σ : Type} {visitor : Visitor σ} {memory : σ}

/-- A visitor that records its calls remembers what it would remember without the record. -/
theorem memoryAfter_recording
    (calls : List Visit) :
    memoryAfter visitor.recording (memory, []) calls =
      (memoryAfter visitor memory calls, calls) := by
  induction calls using List.reverseRecOn with
  | nil => rfl
  | append_singleton calls call ih =>
      rw [memoryAfter_concat, memoryAfter_concat, ih]
      rfl

/-- With its record, a visitor goes on where it would go on without. -/
theorem goesOnAlong_recording
    {calls : List Visit} (h : GoesOnAlong visitor memory calls) :
    GoesOnAlong visitor.recording (memory, []) calls := by
  intro past call rest hcalls
  rw [memoryAfter_recording]
  exact h past call rest hcalls

/-- A visitor that goes on along the preorder is called for all of it. -/
theorem calls_of_goesOnAlong
    {root : Value} (h : GoesOnAlong visitor memory (allStates root)) :
    visitor.calls memory root = allStates root ∧
      visit visitor memory root = memoryAfter visitor memory (allStates root) := by
  rw [Visitor.calls, visit, visit, visitScope_eq_runWhile, visitScope_eq_runWhile]
  rw [allStates] at h ⊢
  rw [runWhile_of_goesOnAlong h, runWhile_of_goesOnAlong (goesOnAlong_recording h),
    memoryAfter_recording]
  exact ⟨rfl, rfl⟩

/-- A visitor is called no more once it says to stop. -/
theorem calls_of_stops
    {root : Value} {past : List Visit} {call : Visit} {rest : List Visit}
    (hstates : allStates root = past ++ call :: rest) (hpast : GoesOnAlong visitor memory past)
    (hstop : (visitor (memoryAfter visitor memory past) call).2 = false) :
    visitor.calls memory root = past ++ [call] ∧
      visit visitor memory root = memoryAfter visitor memory (past ++ [call]) := by
  have hrecorded :
      (visitor.recording (memoryAfter visitor.recording (memory, []) past) call).2 = false := by
    rw [memoryAfter_recording]
    exact hstop
  rw [Visitor.calls, visit, visit, visitScope_eq_runWhile, visitScope_eq_runWhile]
  rw [allStates] at hstates
  rw [hstates, runWhile_of_stops hpast hstop rest,
    runWhile_of_stops (goesOnAlong_recording hpast) hrecorded rest, memoryAfter_recording]
  exact ⟨rfl, rfl⟩

end Recording

/-- The calls of a visit are the preorder of the workflow up to the first call that is answered with
a stop or with the truth value false, this call included, and the whole preorder when no call is
answered so.  Each answer may depend on the call and on all earlier ones, and a visit ends with the
memory that its calls leave. -/
theorem visit_stops_at_first_end
    {σ : Type} (reply : σ → Visit → σ × VisitAnswer) (memory : σ) (root : Value) :
    let visitor := Visitor.ofAnswers reply
    let calls := visitor.calls memory root
    ((∃ past call rest, allStates root = past ++ call :: rest ∧ NeverEnds reply memory past ∧
          (answerAfter reply memory past call).Ends ∧ calls = past ++ [call]) ∨
        (NeverEnds reply memory (allStates root) ∧ calls = allStates root)) ∧
      visit visitor memory root = memoryAfter visitor memory calls := by
  intro visitor calls
  have hfirst : NeverEnds reply memory (allStates root) ∨ _ :=
    neverEnds_or_exists_first (allStates root)
  rcases hfirst with hnever | ⟨past, call, rest, hstates, hpast, hends⟩
  · obtain ⟨hcalls, hmemory⟩ := calls_of_goesOnAlong (neverEnds_iff.mp hnever)
    exact ⟨Or.inr ⟨hnever, hcalls⟩, hmemory.trans (congrArg _ hcalls.symm)⟩
  · have hstop : (visitor (memoryAfter visitor memory past) call).2 = false := by
      rw [Bool.eq_false_iff, ne_eq, goesOn_ofAnswers_iff, not_not]
      exact hends
    obtain ⟨hcalls, hmemory⟩ := calls_of_stops hstates (neverEnds_iff.mp hpast) hstop
    exact ⟨Or.inl ⟨past, call, rest, hstates, hpast, hends, hcalls⟩,
      hmemory.trans (congrArg _ hcalls.symm)⟩

/-- A visitor that answers with the number of its earlier calls, and with false once it has been
called three times: the zero cuts nothing, and the Map state behind the branch is not visited. -/
example :
    ((Visitor.ofAnswers (fun (count : Int) _ =>
        (count + 1, if count < 2 then .number count else .truth false))).calls 0 mixedNesting).map
          Visit.path =
      [[.name "P"], [.name "P", .index 1, .name "A"], [.name "P", .index 2, .name "A"]] :=
  rfl

end Workflow
