import Workflow.Proofs.SessionHistory

/-!
# Commands that are answered

There are faults that no command catches, and each of them ends the session.  `Session.Unanswered`
lists the commands that lead to one: files that cannot be read as documents, reports without bytes
or under names that no file can have, types too long to be written, typed numbers that pass the
digit test but are not read, and texts that the output does not take.  The last ones come from
outside, and `Session.Prints` says which command shows which of them.

One lemma for each command says when its reply lets the session go on, and
`Session.Coherent.goesOnUnless` puts them together.
-/

namespace Workflow

/-- Writing a file fails or succeeds whatever its bytes are. -/
theorem Storage.write_cases
    (storage : Storage) (t : Text) :
    (∃ problem, ∀ bytes, storage.write t bytes = .error problem) ∨
      ∃ full, ∀ bytes, storage.write t bytes = .ok (storage.put full bytes) := by
  unfold write
  dsimp only
  cases t.isEmpty with
  | true => exact Or.inl ⟨.missing, fun _ => rfl⟩
  | false =>
      simp only [Bool.false_eq_true, if_false]
      cases checkLength t with
      | error problem => exact Or.inl ⟨problem, fun _ => rfl⟩
      | ok _ =>
          cases FileName.directories? t with
          | some components =>
              dsimp only
              cases storage.enter (FileName.ofText t).isAbsolute [] components with
              | error problem => exact Or.inl ⟨problem, fun _ => rfl⟩
              | ok trail => exact Or.inl ⟨.isDirectory, fun _ => rfl⟩
          | none =>
              cases storage.locate (FileName.ofText t) with
              | error problem => exact Or.inl ⟨problem, fun _ => rfl⟩
              | ok place =>
                  cases place with
                  | directory => exact Or.inl ⟨.isDirectory, fun _ => rfl⟩
                  | file full old => exact Or.inr ⟨full, fun _ => rfl⟩

/-- A command that is about the document. -/
def Command.isAbout : Command → Bool
  | .validate _ | .states | .scope (some _) | .complete (some _) | .remote => true
  | _ => false

namespace Reply

/-- The reply lets the session go on, unless something happens that is a fault. -/
structure GoesOnUnless (r : Reply) (stops : Prop) : Prop where
  faults : Faults r.goesOn ↔ stops
  stays : r.goesOn ≠ .ok false

theorem goesOnUnless_said
    (printed : Text) :
    (said printed).GoesOnUnless False where
  faults := iff_false_intro (not_faults_ok true)
  stays h := by cases h

theorem goesOnUnless_failed
    (fault : Fault) :
    (failed fault).GoesOnUnless True where
  faults := iff_true_intro (faults_error fault)
  stays h := by cases h

theorem GoesOnUnless.congr
    {r : Reply} {stops stops' : Prop} (h : r.GoesOnUnless stops) (hiff : stops ↔ stops') :
    r.GoesOnUnless stops' :=
  ⟨h.faults.trans hiff, h.stays⟩

theorem GoesOnUnless.behind
    {r : Reply} {stops : Prop} (h : r.GoesOnUnless stops) (printed : Text) :
    (r.behind printed).GoesOnUnless stops :=
  ⟨h.faults, h.stays⟩

end Reply

namespace Output

variable (output : Output)

/-- Printing goes on unless there is a surrogate where bytes are written. -/
theorem goesOnUnless_print
    (texts : List Text) :
    (output.print texts).GoesOnUnless
      (output = .bytes ∧ texts.any Text.hasSurrogate = true) := by
  rw [← exists_rejects_iff]
  by_cases hrejects : ∃ t ∈ texts, output.Rejects t
  · have hfaults := faults_print_of_rejects hrejects
    refine ⟨iff_of_true hfaults hrejects, fun h => ?_⟩
    rw [h] at hfaults
    exact not_faults_ok _ hfaults
  · have haccepted : ∀ t ∈ texts, ¬ output.Rejects t := fun t ht h => hrejects ⟨t, ht, h⟩
    rw [print_of_accepted haccepted]
    exact (Reply.goesOnUnless_said _).congr (iff_of_false id hrejects)

/-- Printing texts and then going on may stop at the texts or behind them. -/
theorem goesOnUnless_printFirst
    (texts : List Text) {r : Reply} {stops : Prop} (h : r.GoesOnUnless stops) :
    (output.printFirst texts r).GoesOnUnless
      (output = .bytes ∧ texts.any Text.hasSurrogate = true ∨ stops) := by
  rw [← exists_rejects_iff]
  by_cases hrejects : ∃ t ∈ texts, output.Rejects t
  · have hfaults := faults_printFirst_of_rejects hrejects r
    refine ⟨iff_of_true hfaults (Or.inl hrejects), fun hends => ?_⟩
    rw [hends] at hfaults
    exact not_faults_ok _ hfaults
  · have haccepted : ∀ t ∈ texts, ¬ output.Rejects t := fun t ht h => hrejects ⟨t, ht, h⟩
    rw [printFirst_of_accepted haccepted]
    exact (h.behind _).congr (or_iff_right hrejects).symm

end Output

namespace Session

/-- A text from outside that a command shows once it comes to showing anything. -/
inductive Prints (s : Session) : Command → Text → Prop where
  | word {word : Text} : Prints s (.unknown word) word
  | loaded {name : Text} {d : Document} (h : s.Opens (.load (some name)) name d) :
      Prints s (.load (some name)) name
  | title {d : OpenDocument} {report : Option Text} {path : Text} (hd : s.document = some d)
      (hpath : s.path = some path) : Prints s (.validate report) path
  | saved {d : OpenDocument} {name : Text} {storage : Storage} (hd : s.document = some d)
      (hname : FileName.fault? name = none) (hwrite : s.storage.write name [] = .ok storage) :
      Prints s (.validate (some name)) name
  | type {d : OpenDocument} {v : Visit} (hd : s.document = some d)
      (hv : v ∈ allStates d.document.workflow) : Prints s .states (shownType v).display
  | path {d : OpenDocument} {v : Visit} (hd : s.document = some d)
      (hv : v ∈ allStates d.document.workflow) : Prints s .states v.path.written
  | reference {d : OpenDocument} {state : Text} {reference : Reference} (hd : s.document = some d)
      (hstate : Reference.ofWritten state = .ok reference) :
      Prints s (.scope (some state)) reference.written
  | name {d : OpenDocument} {state name : Text} {reference : Reference} {bound : VariableScope}
      (hd : s.document = some d) (hstate : Reference.ofWritten state = .ok reference)
      (hbound : (s.service.variableScope d reference none).2 = .ok bound)
      (hname : name ∈ bound.own.innerNames ++ bound.outer.innerNames) :
      Prints s (.scope (some state)) name
  | candidate {d : OpenDocument} {place name : Text} {position : Position}
      (hd : s.document = some d) (hplace : Position.ofWritten place = .ok (some position))
      (hname : name ∈ s.service.stateNamesAt d.document (d.document.text.offsetAt position)) :
      Prints s (.complete (some place)) name
  | item {d : OpenDocument} {place item : Text} {position : Position}
      {found : Completion.Candidates} (hd : s.document = some d)
      (hplace : Position.ofWritten place = .ok (some position))
      (hfound : (s.service.variablesAt d (d.document.text.offsetAt position)).2 = .ok (some found))
      (hitem : item ∈ found.items) : Prints s (.complete (some place)) item
  | parent {d : OpenDocument} {place : Text} {position : Position}
      {found : Completion.Candidates} (hd : s.document = some d)
      (hplace : Position.ofWritten place = .ok (some position))
      (hfound : (s.service.variablesAt d (d.document.text.offsetAt position)).2 = .ok (some found))
      (hitems : found.items ≠ []) : Prints s (.complete (some place)) found.parentPath

/-- A command shows a text that the output does not take. -/
def Unprintable (s : Session) (c : Command) : Prop := ∃ t, s.Prints c t ∧ s.output.Rejects t

/-- A command that leads to a fault. -/
inductive Unanswered (s : Session) : Command → Prop where
  | print {c : Command} (h : s.Unprintable c) : Unanswered s c
  | file {name : Text} (h : Unreadable s.storage name) : Unanswered s (.load (some name))
  | reportName {d : OpenDocument} {name : Text} {fault : Fault} (hd : s.document = some d)
      (h : FileName.fault? name = some fault) : Unanswered s (.validate (some name))
  | reportText {d : OpenDocument} {name path : Text} {storage : Storage}
      (hd : s.document = some d) (hname : FileName.fault? name = none)
      (hwrite : s.storage.write name [] = .ok storage) (hpath : s.path = some path)
      (h : path.hasSurrogate = true) : Unanswered s (.validate (some name))
  | type {d : OpenDocument} {v : Visit} (hd : s.document = some d)
      (hv : v ∈ allStates d.document.workflow) (h : (shownType v).isWritable = false) :
      Unanswered s .states
  | segment {d : OpenDocument} {state piece : Text} (hd : s.document = some d)
      (hslash : state.contains '/' = true) (hpiece : piece ∈ Text.splitOn '/' state)
      (hdigits : piece.isDigits = true) (h : Numeral.Unread piece) :
      Unanswered s (.scope (some state))
  | position {d : OpenDocument} {place : Text} (hd : s.document = some d)
      (hline : (Position.typedLine place).isDigits = true)
      (hcolumn : (Position.typedColumn place).isDigits = true)
      (h : Numeral.Unread (Position.typedLine place) ∨
        Numeral.Unread (Position.typedColumn place)) :
      Unanswered s (.complete (some place))
  | path {d : OpenDocument} {place : Text} {position : Position} {f : Focus}
      {info : Focus.StateInfo} {use : Completion.FieldUse} {scope : VariableScope}
      (hd : s.document = some d) (hplace : Position.ofWritten place = .ok (some position))
      (hf : Focus.at? d.document.root (d.document.text.offsetAt position) = some f)
      (hinfo : f.stateInfo? = some info) (huse : Completion.useAt? f info = some use)
      (hscope : (Snapshot.ofWorkflow d.document.workflow).variableScope (.path info.path)
        (some (.path info.path)) = .ok scope)
      (h : Completion.Overreaches (Completion.allVariables scope (Completion.reserved use))
        (Completion.typedSteps f)) :
      Unanswered s (.complete (some place))

section Commands

variable (s : Session)

/-! ## What is shown -/

/-- The text from outside that a command to load shows. -/
theorem prints_load_iff
    {name t : Text} :
    s.Prints (.load (some name)) t ↔ t = name ∧ ∃ d, s.Opens (.load (some name)) name d := by
  constructor
  · intro h
    cases h with
    | loaded hopens => exact ⟨rfl, _, hopens⟩
  · rintro ⟨rfl, d, hopens⟩
    exact .loaded hopens

/-- The texts from outside that the list of states shows. -/
theorem prints_states_iff
    {d : OpenDocument} (hd : s.document = some d) {t : Text} :
    s.Prints .states t ↔ ∃ v ∈ allStates d.document.workflow,
      (shownType v).display = t ∨ v.path.written = t := by
  constructor
  · intro h
    cases h with
    | type hd' hv | path hd' hv =>
        cases hd.symm.trans hd'
        exact ⟨_, hv, by simp⟩
  · rintro ⟨v, hv, rfl | rfl⟩
    · exact .type hd hv
    · exact .path hd hv

/-- The texts from outside that the drawing of a scope shows. -/
theorem prints_scope_iff
    {d : OpenDocument} {state : Text} {reference : Reference} {bound : VariableScope}
    (hd : s.document = some d) (hstate : Reference.ofWritten state = .ok reference)
    (hbound : (s.service.variableScope d reference none).2 = .ok bound) {t : Text} :
    s.Prints (.scope (some state)) t ↔
      reference.written = t ∨ t ∈ bound.own.innerNames ++ bound.outer.innerNames := by
  constructor
  · intro h
    cases h with
    | reference _ hstate' =>
        cases hstate.symm.trans hstate'
        exact Or.inl rfl
    | name hd' hstate' hbound' hname =>
        cases hd.symm.trans hd'
        cases hstate.symm.trans hstate'
        cases hbound.symm.trans hbound'
        exact Or.inr hname
  · rintro (rfl | hname)
    · exact .reference hd hstate
    · exact .name hd hstate hbound hname

/-- The texts from outside that a command to complete shows. -/
theorem prints_complete_iff
    {d : OpenDocument} {place : Text} {position : Position} {found : Option Completion.Candidates}
    (hd : s.document = some d) (hplace : Position.ofWritten place = .ok (some position))
    (hfound : (s.service.variablesAt d (d.document.text.offsetAt position)).2 = .ok found)
    {t : Text} :
    s.Prints (.complete (some place)) t ↔
      t ∈ s.service.stateNamesAt d.document (d.document.text.offsetAt position) ∨
        ∃ c ∈ found, c.items ≠ [] ∧ (c.parentPath = t ∨ t ∈ c.items) := by
  constructor
  · intro h
    cases h with
    | candidate hd' hplace' hname =>
        cases hd.symm.trans hd'
        cases hplace.symm.trans hplace'
        exact Or.inl hname
    | item hd' hplace' hfound' hitem =>
        cases hd.symm.trans hd'
        cases hplace.symm.trans hplace'
        cases hfound.symm.trans hfound'
        exact Or.inr ⟨_, rfl, List.ne_nil_of_mem hitem, Or.inr hitem⟩
    | parent hd' hplace' hfound' hitems =>
        cases hd.symm.trans hd'
        cases hplace.symm.trans hplace'
        cases hfound.symm.trans hfound'
        exact Or.inr ⟨_, rfl, hitems, Or.inl rfl⟩
  · rintro (hname | ⟨c, rfl, hitems, rfl | hitem⟩)
    · exact .candidate hd hplace hname
    · exact .parent hd hplace hfound hitems
    · exact .item hd hplace hfound hitem

/-- The texts from outside that a command to validate shows. -/
theorem unprintable_validate_iff
    {d : OpenDocument} (hd : s.document = some d) (report : Option Text) :
    s.Unprintable (.validate report) ↔
      s.output = .bytes ∧ s.path.any Text.hasSurrogate = true ∨
        ∃ name ∈ report, FileName.fault? name = none ∧
          (∃ storage, s.storage.write name [] = .ok storage) ∧ s.output.Rejects name := by
  constructor
  · rintro ⟨t, hprints, hrejects⟩
    cases hprints with
    | title _ hpath => exact Or.inl ⟨hrejects.1, by rw [hpath]; exact hrejects.2⟩
    | saved _ hname hwrite => exact Or.inr ⟨t, rfl, hname, ⟨_, hwrite⟩, hrejects⟩
  · rintro (⟨hbytes, hsurrogate⟩ | ⟨name, rfl, hname, ⟨storage, hwrite⟩, hrejects⟩)
    · obtain ⟨path, hpath, hsurrogate⟩ := (Option.any_eq_true _ _).mp hsurrogate
      exact ⟨path, .title hd hpath, hbytes, hsurrogate⟩
    · exact ⟨name, .saved hd hname hwrite, hrejects⟩

/-! ## Replies -/

/-- Lines about the texts that a command shows are printed unless one of these is refused. -/
theorem goesOnUnless_printed
    {c : Command} {lines : List Text}
    (h : lines.any Text.hasSurrogate = true ↔ ∃ t, s.Prints c t ∧ t.hasSurrogate = true) :
    (s.output.print lines).GoesOnUnless (s.Unprintable c) := by
  refine (s.output.goesOnUnless_print lines).congr ?_
  rw [h]
  constructor
  · rintro ⟨hbytes, t, hprints, hsurrogate⟩
    exact ⟨t, hprints, hbytes, hsurrogate⟩
  · rintro ⟨t, hprints, hbytes, hsurrogate⟩
    exact ⟨hbytes, t, hprints, hsurrogate⟩

/-- A command whose lines are known beforehand lets the session go on. -/
theorem goesOnUnless_plain
    {c : Command} {lines : List Text} (h : lines.any Text.hasSurrogate = false)
    (hanswered : ¬ s.Unanswered c) :
    (s.output.print lines).GoesOnUnless (s.Unanswered c) := by
  refine (s.output.goesOnUnless_print lines).congr (iff_of_false ?_ hanswered)
  rintro ⟨-, hsurrogate⟩
  exact Bool.false_ne_true (h.symm.trans hsurrogate)

/-- The usage of a command is known beforehand. -/
theorem goesOnUnless_usage
    {c : Command} (form : String) (hanswered : ¬ s.Unanswered c) :
    (s.usage form).2.GoesOnUnless (s.Unanswered c) := by
  have hyellow : Terminal.yellow.hasSurrogate = false := rfl
  exact s.goesOnUnless_plain (by simp [Terminal.hasSurrogate_paintLine hyellow]) hanswered

/-- Only with a document does a command about the document show texts. -/
theorem document_of_unprintable
    {c : Command} (hc : c.isAbout = true) (h : s.Unprintable c) :
    s.document ≠ none := by
  obtain ⟨t, hprints, -⟩ := h
  intro hnone
  cases hprints with
  | word | loaded => cases hc
  | title hd | saved hd | type hd | path hd | reference hd | name hd
  | candidate hd | item hd | parent hd =>
      rw [hnone] at hd
      cases hd

theorem goesOnUnless_about
    {c : Command} (hc : c.isAbout = true) {answer : OpenDocument → Reply}
    {stops : OpenDocument → Prop}
    (h : ∀ d, s.document = some d → (answer d).GoesOnUnless (stops d ∨ s.Unprintable c)) :
    (s.about answer).GoesOnUnless ((∃ d, s.document = some d ∧ stops d) ∨ s.Unprintable c) := by
  cases hdocument : s.document with
  | some d =>
      rw [about_of_some hdocument]
      exact (h d hdocument).congr (or_congr_left (by simp))
  | none =>
      rw [about_of_none hdocument]
      refine (Reply.goesOnUnless_said _).congr (iff_of_false id ?_)
      rintro (⟨d, hd, -⟩ | hprint)
      · cases hd
      · exact s.document_of_unprintable hc hprint hdocument

theorem goesOnUnless_load
    (name : Text) :
    (s.load name).2.GoesOnUnless
      (Unreadable s.storage name ∨ s.Unprintable (.load (some name))) := by
  rw [← faults_loadFile s.voice]
  cases hload : loadFile s.voice s.storage name with
  | error fault =>
      rw [load, hload]
      exact (Reply.goesOnUnless_failed fault).congr (by simp)
  | ok result =>
      rw [or_iff_right (not_faults_ok result)]
      cases hdocument : result.document with
      | none =>
          rw [s.load_of_refused hload hdocument]
          refine (Reply.goesOnUnless_said _).congr (iff_of_false id ?_)
          rintro ⟨t, ht, -⟩
          obtain ⟨-, d, -, result', hload', hdocument'⟩ := s.prints_load_iff.mp ht
          rw [hload] at hload'
          cases hload'
          rw [hdocument] at hdocument'
          cases hdocument'
      | some d =>
          rw [s.load_of_opened hload hdocument]
          refine (s.goesOnUnless_printed ?_).behind _
          have hgreen : Terminal.green.hasSurrogate = false := rfl
          have hopens : s.Opens (.load (some name)) name d := ⟨rfl, result, hload, hdocument⟩
          simp only [prints_load_iff, List.any_cons, List.any_nil, Bool.or_false,
            Terminal.hasSurrogate_paintLine hgreen, Text.hasSurrogate_append,
            Text.hasSurrogate_ofString, Bool.false_or]
          constructor
          · exact fun hsurrogate => ⟨name, ⟨rfl, d, hopens⟩, hsurrogate⟩
          · rintro ⟨_, ⟨rfl, -⟩, hsurrogate⟩
            exact hsurrogate

theorem goesOnUnless_save
    (report name : Text) :
    (s.save report name).2.GoesOnUnless
      ((∃ fault, FileName.fault? name = some fault) ∨
        FileName.fault? name = none ∧ (∃ storage, s.storage.write name [] = .ok storage) ∧
          (report.hasSurrogate = true ∨ s.output.Rejects name)) := by
  have hgap : (Terminal.stripEscapes report).surrogateFault?.isSome = report.hasSurrogate := by
    rw [Text.isSome_surrogateFault?, Terminal.stripEscapes, Terminal.hasSurrogate_stripFrom]
  rw [save]
  cases hname : FileName.fault? name with
  | some fault => exact (Reply.goesOnUnless_failed fault).congr (by simp)
  | none =>
      dsimp only
      rw [← hgap]
      rcases s.storage.write_cases name with ⟨problem, hwrite⟩ | ⟨full, hwrite⟩
      · have hred : Terminal.red.hasSurrogate = false := rfl
        rw [hwrite]
        refine (s.output.goesOnUnless_print _).congr ?_
        simp [hwrite, Terminal.hasSurrogate_paintLine hred, problem.hasSurrogate_message]
      · rw [hwrite]
        cases (Terminal.stripEscapes report).surrogateFault? with
        | none =>
            have hgreen : Terminal.green.hasSurrogate = false := rfl
            refine (s.output.goesOnUnless_print _).congr ?_
            simp [hwrite, Terminal.hasSurrogate_paintLine hgreen, Output.Rejects]
        | some fault => exact (Reply.goesOnUnless_failed _).congr (by simp [hwrite])

theorem goesOnUnless_states :
    s.states.2.GoesOnUnless ((∃ d, s.document = some d ∧
      ∃ v ∈ allStates d.document.workflow, (shownType v).isWritable = false) ∨
        s.Unprintable .states) := by
  rw [states_snd]
  refine s.goesOnUnless_about rfl fun d hd => ?_
  have hline : ∀ v, Faults (stateLine v) ↔ (shownType v).isWritable = false := by
    intro v
    unfold stateLine
    dsimp only
    rw [faults_bind, or_iff_left]
    · change Faults (Value.checkDigits (shownType v)) ↔ _
      rw [Value.checkDigits]
      cases (shownType v).isWritable <;> simp
    · rintro ⟨_, -, hfaults⟩
      exact not_faults_ok _ hfaults
  have hlines : Faults ((allStates d.document.workflow).mapM stateLine) ↔
      ∃ v ∈ allStates d.document.workflow, (shownType v).isWritable = false := by
    rw [faults_mapM]
    simp only [hline]
  rw [← hlines]
  cases hmade : (allStates d.document.workflow).mapM stateLine with
  | error fault =>
      cases hvisits : allStates d.document.workflow with
      | nil =>
          rw [hvisits] at hmade
          cases hmade
      | cons v visits =>
          rw [hvisits] at hmade
          dsimp only
          rw [hmade]
          exact (Reply.goesOnUnless_failed fault).congr (by simp)
  | ok lines =>
      rw [or_iff_right (not_faults_ok lines)]
      have hshown := any_stateLines_iff d.document.workflow_proper hmade
      cases hvisits : allStates d.document.workflow with
      | nil =>
          refine s.goesOnUnless_printed (iff_of_false (Bool.eq_false_iff.mp rfl) ?_)
          simp [s.prints_states_iff hd, hvisits]
      | cons v visits =>
          rw [hvisits] at hmade
          dsimp only
          rw [hmade]
          refine s.goesOnUnless_printed (hshown.trans ?_)
          simp only [s.prints_states_iff hd]
          constructor
          · rintro ⟨v, hv, h | h⟩
            · exact ⟨_, ⟨v, hv, Or.inl rfl⟩, h⟩
            · exact ⟨_, ⟨v, hv, Or.inr rfl⟩, h⟩
          · rintro ⟨_, ⟨v, hv, rfl | rfl⟩, h⟩
            · exact ⟨v, hv, Or.inl h⟩
            · exact ⟨v, hv, Or.inr h⟩

/-- The listing of what the check finds can always be made.  It shows all messages, and surrogates
come only from the name of the document. -/
theorem exists_listing
    (hschema : s.service.schema = Tables.packaged) (d : OpenDocument) :
    ∃ ds listing, (s.service.validate d).2 = .ok ds ∧
      Listing.text s.style s.path ds = .ok listing ∧
      listing.hasSurrogate = s.path.any Text.hasSurrogate ∧
      ∀ e ∈ ds, ∀ message, e.message = .str message → message <:+: listing := by
  have hfound : ∃ ds, (s.service.validate d).2 = .ok ds ∧ ∀ e ∈ ds, e.Cataloged := by
    rw [Service.validate]
    cases d.document.root with
    | none => exact ⟨[], rfl, by simp⟩
    | some t =>
        dsimp only
        split
        · have hrefreshed : (s.service.refresh d).schema = Tables.packaged :=
            (s.service.refresh_settings d).2.trans hschema
          rw [hrefreshed]
          exact d.document.check_cataloged _ .top (some t)
        · exact ⟨[], rfl, by simp⟩
  obtain ⟨ds, hds, hcataloged⟩ := hfound
  obtain ⟨listing, hlisting, hbytes, hshows⟩ := Listing.text_of_cataloged s.style s.path hcataloged
  exact ⟨ds, listing, hds, hlisting, hbytes, hshows⟩

theorem goesOnUnless_validate
    (hschema : s.service.schema = Tables.packaged) (report : Option Text) :
    (s.validate report).2.GoesOnUnless ((∃ d, s.document = some d ∧ ∃ name ∈ report,
      (∃ fault, FileName.fault? name = some fault) ∨
        FileName.fault? name = none ∧ (∃ storage, s.storage.write name [] = .ok storage) ∧
          s.path.any Text.hasSurrogate = true) ∨ s.Unprintable (.validate report)) := by
  rw [validate_snd]
  refine s.goesOnUnless_about rfl fun d hd => ?_
  obtain ⟨ds, listing, hds, hlisting, hbytes, -⟩ := s.exists_listing hschema d
  have hmade : (s.service.validate d).2 >>= Listing.text s.style s.path = .ok listing := by
    rw [hds]
    exact hlisting
  rw [hmade, s.unprintable_validate_iff hd]
  have hline : [Terminal.line listing].any Text.hasSurrogate = s.path.any Text.hasSurrogate := by
    simp [hbytes]
  cases report with
  | none =>
      refine (s.output.goesOnUnless_printFirst _ (Reply.goesOnUnless_said [])).congr ?_
      rw [hline]
      simp
  | some name =>
      refine (s.output.goesOnUnless_printFirst _ (s.goesOnUnless_save listing name)).congr ?_
      rw [hline, hbytes]
      simp only [Option.mem_some_iff, exists_eq_left']
      tauto

theorem goesOnUnless_scope
    (state : Text) :
    (s.scope state).2.GoesOnUnless ((∃ d, s.document = some d ∧ state.contains '/' = true ∧
      ∃ piece ∈ Text.splitOn '/' state, piece.isDigits = true ∧ Numeral.Unread piece) ∨
        s.Unprintable (.scope (some state))) := by
  rw [scope_snd]
  refine s.goesOnUnless_about rfl fun d hd => ?_
  rw [← Reference.faults_ofWritten_iff]
  cases hread : Reference.ofWritten state with
  | error fault => exact (Reply.goesOnUnless_failed fault).congr (by simp)
  | ok reference =>
      obtain ⟨bound, hbound, hown, houter⟩ := variableScope_drawn
        (s.service.refresh d).snapshot.workflow (s.service.refresh d).snapshot.entries
        reference none (Reference.leads_of_ofWritten hread) (fun _ h => by cases h)
      obtain ⟨drawing, hdrawing⟩ := Drawing.text_of_isObject s.style (some reference.written)
        hown houter
      have hfound : (s.service.variableScope d reference none).2 = .ok bound := hbound
      have hmade : (s.service.variableScope d reference none).2 >>=
          Drawing.text s.style (some reference.written) = .ok drawing := by
        rw [hfound]
        exact hdrawing
      dsimp only
      rw [hmade, or_iff_right (not_faults_ok reference)]
      refine s.goesOnUnless_printed ?_
      rw [List.any_cons, List.any_nil, Bool.or_false, Terminal.hasSurrogate_line,
        Drawing.hasSurrogate_of_text hdrawing, Bool.or_eq_true, List.any_eq_true]
      simp only [s.prints_scope_iff hd hread hfound, or_and_right, exists_or, exists_eq_left',
        Option.any_some]

theorem goesOnUnless_complete
    (place : Text) :
    (s.complete place).2.GoesOnUnless ((∃ d, s.document = some d ∧
      (Faults (Position.ofWritten place) ∨
        ∃ position, Position.ofWritten place = .ok (some position) ∧
          Faults (s.service.variablesAt d (d.document.text.offsetAt position)).2)) ∨
        s.Unprintable (.complete (some place))) := by
  rw [complete_snd]
  refine s.goesOnUnless_about rfl fun d hd => ?_
  cases hplace : Position.ofWritten place with
  | error fault => exact (Reply.goesOnUnless_failed fault).congr (by simp)
  | ok typed =>
      cases typed with
      | none =>
          have hsilent : ¬ ∃ t, s.Prints (.complete (some place)) t ∧ t.hasSurrogate = true := by
            rintro ⟨t, hprints, -⟩
            cases hprints with
            | candidate _ hplace' | item _ hplace' | parent _ hplace' =>
                rw [hplace] at hplace'
                cases hplace'
          refine (s.goesOnUnless_printed (iff_of_false (Bool.eq_false_iff.mp rfl) hsilent)).congr ?_
          simp
      | some position =>
          simp only [not_faults_ok, false_or, Except.ok.injEq, Option.some.injEq, exists_eq_left']
          cases hfound : (s.service.variablesAt d (d.document.text.offsetAt position)).2 with
          | error fault => exact (Reply.goesOnUnless_failed fault).congr (by simp)
          | ok found =>
              rw [or_iff_right (not_faults_ok found)]
              refine s.goesOnUnless_printed ?_
              rw [any_candidateLines_iff (Position.hasSurrogate_of_ofWritten hplace)]
              simp only [s.prints_complete_iff hd hplace hfound]
              constructor
              · rintro (⟨t, ht, h⟩ | ⟨c, hc, hitems, h | ⟨item, hitem, h⟩⟩)
                · exact ⟨t, Or.inl ht, h⟩
                · exact ⟨_, Or.inr ⟨c, hc, hitems, Or.inl rfl⟩, h⟩
                · exact ⟨_, Or.inr ⟨c, hc, hitems, Or.inr hitem⟩, h⟩
              · rintro ⟨t, ht | ⟨c, hc, hitems, rfl | hitem⟩, h⟩
                · exact Or.inl ⟨t, ht, h⟩
                · exact Or.inr ⟨c, hc, hitems, Or.inl h⟩
                · exact Or.inr ⟨c, hc, hitems, Or.inr ⟨t, hitem, h⟩⟩

end Commands

section Coherence

variable {s : Session}

/-- The variables at a place of the document are found unless the path that is typed there
overreaches. -/
theorem Coherent.faults_variablesAt_iff
    (h : s.Coherent) {d : OpenDocument} (hd : s.document = some d) (offset : Int) :
    Faults (s.service.variablesAt d offset).2 ↔
      ∃ f info use scope, Focus.at? d.document.root offset = some f ∧ f.stateInfo? = some info ∧
        Completion.useAt? f info = some use ∧
        (Snapshot.ofWorkflow d.document.workflow).variableScope (.path info.path)
          (some (.path info.path)) = .ok scope ∧
        Completion.Overreaches (Completion.allVariables scope (Completion.reserved use))
          (Completion.typedSteps f) := by
  have hfound : (s.service.variablesAt d offset).2 =
      ((Service.new false Tables.packaged).variablesAt d offset).2 :=
    Service.Answer.candidates.inj (h.respond_snd (.candidates d offset) hd)
  rw [hfound, Service.variablesAt]
  cases Focus.at? d.document.root offset with
  | none => simp
  | some f =>
      refine (Completion.faults_at?_iff f _ _).trans ⟨?_, ?_⟩
      · rintro ⟨info, use, scope, hall⟩
        exact ⟨f, info, use, scope, rfl, hall⟩
      · rintro ⟨f', info, use, scope, hf, hall⟩
        cases hf
        exact ⟨info, use, scope, hall⟩

/-- A command lets a session go on unless it is one of those that lead to a fault. -/
theorem Coherent.goesOnUnless
    (h : s.Coherent) {c : Command} (hquit : c ≠ .quit) (hremote : c ≠ .remote) :
    (s.run c).2.GoesOnUnless (s.Unanswered c) := by
  cases c with
  | quit => exact absurd rfl hquit
  | remote => exact absurd rfl hremote
  | load name =>
      cases name with
      | none => exact s.goesOnUnless_usage _ nofun
      | some name =>
          refine (s.goesOnUnless_load name).congr ⟨?_, ?_⟩
          · rintro (hunreadable | hprint)
            · exact .file hunreadable
            · exact .print hprint
          · intro hunanswered
            cases hunanswered with
            | file hunreadable => exact Or.inl hunreadable
            | print hprint => exact Or.inr hprint
  | validate report =>
      refine (s.goesOnUnless_validate h.schema report).congr ⟨?_, ?_⟩
      · rintro (⟨d, hd, name, rfl, hreport⟩ | hprint)
        · rcases hreport with ⟨fault, hfault⟩ | ⟨hname, ⟨storage, hwrite⟩, hsurrogate⟩
          · exact .reportName hd hfault
          · obtain ⟨path, hpath, hsurrogate⟩ := (Option.any_eq_true _ _).mp hsurrogate
            exact .reportText hd hname hwrite hpath hsurrogate
        · exact .print hprint
      · intro hunanswered
        cases hunanswered with
        | reportName hd hfault => exact Or.inl ⟨_, hd, _, rfl, Or.inl ⟨_, hfault⟩⟩
        | reportText hd hname hwrite hpath hsurrogate =>
            refine Or.inl ⟨_, hd, _, rfl, Or.inr ⟨hname, ⟨_, hwrite⟩, ?_⟩⟩
            rw [hpath]
            exact hsurrogate
        | print hprint => exact Or.inr hprint
  | states =>
      refine s.goesOnUnless_states.congr ⟨?_, ?_⟩
      · rintro (⟨d, hd, v, hv, htype⟩ | hprint)
        · exact .type hd hv htype
        · exact .print hprint
      · intro hunanswered
        cases hunanswered with
        | type hd hv htype => exact Or.inl ⟨_, hd, _, hv, htype⟩
        | print hprint => exact Or.inr hprint
  | scope state =>
      cases state with
      | none => exact s.goesOnUnless_usage _ nofun
      | some state =>
          refine (s.goesOnUnless_scope state).congr ⟨?_, ?_⟩
          · rintro (⟨d, hd, hslash, piece, hpiece, hdigits, hunread⟩ | hprint)
            · exact .segment hd hslash hpiece hdigits hunread
            · exact .print hprint
          · intro hunanswered
            cases hunanswered with
            | segment hd hslash hpiece hdigits hunread =>
                exact Or.inl ⟨_, hd, hslash, _, hpiece, hdigits, hunread⟩
            | print hprint => exact Or.inr hprint
  | complete place =>
      cases place with
      | none => exact s.goesOnUnless_usage _ nofun
      | some place =>
          refine (s.goesOnUnless_complete place).congr ⟨?_, ?_⟩
          · rintro (⟨d, hd, hfaults | ⟨position, hplace, hfaults⟩⟩ | hprint)
            · obtain ⟨hline, hcolumn, hunread⟩ := (Position.faults_ofWritten_iff place).mp hfaults
              exact .position hd hline hcolumn hunread
            · obtain ⟨f, info, use, scope, hf, hinfo, huse, hscope, hpath⟩ :=
                (h.faults_variablesAt_iff hd _).mp hfaults
              exact .path hd hplace hf hinfo huse hscope hpath
            · exact .print hprint
          · intro hunanswered
            cases hunanswered with
            | position hd hline hcolumn hunread =>
                exact Or.inl ⟨_, hd, Or.inl ((Position.faults_ofWritten_iff place).mpr
                  ⟨hline, hcolumn, hunread⟩)⟩
            | path hd hplace hf hinfo huse hscope hpath =>
                exact Or.inl ⟨_, hd, Or.inr ⟨_, hplace, (h.faults_variablesAt_iff hd _).mpr
                  ⟨_, _, _, _, hf, hinfo, huse, hscope, hpath⟩⟩⟩
            | print hprint => exact Or.inr hprint
  | unknown word =>
      have hred : Terminal.red.hasSurrogate = false := rfl
      refine (s.goesOnUnless_printed (c := .unknown word) ?_).congr ⟨.print, ?_⟩
      · simp only [List.any_cons, List.any_nil, Bool.or_false,
          Terminal.hasSurrogate_paintLine hred, Text.hasSurrogate_append,
          Text.hasSurrogate_ofString, Bool.false_or]
        constructor
        · exact fun hsurrogate => ⟨word, .word, hsurrogate⟩
        · rintro ⟨_, ⟨⟩, hsurrogate⟩
          exact hsurrogate
      · intro hunanswered
        cases hunanswered with
        | print hprint => exact hprint
  | help => exact s.goesOnUnless_plain any_helpLines nofun
  | nothing => exact s.goesOnUnless_plain rfl nofun

end Coherence

end Session

end Workflow
