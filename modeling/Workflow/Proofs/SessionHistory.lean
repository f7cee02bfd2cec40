import Mathlib.Data.List.Induction
import Workflow.Proofs.PrintedTexts
import Workflow.Proofs.ServiceHistory

/-!
# What a session keeps

A session keeps a document, the name under which it was loaded, and a service with the reverse
adjacency of one document, and it brings them up to date at different times: a load that succeeds
replaces document and name, and a question about the document replaces what the service keeps.
`Session.run_cases` says all that a command can do to them.

So a load that fails is not seen by anything that comes after it.  Whatever was typed before, the
document and its name come from the same load, the last one that succeeded, and every reply is that
of a session which knows nothing but this document and its name.
-/

namespace Workflow

namespace Session

/-- What happens to a session: a line is typed, or the files and the remote service change. -/
inductive Event where
  | typed (line : Text)
  | changed (storage : Storage) (remote : RemoteAnswer)

/-- A session after one event. -/
def next (s : Session) : Event → Session
  | .typed line => (s.run (Command.ofLine line)).1
  | .changed storage remote => { s with storage := storage, remote := remote }

/-- A session after some events. -/
def after (s : Session) (events : List Event) : Session := events.foldl next s

/-- The replies of a session to the lines among some events. -/
def replies : Session → List Event → List Reply
  | _, [] => []
  | s, .typed line :: events =>
    (s.run (Command.ofLine line)).2 :: replies (s.next (.typed line)) events
  | s, .changed storage remote :: events => replies (s.next (.changed storage remote)) events

/-- A command that loads a document from a file. -/
def Opens (s : Session) (c : Command) (name : Text) (d : Document) : Prop :=
  c = .load (some name) ∧
    ∃ result, loadFile s.voice s.storage name = .ok result ∧ result.document = some d

/-- A command to load a file that is answered with messages. -/
def Refuses (s : Session) (c : Command) : Prop :=
  ∃ name result, c = .load (some name) ∧ loadFile s.voice s.storage name = .ok result ∧
    result.document = none

/-- The session with a service that has not answered anything yet. -/
def forgetting (s : Session) : Session := { s with service := Service.new false Tables.packaged }

section Events

variable (s : Session)

theorem after_append
    (before later : List Event) :
    s.after (before ++ later) = (s.after before).after later := by
  rw [after, after, after, List.foldl_append]

theorem after_concat
    (before : List Event) (e : Event) :
    s.after (before ++ [e]) = (s.after before).next e := by
  rw [after_append]
  rfl

theorem replies_append
    (before later : List Event) :
    s.replies (before ++ later) = s.replies before ++ (s.after before).replies later := by
  induction before generalizing s with
  | nil => rfl
  | cons e before ih =>
      cases e with
      | typed line => rw [List.cons_append, replies, replies, ih, List.cons_append]; rfl
      | changed storage remote => rw [List.cons_append, replies, replies, ih]; rfl

end Events

/-! ## One command -/

section Step

variable (s : Session)

/-- Texts that the output takes are printed before what comes next. -/
theorem sayFirst_of_accepted
    {texts : List Text} (h : ∀ t ∈ texts, ¬ s.output.Rejects t) (next : Session × Reply) :
    s.sayFirst texts next = (next.1, next.2.behind texts.flatten) := by
  rw [sayFirst, Output.print_of_accepted h]
  rfl

theorem sayFirst_fst
    (texts : List Text) (next : Session × Reply) :
    (s.sayFirst texts next).1 = next.1 ∨ (s.sayFirst texts next).1 = s := by
  rw [sayFirst]
  split
  · exact Or.inl rfl
  · exact Or.inr rfl

/-- Every output takes what the loader says. -/
theorem sayFirst_of_loadFile
    {name : Text} {result : Loaded} (hload : loadFile s.voice s.storage name = .ok result)
    (next : Session × Reply) :
    s.sayFirst [result.printed] next = (next.1, next.2.behind result.printed) := by
  have hprinted := (printable_loadFile s.voice hload).printed
  have haccepted : ∀ t ∈ [result.printed], ¬ s.output.Rejects t :=
    List.forall_mem_singleton.mpr (Output.not_rejects_of_hasSurrogate hprinted)
  have hflat : [result.printed].flatten = result.printed := List.append_nil _
  rw [s.sayFirst_of_accepted haccepted, hflat]

/-- A load that is refused prints the messages. -/
theorem load_of_refused
    {name : Text} {result : Loaded} (hload : loadFile s.voice s.storage name = .ok result)
    (hdocument : result.document = none) :
    s.load name = (s, .said (result.printed ++
      (result.errors.map fun e => Terminal.paintLine Terminal.red ("❌ " ++ e)).flatten)) := by
  have hred : Terminal.red.hasSurrogate = false := rfl
  have haccepted : ∀ t ∈ result.errors.map fun e => Terminal.paintLine Terminal.red ("❌ " ++ e),
      ¬ s.output.Rejects t := by
    rw [List.forall_mem_map]
    intro e he
    refine Output.not_rejects_of_hasSurrogate ?_
    simp [Terminal.hasSurrogate_paintLine hred, (printable_loadFile s.voice hload).errors e he]
  rw [load, hload]
  dsimp only
  rw [s.sayFirst_of_loadFile hload, hdocument]
  dsimp only
  rw [say, Output.print_of_accepted haccepted]
  rfl

/-- A load that succeeds prints the name of the file last. -/
theorem load_of_opened
    {name : Text} {result : Loaded} {d : Document}
    (hload : loadFile s.voice s.storage name = .ok result) (hdocument : result.document = some d) :
    s.load name =
      ({ s with document := some ⟨s.loaded, d⟩, path := some name, loaded := s.loaded + 1 },
        (s.output.print [Terminal.paintLine Terminal.green ("✅ Loaded " ++ name)]).behind
          result.printed) := by
  rw [load, hload]
  dsimp only
  rw [s.sayFirst_of_loadFile hload, hdocument]
  rfl

/-- A load that is refused leaves the session as it was. -/
theorem run_of_refuses
    {c : Command} (h : s.Refuses c) :
    (s.run c).1 = s ∧ (s.run c).2.goesOn = .ok true := by
  obtain ⟨name, result, rfl, hload, hdocument⟩ := h
  rw [run, s.load_of_refused hload hdocument]
  exact ⟨rfl, rfl⟩

/-- A load that succeeds gives the session a document with an identity of its own, and the name of
the file. -/
theorem run_of_opens
    {c : Command} {name : Text} {d : Document} (h : s.Opens c name d) :
    (s.run c).1 =
      { s with document := some ⟨s.loaded, d⟩, path := some name, loaded := s.loaded + 1 } := by
  obtain ⟨rfl, result, hload, hdocument⟩ := h
  rw [run, s.load_of_opened hload hdocument]

/-- Saving a report changes nothing but the files. -/
theorem save_fst
    (report name : Text) :
    ∃ storage, (s.save report name).1 = { s with storage := storage } := by
  unfold save
  split
  · exact ⟨s.storage, rfl⟩
  · dsimp only
    split
    · next storage _ =>
        refine ⟨storage, ?_⟩
        split <;> rfl
    · exact ⟨s.storage, rfl⟩

/-- What a command other than a successful load leaves: the service may have been asked about the
document, and files may have been written. -/
def Idles (s' : Session) : Prop :=
  ∃ service storage, s' = { s with service := service, storage := storage } ∧
    (service = s.service ∨ ∃ d, s.document = some d ∧ service = s.service.refresh d)

theorem idles_self : s.Idles s := ⟨s.service, s.storage, rfl, Or.inl rfl⟩

theorem idles_withDocument
    {answer : OpenDocument → Session × Reply}
    (h : ∀ d, s.document = some d → s.Idles (answer d).1) :
    s.Idles (s.withDocument answer).1 := by
  unfold withDocument
  split
  · next d hd => exact h d hd
  · exact s.idles_self

theorem idles_sayFirst
    {s' : Session} (h : s.Idles s') (texts : List Text) {next : Session × Reply}
    (hnext : s.Idles next.1) :
    s.Idles (s'.sayFirst texts next).1 := by
  rcases s'.sayFirst_fst texts next with hfirst | hfirst
  · rw [hfirst]
    exact hnext
  · rw [hfirst]
    exact h

theorem idles_of_respond
    {d : OpenDocument} (hd : s.document = some d) (request : Service.Request)
    (hrequest : request.opened = d) (storage : Storage) :
    s.Idles { s with service := (s.service.respond request).1, storage := storage } := by
  refine ⟨_, storage, rfl, ?_⟩
  rcases s.service.respond_fst request with heq | heq
  · exact Or.inl heq
  · exact Or.inr ⟨d, hd, by rw [heq, hrequest]⟩

theorem idles_validate
    (report : Option Text) :
    s.Idles (s.validate report).1 := by
  refine s.idles_withDocument fun d hd => ?_
  have hasked := s.idles_of_respond hd (.validation d) rfl
  dsimp only
  split
  · exact hasked s.storage
  · next listing _ =>
      refine s.idles_sayFirst (hasked s.storage) _ ?_
      cases report with
      | none => exact hasked s.storage
      | some name =>
          obtain ⟨storage, hsave⟩ :=
            ({ s with service := (s.service.validate d).1 } : Session).save_fst listing name
          dsimp only
          rw [hsave]
          exact hasked storage

theorem idles_scope
    (state : Text) :
    s.Idles (s.scope state).1 := by
  refine s.idles_withDocument fun d hd => ?_
  split
  · exact s.idles_self
  · next reference _ =>
      have hasked := s.idles_of_respond hd (.scope d reference none) rfl s.storage
      dsimp only
      split <;> exact hasked

theorem idles_complete
    (place : Text) :
    s.Idles (s.complete place).1 := by
  refine s.idles_withDocument fun d hd => ?_
  split
  · exact s.idles_self
  · exact s.idles_self
  · next position _ =>
      have hasked :=
        s.idles_of_respond hd (.candidates d (d.document.text.offsetAt position)) rfl s.storage
      dsimp only
      split <;> exact hasked

/-- All that a command can do to a session. -/
theorem run_cases
    (c : Command) :
    (∃ name d, s.Opens c name d) ∨ ((¬ ∃ name d, s.Opens c name d) ∧ s.Idles (s.run c).1) := by
  by_cases hopens : ∃ name d, s.Opens c name d
  · exact Or.inl hopens
  · refine Or.inr ⟨hopens, ?_⟩
    cases c with
    | load name =>
        cases name with
        | none => exact s.idles_self
        | some name =>
            cases hload : loadFile s.voice s.storage name with
            | error fault =>
                rw [run, load, hload]
                exact s.idles_self
            | ok result =>
                cases hdocument : result.document with
                | none =>
                    rw [run, s.load_of_refused hload hdocument]
                    exact s.idles_self
                | some d => exact absurd ⟨name, d, rfl, result, hload, hdocument⟩ hopens
    | validate report => exact s.idles_validate report
    | states =>
        refine s.idles_withDocument fun d _ => ?_
        split
        · exact s.idles_self
        · split <;> exact s.idles_self
    | scope state =>
        cases state with
        | none => exact s.idles_self
        | some state => exact s.idles_scope state
    | complete place =>
        cases place with
        | none => exact s.idles_self
        | some place => exact s.idles_complete place
    | remote =>
        refine s.idles_withDocument fun d _ => ?_
        split
        · exact s.idles_self
        · split
          · split
            · exact s.idles_sayFirst s.idles_self _ s.idles_self
            · exact s.idles_self
          · exact s.idles_self
    | _ => exact s.idles_self

end Step

/-! ## The service of a session -/

/-- A session whose service keeps a workflow with its own reverse adjacency.  What it has on record
is the present document, as soon as it is on record under the identity of the present document. -/
structure Coherent (s : Session) : Prop where
  schema : s.service.schema = Tables.packaged
  lenient : s.service.lenient = false
  built : s.service.snapshot = Snapshot.ofWorkflow s.service.snapshot.workflow
  issued : ∀ d, s.document = some d → d.identity < s.loaded
  recorded : ∀ key, s.service.resolved = some key → key.1 < s.loaded ∧
    ∀ d, s.document = some d → d.key = key →
      s.service.snapshot.workflow = d.document.workflow

section Coherence

variable {s : Session}

theorem coherent_new
    (output : Output) (colors : Bool) (storage : Storage) (remote : RemoteAnswer) :
    (new output colors storage remote).Coherent where
  schema := rfl
  lenient := rfl
  built := rfl
  issued _ h := by cases h
  recorded _ h := by cases h

theorem Coherent.idles
    (h : s.Coherent) {s' : Session} (hidles : s.Idles s') :
    s'.Coherent := by
  obtain ⟨service, storage, rfl, hservice⟩ := hidles
  rcases hservice with rfl | ⟨d, hd, rfl⟩
  · exact ⟨h.schema, h.lenient, h.built, h.issued, h.recorded⟩
  -- a service that is asked about the present document puts this document on record
  · obtain ⟨hlenient, hschema⟩ := s.service.refresh_settings d
    unfold Service.refresh at hlenient hschema ⊢
    dsimp only at hlenient hschema ⊢
    split
    · exact ⟨h.schema, h.lenient, h.built, h.issued, h.recorded⟩
    · refine ⟨h.schema, h.lenient, rfl, h.issued, fun key hkey => ?_⟩
      rw [Option.some.injEq] at hkey
      refine ⟨hkey ▸ h.issued d hd, fun other hother _ => ?_⟩
      rw [hd, Option.some.injEq] at hother
      rw [← hother]
      rfl

/-- A new document has an identity that is not on record yet. -/
theorem Coherent.opens
    (h : s.Coherent) (d : Document) (name : Text) :
    ({ s with document := some ⟨s.loaded, d⟩, path := some name, loaded := s.loaded + 1 } :
      Session).Coherent where
  schema := h.schema
  lenient := h.lenient
  built := h.built
  issued opened hopened := by
    cases hopened
    exact Nat.lt_succ_self _
  recorded key hkey := by
    -- what is on record is older than any document that is still to come
    have hold := (h.recorded key hkey).1
    refine ⟨Nat.lt_succ_of_lt hold, fun opened hopened heq => ?_⟩
    cases hopened
    exact absurd (heq ▸ hold) (Nat.lt_irrefl _)

/-- One more event leaves a coherent session coherent. -/
theorem Coherent.next
    (h : s.Coherent) (e : Event) :
    (s.next e).Coherent := by
  cases e with
  | typed line =>
      rcases s.run_cases (Command.ofLine line) with ⟨name, d, hopens⟩ | ⟨-, hidles⟩
      · rw [Session.next, s.run_of_opens hopens]
        exact h.opens d name
      · exact h.idles hidles
  | changed storage remote => exact ⟨h.schema, h.lenient, h.built, h.issued, h.recorded⟩

theorem coherent_after
    (output : Output) (colors : Bool) (storage : Storage) (remote : RemoteAnswer)
    (events : List Event) :
    ((new output colors storage remote).after events).Coherent := by
  induction events using List.reverseRecOn with
  | nil => exact coherent_new output colors storage remote
  | append_singleton events e ih =>
      rw [after_concat]
      exact ih.next e

/-- The service of a coherent session answers a question about the document as a new one does. -/
theorem Coherent.respond_snd
    (h : s.Coherent) (request : Service.Request) (hd : s.document = some request.opened) :
    (s.service.respond request).2 =
      ((Service.new false Tables.packaged).respond request).2 := by
  refine Service.respond_snd_congr h.lenient h.schema ?_
  have hnew : ((Service.new false Tables.packaged).refresh request.opened).snapshot =
      Snapshot.ofWorkflow request.opened.document.workflow := rfl
  rw [hnew]
  unfold Service.refresh
  dsimp only
  split
  · next hknown =>
      rw [beq_iff_eq] at hknown
      rw [h.built, (h.recorded _ hknown).2 _ hd rfl]
  · rfl

end Coherence

/-! ## Replies -/

/-- A reply about the document, or the advice to load one. -/
def about (s : Session) (answer : OpenDocument → Reply) : Reply :=
  match s.document with
  | some d => answer d
  | none => s.output.print [noDocument]

section Replies

variable (s : Session)

theorem withDocument_snd
    (answer : OpenDocument → Session × Reply) :
    (s.withDocument answer).2 = s.about fun d => (answer d).2 := by
  unfold withDocument about
  cases s.document <;> rfl

theorem about_of_some
    {s : Session} {d : OpenDocument} (h : s.document = some d) (answer : OpenDocument → Reply) :
    s.about answer = answer d := by
  rw [about, h]

/-- Every output takes the advice to load a document. -/
theorem about_of_none
    {s : Session} (h : s.document = none) (answer : OpenDocument → Reply) :
    s.about answer = .said noDocument := by
  have hyellow : Terminal.yellow.hasSurrogate = false := rfl
  have hadvice : noDocument.hasSurrogate = false := by
    rw [noDocument, Terminal.hasSurrogate_paintLine hyellow, Text.hasSurrogate_ofString]
  rw [about, h]
  exact Output.print_of_hasSurrogate hadvice

theorem about_congr
    {s s' : Session} {answer answer' : OpenDocument → Reply} (h : s.document = s'.document)
    (houtput : s.output = s'.output)
    (hanswer : ∀ d, s.document = some d → answer d = answer' d) :
    s.about answer = s'.about answer' := by
  unfold about
  rw [← h, ← houtput]
  split
  · next d hd => exact hanswer d hd
  · rfl

theorem sayFirst_snd
    (texts : List Text) (next : Session × Reply) :
    (s.sayFirst texts next).2 = s.output.printFirst texts next.2 := by
  unfold sayFirst Output.printFirst
  dsimp only
  cases (s.output.print texts).goesOn <;> rfl

/-- What is said about a saved report does not depend on the service. -/
theorem save_snd
    (service : Service) (report name : Text) :
    (({ s with service := service } : Session).save report name).2 = (s.save report name).2 := by
  unfold save
  dsimp only
  split
  · rfl
  · split
    · split <;> rfl
    · rfl

theorem validate_snd
    (report : Option Text) :
    (s.validate report).2 = s.about fun d =>
      match (s.service.validate d).2 >>= Listing.text s.style s.path with
      | .error fault => .failed fault
      | .ok listing =>
        s.output.printFirst [Terminal.line listing]
          (report.elim (.said []) fun name => (s.save listing name).2) := by
  rw [validate, withDocument_snd]
  refine about_congr rfl rfl fun d _ => ?_
  have hstyle : ({ s with service := (s.service.validate d).1 } : Session).style = s.style := rfl
  dsimp only
  rw [hstyle]
  cases (s.service.validate d).2 >>= Listing.text s.style s.path with
  | error fault => rfl
  | ok listing =>
      dsimp only
      rw [sayFirst_snd]
      cases report with
      | none => rfl
      | some name =>
          dsimp only
          rw [save_snd]
          rfl

theorem states_snd :
    s.states.2 = s.about fun d =>
      match allStates d.document.workflow with
      | [] =>
        s.output.print
          [Terminal.paintLine Terminal.yellow "⚠️  The document declares no states"]
      | visits =>
        match visits.mapM stateLine with
        | .ok lines => s.output.print lines
        | .error fault => .failed fault := by
  rw [states, withDocument_snd]
  refine about_congr rfl rfl fun d _ => ?_
  cases allStates d.document.workflow with
  | nil => rfl
  | cons v visits =>
      dsimp only
      cases (v :: visits).mapM stateLine <;> rfl

theorem scope_snd
    (state : Text) :
    (s.scope state).2 = s.about fun d =>
      match Reference.ofWritten state with
      | .error fault => .failed fault
      | .ok reference =>
        match (s.service.variableScope d reference none).2 >>=
            Drawing.text s.style (some reference.written) with
        | .error fault => .failed fault
        | .ok drawing => s.output.print [Terminal.line drawing] := by
  rw [scope, withDocument_snd]
  refine about_congr rfl rfl fun d _ => ?_
  cases Reference.ofWritten state with
  | error fault => rfl
  | ok reference =>
      have hstyle : ({ s with service := (s.service.variableScope d reference none).1 } :
          Session).style = s.style := rfl
      dsimp only
      rw [hstyle]
      cases (s.service.variableScope d reference none).2 >>=
        Drawing.text s.style (some reference.written) <;> rfl

theorem complete_snd
    (place : Text) :
    (s.complete place).2 = s.about fun d =>
      match Position.ofWritten place with
      | .error fault => .failed fault
      | .ok none =>
        s.output.print
          [Terminal.paintLine Terminal.red "❌ Line and column must be positive numbers"]
      | .ok (some position) =>
        let offset : Int := d.document.text.offsetAt position
        match (s.service.variablesAt d offset).2 with
        | .error fault => .failed fault
        | .ok found =>
          s.output.print
            (candidateLines place (s.service.stateNamesAt d.document offset) found) := by
  rw [complete, withDocument_snd]
  refine about_congr rfl rfl fun d _ => ?_
  cases Position.ofWritten place with
  | error fault => rfl
  | ok position =>
      cases position with
      | none => rfl
      | some position =>
          dsimp only
          cases (s.service.variablesAt d (d.document.text.offsetAt position)).2 <;> rfl

theorem askRemote_snd :
    s.askRemote.2 = s.about fun d =>
      match Remote.check ⟨true, true⟩ (.onDemand none) s.remote d.document with
      | .error fault => .failed fault
      | .ok report =>
        if report.success && !report.diagnostics.isEmpty then
          match Listing.text s.style (some "AWS Step Functions") report.diagnostics with
          | .error fault => s.output.printFirst report.printed (.failed fault)
          | .ok listing => s.output.print (report.printed ++ [Terminal.line listing])
        else s.output.print report.printed := by
  rw [askRemote, withDocument_snd]
  refine about_congr rfl rfl fun d _ => ?_
  cases Remote.check ⟨true, true⟩ (.onDemand none) s.remote d.document with
  | error fault => rfl
  | ok report =>
      dsimp only
      split
      · cases Listing.text s.style (some "AWS Step Functions") report.diagnostics with
        | error fault => exact s.sayFirst_snd _ _
        | ok listing => rfl
      · rfl

end Replies

section Coherence

variable {s : Session}

/-- A coherent session replies as if its service had not been asked anything before. -/
theorem Coherent.run_snd
    (h : s.Coherent) (c : Command) :
    (s.run c).2 = (s.forgetting.run c).2 := by
  have hstyle : s.forgetting.style = s.style := rfl
  have hpath : s.forgetting.path = s.path := rfl
  have hstorage : s.forgetting.storage = s.storage := rfl
  have houtput : s.forgetting.output = s.output := rfl
  cases c with
  | load name =>
      cases name with
      | none => rfl
      | some name =>
          have hvoice : s.forgetting.voice = s.voice := rfl
          rw [run, run, load, load, hvoice, hstorage]
          split
          · rfl
          · rw [sayFirst_snd, sayFirst_snd, houtput]
            split <;> rfl
  | validate report =>
      rw [run, run, validate_snd, validate_snd, hstyle, hpath]
      refine about_congr rfl rfl fun d hd => ?_
      have hfound : (s.service.validate d).2 = (s.forgetting.service.validate d).2 :=
        Service.Answer.validation.inj (h.respond_snd (.validation d) hd)
      have hsave : ∀ listing name, (s.forgetting.save listing name).2 = (s.save listing name).2 :=
        s.save_snd (Service.new false Tables.packaged)
      simp only [hfound, hsave, houtput]
  | states =>
      rw [run, run, states_snd, states_snd]
      exact about_congr rfl rfl fun d _ => rfl
  | scope state =>
      cases state with
      | none => rfl
      | some state =>
          rw [run, run, scope_snd, scope_snd, hstyle]
          refine about_congr rfl rfl fun d hd => ?_
          have hfound : ∀ reference, (s.service.variableScope d reference none).2 =
              (s.forgetting.service.variableScope d reference none).2 := fun reference =>
            Service.Answer.scope.inj (h.respond_snd (.scope d reference none) hd)
          simp only [hfound, houtput]
  | complete place =>
      cases place with
      | none => rfl
      | some place =>
          rw [run, run, complete_snd, complete_snd]
          refine about_congr rfl rfl fun d hd => ?_
          have hnames : ∀ offset, s.service.stateNamesAt d.document offset =
              s.forgetting.service.stateNamesAt d.document offset := fun offset =>
            Service.Answer.stateNames.inj (h.respond_snd (.stateNames d offset) hd)
          have hfound : ∀ offset, (s.service.variablesAt d offset).2 =
              (s.forgetting.service.variablesAt d offset).2 := fun offset =>
            Service.Answer.candidates.inj (h.respond_snd (.candidates d offset) hd)
          simp only [hnames, hfound, houtput]
  | remote =>
      rw [run, run, askRemote_snd, askRemote_snd]
      exact about_congr rfl rfl fun d _ => rfl
  | _ => rfl

end Coherence

/-! ## The last load -/

/-- No line among some events loads a document. -/
def LoadsNothing : Session → List Event → Prop
  | _, [] => True
  | s, .typed line :: events =>
    (¬ ∃ name d, s.Opens (Command.ofLine line) name d) ∧
      (s.next (.typed line)).LoadsNothing events
  | s, .changed storage remote :: events => (s.next (.changed storage remote)).LoadsNothing events

/-- The last line among some events that loads a document. -/
def LastLoad (s : Session) (events : List Event) (name : Text) (d : Document) : Prop :=
  ∃ before line later, events = before ++ .typed line :: later ∧
    (s.after before).Opens (Command.ofLine line) name d ∧
    ((s.after before).next (.typed line)).LoadsNothing later

section LastLoad

variable (s : Session)

theorem loadsNothing_or_lastLoad
    (events : List Event) :
    s.LoadsNothing events ∨ ∃ name d, s.LastLoad events name d := by
  induction events generalizing s with
  | nil => exact Or.inl trivial
  | cons e events ih =>
      -- the first event matters only when no later one loads
      rcases ih (s.next e) with hnothing | ⟨name, d, before, line, later, rfl, hopens, hnothing⟩
      · cases e with
        | changed storage remote => exact Or.inl hnothing
        | typed line =>
            by_cases hopens : ∃ name d, s.Opens (Command.ofLine line) name d
            · obtain ⟨name, d, hopens⟩ := hopens
              exact Or.inr ⟨name, d, [], line, events, rfl, hopens, hnothing⟩
            · exact Or.inl ⟨hopens, hnothing⟩
      · exact Or.inr ⟨name, d, e :: before, line, later, rfl, hopens, hnothing⟩

/-- The document and its name stay as they are until the next load. -/
theorem shown_of_loadsNothing
    {events : List Event} (h : s.LoadsNothing events) :
    (s.after events).document = s.document ∧ (s.after events).path = s.path := by
  induction events generalizing s with
  | nil => exact ⟨rfl, rfl⟩
  | cons e events ih =>
      cases e with
      | changed storage remote => exact ih _ h
      | typed line =>
          obtain ⟨hopens, hnothing⟩ := h
          rcases s.run_cases (Command.ofLine line) with hload | ⟨-, service, storage, heq, -⟩
          · exact absurd hload hopens
          · obtain ⟨hdocument, hpath⟩ := ih _ hnothing
            rw [next, heq] at hdocument hpath
            exact ⟨by rw [after, List.foldl_cons, next, heq]; exact hdocument,
              by rw [after, List.foldl_cons, next, heq]; exact hpath⟩

theorem shown_of_lastLoad
    {events : List Event} {name : Text} {d : Document} (h : s.LastLoad events name d) :
    (s.after events).path = some name ∧
      ∃ identity, (s.after events).document = some ⟨identity, d⟩ := by
  obtain ⟨before, line, later, rfl, hopens, hnothing⟩ := h
  obtain ⟨hdocument, hpath⟩ := shown_of_loadsNothing _ hnothing
  have hafter : s.after (before ++ .typed line :: later) =
      ((s.after before).next (.typed line)).after later := s.after_append before _
  rw [hafter, hdocument, hpath, next, run_of_opens _ hopens]
  exact ⟨rfl, _, rfl⟩

end LastLoad

/-- A load that is refused is not seen by anything that comes after it.  Inserting it among any
events leaves the session at the end and all other replies as they are.  And at every point the
document and its name are those of the last load that succeeded, and the reply to any command is
that of a session which has kept nothing else. -/
theorem refused_load_unseen
    (output : Output) (colors : Bool) (storage : Storage) (remote : RemoteAnswer) :
    let start := new output colors storage remote
    (∀ before line later, (start.after before).Refuses (Command.ofLine line) →
      start.after (before ++ .typed line :: later) = start.after (before ++ later) ∧
        ∃ reply, reply.goesOn = .ok true ∧
          start.replies (before ++ .typed line :: later) =
            start.replies before ++ reply :: (start.after before).replies later ∧
          start.replies (before ++ later) =
            start.replies before ++ (start.after before).replies later) ∧
    ∀ events,
      ((start.LoadsNothing events ∧
          (start.after events).document = none ∧ (start.after events).path = none) ∨
        ∃ name d identity, start.LastLoad events name d ∧
          (start.after events).document = some ⟨identity, d⟩ ∧
          (start.after events).path = some name) ∧
      ∀ c, ((start.after events).run c).2 = ((start.after events).forgetting.run c).2 := by
  intro start
  refine ⟨fun before line later hrefuses => ?_, fun events => ⟨?_, ?_⟩⟩
  · obtain ⟨hsame, hgoesOn⟩ := run_of_refuses _ hrefuses
    have hnext : (start.after before).next (.typed line) = start.after before := hsame
    have hlater : (start.after before).after (.typed line :: later) =
        ((start.after before).next (.typed line)).after later := rfl
    refine ⟨?_, ((start.after before).run (Command.ofLine line)).2, hgoesOn, ?_,
      replies_append _ before later⟩
    · rw [after_append, after_append, hlater, hnext]
    · rw [replies_append, replies, hnext]
  · rcases start.loadsNothing_or_lastLoad events with hnothing | ⟨name, d, hlast⟩
    · obtain ⟨hdocument, hpath⟩ := shown_of_loadsNothing _ hnothing
      exact Or.inl ⟨hnothing, hdocument, hpath⟩
    · obtain ⟨hpath, identity, hdocument⟩ := shown_of_lastLoad _ hlast
      exact Or.inr ⟨name, d, identity, hlast, hdocument, hpath⟩
  · exact (coherent_after output colors storage remote events).run_snd

/-- A second file is gone when it is to be loaded: questions about the first one do not notice. -/
theorem refused_load_unseen_missing :
    let start := new .bytes false [("a.json", .file [123, 125])] (.fault .interrupted)
    let before : List Event := [.typed "load a.json", .changed [] (.fault .interrupted)]
    (start.after before).Refuses (Command.ofLine "load b.json") ∧
      start.after (before ++ [.typed "load b.json", .typed "validate", .typed "scope A"]) =
        start.after (before ++ [.typed "validate", .typed "scope A"]) := by
  intro start before
  have hcommand : Command.ofLine "load b.json" = .load (some "b.json") := rfl
  have hmissing (voice : Terminal.Voice) : loadFile voice [] "b.json" =
      .ok (Loaded.failed voice
        ("Error reading file: " ++ FileProblem.missing.message "b.json")) := rfl
  have hrefuses : (start.after before).Refuses (Command.ofLine "load b.json") :=
    ⟨"b.json", _, hcommand, hmissing _, rfl⟩
  exact ⟨hrefuses, ((refused_load_unseen .bytes false _ _).1 before "load b.json"
    [.typed "validate", .typed "scope A"] hrefuses).1⟩

end Session

end Workflow
