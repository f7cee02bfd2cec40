import Workflow.Proofs.AnsweredCommands

/-!
# Where a session ends

A session is meant to go on until its user quits: what is wrong with the arguments of a command,
with a file or with a document is printed.  `Session.Problem` lists what is told in this way.  But
the commands that are listed as unanswered end the session, and these are all that do.
-/

namespace Workflow

/-- The first word of a line decides whether it is there to quit. -/
theorem Command.ofLine_eq_quit_iff
    (line : Text) :
    ofLine line = .quit ↔ ∃ word ∈ line.words.head?, word.lower = "quit" ∨ word.lower = "exit" := by
  rw [ofLine]
  cases line.words with
  | nil => simp
  | cons first arguments =>
      dsimp only
      rw [List.head?_cons]
      simp only [Option.mem_some_iff, exists_eq_left']
      generalize first.lower = word
      constructor
      · intro h
        repeat' split at h
        all_goals cases h
        next hquit => simpa using hquit
      · rintro (rfl | rfl) <;> rfl

namespace Session

/-! ## What is told -/

/-- What is wrong with a command, with a file or with the document, and how it is told. -/
inductive Problem (s : Session) : Command → Text → Prop where
  | noFile : Problem s (.load none) "Usage: load <file>"
  | noState : Problem s (.scope none) "Usage: scope <state id | path/with/segments>"
  | noPlace : Problem s (.complete none) "Usage: complete <line>:<column>"
  | unknown {word : Text} : Problem s (.unknown word)
      ("❌ Unknown command: " ++ word ++ ". Type 'help' for the list of commands.")
  | refused {name message : Text} {result : Loaded}
      (hload : loadFile s.voice s.storage name = .ok result) (h : result.document = none)
      (hmessage : message ∈ result.errors) : Problem s (.load (some name)) ("❌ " ++ message)
  | noDocument {c : Command} (hc : c.isAbout = true) (h : s.document = none) :
      Problem s c "⚠️  No document loaded. Use 'load <file>' first."
  | finding {d : OpenDocument} {ds : List Diagnostic} {e : Diagnostic} {message : Text}
      {report : Option Text} (hd : s.document = some d) (hds : (s.service.validate d).2 = .ok ds)
      (he : e ∈ ds) (h : e.message = .str message) : Problem s (.validate report) message
  | unsaved {d : OpenDocument} {name : Text} {problem : FileProblem} (hd : s.document = some d)
      (hname : FileName.fault? name = none) (h : s.storage.write name [] = .error problem) :
      Problem s (.validate (some name)) ("❌ Error saving report: " ++ problem.message name)
  | noStates {d : OpenDocument} (hd : s.document = some d)
      (h : allStates d.document.workflow = []) :
      Problem s .states "⚠️  The document declares no states"
  | noNumbers {d : OpenDocument} {place : Text} (hd : s.document = some d)
      (h : Position.ofWritten place = .ok none) :
      Problem s (.complete (some place)) "❌ Line and column must be positive numbers"

section Told

variable {s : Session}

/-- Without a document, a command about the document advises to load one. -/
theorem run_snd_of_isAbout
    {c : Command} (hc : c.isAbout = true) (h : s.document = none) :
    (s.run c).2 = .said noDocument := by
  cases c with
  | validate report =>
      rw [run, validate_snd]
      exact about_of_none h _
  | states =>
      rw [run, states_snd]
      exact about_of_none h _
  | scope state =>
      cases state with
      | none => cases hc
      | some state =>
          rw [run, scope_snd]
          exact about_of_none h _
  | complete place =>
      cases place with
      | none => cases hc
      | some place =>
          rw [run, complete_snd]
          exact about_of_none h _
  | remote =>
      rw [run, askRemote_snd]
      exact about_of_none h _
  | _ => cases hc

/-- A text that the output takes is told in any colour. -/
theorem infix_print_paintLine
    {output : Output} {color t : Text} (hcolor : color.hasSurrogate = false)
    (ht : ¬ output.Rejects t) :
    t <:+: (output.print [Terminal.paintLine color t]).printed := by
  have haccepted : ∀ u ∈ [Terminal.paintLine color t], ¬ output.Rejects u := by
    rw [List.forall_mem_singleton, Output.Rejects, Terminal.hasSurrogate_paintLine hcolor]
    exact ht
  rw [Output.print_of_accepted haccepted]
  exact (Terminal.infix_paintLine color t).trans (List.infix_of_mem_flatten List.mem_cons_self)

/-- A listing under a name that the output takes is printed before it is saved. -/
theorem printed_validate
    {d : OpenDocument} {listing : Text} {report : Option Text} (hd : s.document = some d)
    (hmade : (s.service.validate d).2 >>= Listing.text s.style s.path = .ok listing)
    (hbytes : listing.hasSurrogate = s.path.any Text.hasSurrogate)
    (hprint : ¬ s.Unprintable (.validate report)) :
    (s.validate report).2.printed = Terminal.line listing ++
      (report.elim [] fun name => (s.save listing name).2.printed) := by
  rw [s.unprintable_validate_iff hd, not_or] at hprint
  have haccepted : ∀ t ∈ [Terminal.line listing], ¬ s.output.Rejects t := by
    rw [List.forall_mem_singleton, Output.Rejects, Terminal.hasSurrogate_line, hbytes]
    exact hprint.1
  have hflat : [Terminal.line listing].flatten = Terminal.line listing := List.append_nil _
  rw [validate_snd, about_of_some hd, hmade]
  dsimp only
  rw [Output.printFirst_of_accepted haccepted, hflat]
  cases report <;> rfl

/-- What is wrong is told, unless the command shows a text that the output does not take. -/
theorem Coherent.printed_of_problem
    (h : s.Coherent) {c : Command} {message : Text} (hproblem : s.Problem c message)
    (hprint : ¬ s.Unprintable c) :
    message <:+: (s.run c).2.printed := by
  have hclean {t : Text} (ht : t.hasSurrogate = false) : ¬ s.output.Rejects t :=
    Output.not_rejects_of_hasSurrogate ht
  cases hproblem with
  | noFile | noState | noPlace =>
      exact infix_print_paintLine rfl (hclean (Text.hasSurrogate_ofString _))
  | @unknown word =>
      refine infix_print_paintLine rfl fun hrejects => hprint ⟨word, .word, ?_⟩
      simpa [Output.Rejects] using hrejects
  | @refused name message result hload hdocument hmessage =>
      rw [run, s.load_of_refused hload hdocument]
      have hline : Terminal.paintLine Terminal.red ("❌ " ++ message) ∈ result.errors.map fun e =>
          Terminal.paintLine Terminal.red ("❌ " ++ e) := List.mem_map_of_mem hmessage
      exact ((Terminal.infix_paintLine _ _).trans (List.infix_of_mem_flatten hline)).trans
        (List.suffix_append _ _).isInfix
  | noDocument hc hnone =>
      rw [run_snd_of_isAbout hc hnone]
      exact Terminal.infix_paintLine _ _
  | @finding d ds e message report hd hds he hmessage =>
      obtain ⟨ds', listing, hds', hlisting, hbytes, hshows⟩ := s.exists_listing h.schema d
      rw [hds] at hds'
      cases hds'
      rw [run, printed_validate hd (by rw [hds]; exact hlisting) hbytes hprint]
      have hline : message <:+: Terminal.line listing :=
        (hshows e he message hmessage).trans (List.prefix_append _ _).isInfix
      exact hline.trans (List.prefix_append _ _).isInfix
  | @unsaved d name problem hd hname hwrite =>
      obtain ⟨ds, listing, hds, hlisting, hbytes, -⟩ := s.exists_listing h.schema d
      rw [run, printed_validate hd (by rw [hds]; exact hlisting) hbytes hprint]
      have hsaved : ("❌ Error saving report: " : Text) ++ problem.message name <:+:
          (s.save listing name).2.printed := by
        rw [save, hname]
        rcases s.storage.write_cases name with ⟨problem', hfails⟩ | ⟨full, hwrites⟩
        · rw [hfails] at hwrite
          cases hwrite
          dsimp only
          rw [hfails]
          exact infix_print_paintLine rfl (hclean (by simp [problem.hasSurrogate_message]))
        · rw [hwrites] at hwrite
          cases hwrite
      exact hsaved.trans (List.suffix_append _ _).isInfix
  | noStates hd hnone =>
      rw [run, states_snd, about_of_some hd, hnone]
      exact infix_print_paintLine rfl (hclean (Text.hasSurrogate_ofString _))
  | noNumbers hd hplace =>
      rw [run, complete_snd, about_of_some hd, hplace]
      exact infix_print_paintLine rfl (hclean (Text.hasSurrogate_ofString _))

end Told

/-! ## Every line -/

/-- What a line does to a session, whatever was typed before and whatever stands in the files.  The
session comes to a fault exactly with the commands that are listed as unanswered.  Otherwise it goes
on, unless the first word of the line is there to quit.  And what is wrong is told, unless the
output does not take what the command shows. -/
theorem faults_iff_unanswered
    (output : Output) (colors : Bool) (storage : Storage) (remote : RemoteAnswer)
    (events : List Event) (line : Text) (hremote : Command.ofLine line ≠ .remote) :
    let s := (new output colors storage remote).after events
    let reply := (s.run (Command.ofLine line)).2
    (Faults reply.goesOn ↔ s.Unanswered (Command.ofLine line)) ∧
      (reply.goesOn = .ok false ↔
        ∃ word ∈ line.words.head?, word.lower = "quit" ∨ word.lower = "exit") ∧
      (¬ s.Unprintable (Command.ofLine line) →
        ∀ message, s.Problem (Command.ofLine line) message → message <:+: reply.printed) := by
  intro s reply
  have hcoherent : s.Coherent := coherent_after output colors storage remote events
  refine ⟨?_, ?_, fun hprint message hproblem => hcoherent.printed_of_problem hproblem hprint⟩
  -- quitting is the one command that ends a session without a fault
  · by_cases hquit : Command.ofLine line = .quit
    · have hreply : reply.goesOn = .ok false := by
        simp only [reply, hquit]
        rfl
      rw [hreply, hquit]
      exact iff_of_false (not_faults_ok false) nofun
    · exact (hcoherent.goesOnUnless hquit hremote).faults
  · rw [← Command.ofLine_eq_quit_iff]
    constructor
    · intro hends
      by_contra hquit
      exact (hcoherent.goesOnUnless hquit hremote).stays hends
    · intro hquit
      simp only [reply, hquit]
      rfl

/-- A file with an empty object, and a file whose only byte starts no character. -/
def twoFiles : Storage := [("a.json", .file [0x7B, 0x7D]), ("b.json", .file [0xFF])]

/-- A session into which the first one of the files was loaded. -/
theorem after_load_twoFiles
    (remote : RemoteAnswer) :
    ∃ d, (new .bytes false twoFiles remote).after [.typed "load a.json"] =
      { new .bytes false twoFiles remote with
        document := some ⟨0, d⟩, path := some "a.json", loaded := 1 } := by
  let d : Document := ⟨['{', '}'], .json, some (.object ⟨0, 2⟩ []), 0⟩
  have hcommand : Command.ofLine "load a.json" = .load (some "a.json") := rfl
  have hopens : (new .bytes false twoFiles remote).Opens (Command.ofLine "load a.json")
      "a.json" d := ⟨hcommand, ⟨some d, [], _⟩, rfl, rfl⟩
  exact ⟨d, run_of_opens _ hopens⟩

/-- A letter in the place of a line is told to the user, and the session goes on. -/
theorem faults_iff_unanswered_noNumbers :
    Command.ofLine "complete x:1" ≠ .remote ∧
      ¬ Faults (((new .bytes false twoFiles (.fault .interrupted)).after
        [.typed "load a.json"]).run (Command.ofLine "complete x:1")).2.goesOn ∧
      ("❌ Line and column must be positive numbers" : Text) <:+:
        (((new .bytes false twoFiles (.fault .interrupted)).after [.typed "load a.json"]).run
          (Command.ofLine "complete x:1")).2.printed := by
  obtain ⟨d, hs⟩ := after_load_twoFiles (.fault .interrupted)
  have hcommand : Command.ofLine "complete x:1" = .complete (some "x:1") := rfl
  have hplace : Position.ofWritten "x:1" = .ok none := rfl
  have hremote : Command.ofLine "complete x:1" ≠ .remote := by
    rw [hcommand]
    nofun
  obtain ⟨hfaults, -, htold⟩ := faults_iff_unanswered .bytes false twoFiles (.fault .interrupted)
    [.typed "load a.json"] "complete x:1" hremote
  rw [hcommand, hs] at hfaults htold ⊢
  -- nothing is shown at a place that is no position
  have hprint : ¬ Unprintable { new .bytes false twoFiles (.fault .interrupted) with
      document := some ⟨0, d⟩, path := some "a.json", loaded := 1 } (.complete (some "x:1")) := by
    rintro ⟨t, hprints, -⟩
    cases hprints with
    | candidate _ hposition | item _ hposition | parent _ hposition =>
        rw [hplace] at hposition
        cases hposition
  refine ⟨by nofun, fun h => ?_, htold hprint _ (.noNumbers rfl hplace)⟩
  cases hfaults.mp h with
  | print h => exact hprint h
  | position _ hline => exact absurd hline (by decide)
  | path _ hposition =>
      rw [hplace] at hposition
      cases hposition

/-- A file with a state whose id is half of a surrogate pair. -/
def halfFile : Storage :=
  [("c.json", .file (Text.bytes "\x7b\"States\":\x7b\"\\ud83d\":\x7b\x7d\x7d\x7d"))]

/-- A session that writes bytes, into which this file was loaded, cannot print the path of the
state. -/
theorem unanswered_states_halfFile :
    ((new .bytes false halfFile (.fault .interrupted)).after [.typed "load c.json"]).Unanswered
      .states := by
  have hfacts : ((new .bytes false halfFile (.fault .interrupted)).after
        [.typed "load c.json"]).document.any (fun d =>
          (allStates d.document.workflow).any fun v => v.path.written.hasSurrogate) = true ∧
      ((new .bytes false halfFile (.fault .interrupted)).after
        [.typed "load c.json"]).output = .bytes := by
    decide +kernel
  obtain ⟨hdocument, houtput⟩ := hfacts
  obtain ⟨d, hd, hstates⟩ := (Option.any_eq_true _ _).mp hdocument
  obtain ⟨v, hv, hsurrogate⟩ := List.any_eq_true.mp hstates
  exact .print ⟨_, .path hd hv, houtput, hsurrogate⟩

/-- With a document, an ornamental digit ends the session, and so does a file whose bytes are no
text.  The list of states ends it when there is a surrogate in an id. -/
theorem ended_without_quit :
    let s := (new .bytes false twoFiles (.fault .interrupted)).after [.typed "load a.json"]
    Faults (s.run (Command.ofLine "complete ²:1")).2.goesOn ∧
      Faults (s.run (Command.ofLine "scope A/²")).2.goesOn ∧
      Faults (s.run (Command.ofLine "load b.json")).2.goesOn ∧
      Faults (((new .bytes false halfFile (.fault .interrupted)).after
        [.typed "load c.json"]).run (Command.ofLine "states")).2.goesOn := by
  intro s
  obtain ⟨d, hs⟩ := after_load_twoFiles (.fault .interrupted)
  have hd : s.document = some ⟨0, d⟩ := congrArg Session.document hs
  have hstorage : s.storage = twoFiles := congrArg Session.storage hs
  have hornamental : Numeral.Unread "²" := Or.inl ⟨0xB2, List.mem_singleton_self _, rfl⟩
  have hcoherent : s.Coherent := coherent_after .bytes false _ _ [.typed "load a.json"]
  have hposition : s.Unanswered (.complete (some "²:1")) :=
    .position hd rfl rfl (Or.inl hornamental)
  have hpiece : ("²" : Text) ∈ Text.splitOn '/' "A/²" :=
    List.mem_cons_of_mem _ List.mem_cons_self
  have hsegment : s.Unanswered (.scope (some "A/²")) := .segment hd rfl hpiece rfl hornamental
  have hbytes : s.Unanswered (.load (some "b.json")) :=
    .file (.bytes [0xFF] ⟨0xFF, 0, 1, .start⟩ (by rw [hstorage]; rfl) rfl)
  have hcomplete : Command.ofLine "complete ²:1" = .complete (some "²:1") := rfl
  have hscope : Command.ofLine "scope A/²" = .scope (some "A/²") := rfl
  have hload : Command.ofLine "load b.json" = .load (some "b.json") := rfl
  have hstates : Command.ofLine "states" = .states := rfl
  have hhalf : Coherent ((new .bytes false halfFile (.fault .interrupted)).after
      [.typed "load c.json"]) := coherent_after .bytes false _ _ _
  rw [hcomplete, hscope, hload, hstates]
  exact ⟨(hcoherent.goesOnUnless (c := .complete (some "²:1")) nofun nofun).faults.mpr hposition,
    (hcoherent.goesOnUnless (c := .scope (some "A/²")) nofun nofun).faults.mpr hsegment,
    (hcoherent.goesOnUnless (c := .load (some "b.json")) nofun nofun).faults.mpr hbytes,
    (hhalf.goesOnUnless (c := .states) nofun nofun).faults.mpr unanswered_states_halfFile⟩

end Session

end Workflow
