import Workflow.Session

/-!
# The interactive program

The program loads the file that it is started with, greets the user, and runs commands until one of
them ends the session.  An input that is cancelled, or that ends, counts as the command to quit.
A fault ends the program with a message and the exit code one.
-/

namespace Workflow

namespace Program

open Terminal (line paint paintLine red yellow cyan)

/-- The width of the frame around the greeting. -/
def frameWidth : Nat := 78

/-- A line inside the frame. -/
def framed (t : Text) : Text :=
  line (("║" : Text) ++ t ++ Text.copies (frameWidth - t.length) ' ' ++ "║")

/-- The greeting. -/
def banner : Text :=
  let bar := Text.copies frameWidth '═'
  let frame : Text :=
    line ("╔" ++ bar ++ "╗") ++ framed [] ++
      framed "        ASL Semantics Analyzer" ++ framed [] ++
      framed "    Validate state machine definitions, resolve variable scopes and" ++
      framed "    explore completion candidates." ++ framed [] ++ "╚" ++ bar ++ "╝"
  line [] ++ line (paint cyan (line [] ++ frame)) ++ line [] ++
    paintLine yellow "Type 'help' to list the available commands." ++ line []

/-- What is said when the input is cancelled or ends. -/
def cancelled : Text := line [] ++ paintLine yellow "Input cancelled."

/-- What is said at the end of a session. -/
def farewell : Text := paintLine cyan "👋 Goodbye!"

/-- What is said about a fault that ends the program. -/
def fatal (fault : Fault) : Text :=
  paintLine red ("Fatal error initializing the analyzer: " ++ fault.message)

/-- Where the program stands after a step. -/
inductive Stage where
  /-- The next line is to be read. -/
  | waiting
  /-- The program ends with an exit code. -/
  | done (code : Nat)
  deriving DecidableEq, Repr

/-- The stage after a reply, and what is printed up to there. -/
def settle (output : Output) (reply : Reply) : Stage × Text :=
  match reply.goesOn with
  | .ok true => (.waiting, reply.printed)
  | .ok false => (.done 0, reply.printed ++ farewell)
  | .error .interrupted =>
    (.done 0, reply.printed ++ line [] ++ paintLine yellow "🛑 Process interrupted by user" ++
      farewell)
  | .error fault => (.done 1, reply.printed ++ farewell ++ (output.print [fatal fault]).printed)

/-- The start of the program: loads the file it is started with, then greets. -/
def start (s : Session) (file : Option Text) : Session × Stage × Text :=
  match file with
  | none => (s, .waiting, banner)
  | some name =>
    let (s, reply) := s.load name
    match reply.goesOn with
    | .ok _ => (s, .waiting, reply.printed ++ banner)
    | .error fault => (s, .done 1, reply.printed ++ (s.output.print [fatal fault]).printed)

/-- One round: runs the command on a line of input, or ends when the input was cancelled. -/
def round (s : Session) : Option Text → Session × Stage × Text
  | none => (s, .done 0, cancelled ++ farewell)
  | some t =>
    let (s, reply) := s.run (Command.ofLine t)
    (s, settle s.output reply)

/-- What is left when the program has ended. -/
structure Outcome where
  session : Session
  code : Nat
  printed : Text
  /-- The lines of input that were not read. -/
  unread : List (Option Text)

/-- Runs commands until the program ends. -/
def rounds (s : Session) (printed : Text) : List (Option Text) → Outcome
  | [] => ⟨s, 0, printed ++ cancelled ++ farewell, []⟩
  | input :: rest =>
    match round s input with
    | (s, .waiting, more) => rounds s (printed ++ more) rest
    | (s, .done code, more) => ⟨s, code, printed ++ more, rest⟩

/-- Runs the program on all its input. -/
def run (s : Session) (file : Option Text) (input : List (Option Text)) : Outcome :=
  match start s file with
  | (s, .waiting, printed) => rounds s printed input
  | (s, .done code, printed) => ⟨s, code, printed, input⟩

end Program

end Workflow
