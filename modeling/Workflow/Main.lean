import Workflow.Session.Program

/-!
# Command line

Runs the interactive program on the terminal.  Before a command runs, the files that it names are
looked up, and afterwards the files that it has written are stored.  There is no connection to the
remote service from here, so the service is always asked in vain.
-/

namespace Workflow

namespace Program

/-- The string with the code points of a text. -/
def stringOf (t : Text) : String := String.ofList (t.map fun c => Char.ofNat c.val)

/-- Prints a text as it is. -/
def printText (t : Text) : IO Unit := do
  let out ← IO.getStdout
  out.putStr (stringOf t)
  out.flush

/-- What stands under a name.  A directory cannot be read as a file. -/
def lookUp (name : Text) : IO (Option StorageEntry) := do
  try
    let bytes ← IO.FS.readBinFile (stringOf name)
    return some (.file (bytes.toList.map UInt8.toNat))
  catch
    | .inappropriateType .. => return some .directory
    | _ => return none

/-- The entries under a file name and under the directories that lead to it. -/
def storageFor (t : Text) : IO Storage := do
  let found ← (FileName.ofText t).places.mapM fun place => do
    return (← lookUp place).map fun entry => (place, entry)
  return found.filterMap id

/-- The entries that a command needs. -/
def storageForCommand (command : Option Command) : IO Storage :=
  match command.bind Command.fileName? with
  | some name => storageFor name
  | none => pure []

/-- Stores a file. -/
def storeFile (name : Text) (bytes : List Nat) : IO Unit :=
  IO.FS.writeBinFile (stringOf name) ⟨(bytes.map UInt8.ofNat).toArray⟩

/-- Stores the files that differ from what was there before. -/
def storeFiles (before after : Storage) : IO Unit :=
  after.forM fun (name, entry) =>
    match entry, before.entry? name with
    | .file bytes, some (.file old) => if bytes == old then pure () else storeFile name bytes
    | .file bytes, _ => storeFile name bytes
    | .directory, _ => pure ()

/-- Reads a line of input; nothing at its end. -/
def readInput : IO (Option Text) := do
  printText "asl> "
  let typed ← (← IO.getStdin).getLine
  return if typed.isEmpty then none else some (Text.ofString typed)

/-- Runs rounds until the program ends. -/
partial def converse (s : Session) : IO UInt32 := do
  let input ← readInput
  let storage ← storageForCommand (input.map Command.ofLine)
  let (s, stage, printed) := round { s with storage := storage } input
  storeFiles storage s.storage
  printText printed
  match stage with
  | .waiting => converse s
  | .done code => return code.toUInt32

/-- Runs the program; the first argument names the file to start with. -/
def runOnTerminal (arguments : List String) : IO UInt32 := do
  let file := arguments.head?.map Text.ofString
  let storage ← storageForCommand (file.map fun name => .load (some name))
  let (s, stage, printed) := start (Session.new .bytes true storage (.problem .noRegion)) file
  printText printed
  match stage with
  | .waiting => converse s
  | .done code => return code.toUInt32

end Program

end Workflow

/-- The command line. -/
def main (arguments : List String) : IO UInt32 := Workflow.Program.runOnTerminal arguments
