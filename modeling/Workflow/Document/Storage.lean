import Workflow.Fault
import Workflow.Text.Quoted
import Workflow.Text.Units

/-!
# Files

A small model of a working directory: files with their bytes, and directories.  Opening a file
follows the components of its name from directory to directory; the model says which of the usual
problems stands in the way.  A file is found by the bytes of its name.
-/

namespace Workflow

/-- What a name in the working directory stands for. -/
inductive StorageEntry where
  | file (bytes : List Nat)
  | directory

/-- Why a file cannot be opened. -/
inductive FileProblem where
  | missing
  | notDirectory
  | isDirectory
  | tooLong
  deriving DecidableEq, Repr

/-- The sentence that reports why a file cannot be opened. -/
def FileProblem.message (problem : FileProblem) (name : Text) : Text :=
  let reason : Text :=
    match problem with
    | .missing => "[Errno 2] No such file or directory: "
    | .notDirectory => "[Errno 20] Not a directory: "
    | .isDirectory => "[Errno 21] Is a directory: "
    | .tooLong => "[Errno 36] File name too long: "
  reason ++ name.quoted

/-- The greatest number of bytes in a component of a file name. -/
def maxComponent : Nat := 255

/-- The greatest number of bytes in a whole file name. -/
def maxName : Nat := 4095

/-- A file name in parts. -/
structure FileName where
  /-- The slashes in front of an absolute name. -/
  anchor : Text
  /-- The components without those that mean "here". -/
  components : List Text
  deriving DecidableEq, Repr

namespace FileName

/-- The component that leads out of a directory. -/
def up : Text := ".."

/-- The pieces between the slashes of a name. -/
def pieces (t : Text) : List Text :=
  (Text.splitOn '/' t).filter fun (piece : Text) => !piece.isEmpty

/-- The parts of a name. -/
def ofText (t : Text) : FileName :=
  let slashes := t.takeWhile fun (c : CodePoint) => c == '/'
  let anchor : Text :=
    if slashes.isEmpty then [] else if slashes.length = 2 then slashes else ['/']
  ⟨anchor, (pieces t).filter fun piece => piece != "."⟩

/-- Whether a name is absolute. -/
def isAbsolute (n : FileName) : Bool := !n.anchor.isEmpty

/-- The name in its shortest form. -/
def toText (n : FileName) : Text :=
  if n.anchor.isEmpty && n.components.isEmpty then "."
  else n.anchor ++ Text.joinWith "/" n.components

/-- The last component. -/
def last (n : FileName) : Text := n.components.getLast?.getD []

/-- The end of the last component from its last point on.  A point at its very start or end does
not count. -/
def suffix (n : FileName) : Text :=
  let back := n.last.reverse
  let tail := back.takeWhile fun (c : CodePoint) => c != '.'
  if tail.isEmpty || back.length ≤ tail.length + 1 then [] else '.' :: tail.reverse

/-- The components that a name requires to be directories when its end, as it was typed, says that
it names no file: a slash behind the last component, or a component that means "here". -/
def directories? (t : Text) : Option (List Text) :=
  let components := (ofText t).components
  match (pieces t).getLast? with
  | none => none
  | some piece =>
    if piece == "." then some components
    else if piece != up && t.getLast? == some '/' then some components.dropLast
    else none

/-- Why no file can have a name. -/
def fault? (t : Text) : Option Fault :=
  match t.nameFault? with
  | some fault => some (.noBytes fault)
  | none => if t.contains 0 then some .badFileName else none

end FileName

/-! ## Trails -/

/-- The components on the way to a place, the last one first. -/
abbrev Trail := List Text

namespace Trail

/-- The full name of the place at the end of a trail. -/
def name (absolute : Bool) (trail : Trail) : Text :=
  (if absolute then ("/" : Text) else []) ++ Text.joinWith "/" trail.reverse

/-- The trail of the directory around a directory.  There is one above the working directory, but
none above the top. -/
def parent (absolute : Bool) (trail : Trail) : Trail :=
  if absolute || !(trail.isEmpty || trail.head? == some FileName.up) then trail.tail
  else FileName.up :: trail

/-- The full names of the places on the way along some components. -/
def namesAlong (absolute : Bool) (trail : Trail) : List Text → List Text
  | [] => []
  | component :: rest =>
    if component == FileName.up then namesAlong absolute (trail.parent absolute) rest
    else
      let trail : Trail := component :: trail
      trail.name absolute :: namesAlong absolute trail rest

end Trail

/-- The full names of the places that a file name leads through. -/
def FileName.places (n : FileName) : List Text := Trail.namesAlong n.isAbsolute [] n.components

/-- The files and directories of the working directory, by name. -/
abbrev Storage := List (Text × StorageEntry)

namespace Storage

/-- The entry with a name. -/
def entry? (storage : Storage) (name : Text) : Option StorageEntry :=
  (storage.find? fun e => e.1.nameBytes == name.nameBytes).map (·.2)

/-- The entry at the end of a trail. -/
def entryAt (storage : Storage) (absolute : Bool) (trail : Trail) :
    Except FileProblem (Option StorageEntry) :=
  if trail.head?.any fun component => decide (maxComponent < component.nameBytes.length) then
    .error .tooLong
  else .ok (storage.entry? (trail.name absolute))

/-- Follows components from directory to directory, and answers the trail of the last one. -/
def enter (storage : Storage) (absolute : Bool) (trail : Trail) :
    List Text → Except FileProblem Trail
  | [] => .ok trail
  | component :: rest =>
    if component == FileName.up then enter storage absolute (trail.parent absolute) rest
    else
      let trail : Trail := component :: trail
      match storage.entryAt absolute trail with
      | .error e => .error e
      | .ok (some .directory) => enter storage absolute trail rest
      | .ok (some (.file _)) => .error .notDirectory
      | .ok none => .error .missing

/-- What a file name leads to. -/
inductive Place where
  | directory
  /-- A name in a directory, and the bytes of the file with that name, if there is one. -/
  | file (name : Text) (bytes : Option (List Nat))

/-- Follows a file name to its end. -/
def locate (storage : Storage) (n : FileName) : Except FileProblem Place :=
  match n.components.getLast? with
  | none => .ok .directory
  | some last =>
    if last == FileName.up then
      (storage.enter n.isAbsolute [] n.components).map fun _ => .directory
    else
      match storage.enter n.isAbsolute [] n.components.dropLast with
      | .error e => .error e
      | .ok trail =>
        let trail : Trail := last :: trail
        match storage.entryAt n.isAbsolute trail with
        | .error e => .error e
        | .ok (some .directory) => .ok .directory
        | .ok (some (.file bytes)) => .ok (.file (trail.name n.isAbsolute) (some bytes))
        | .ok none => .ok (.file (trail.name n.isAbsolute) none)

/-- Refuses a name with too many bytes. -/
def checkLength (name : Text) : Except FileProblem Unit :=
  if maxName < name.nameBytes.length then .error .tooLong else .ok ()

/-- The bytes of a file. -/
def read (storage : Storage) (name : FileName) : Except FileProblem (List Nat) := do
  checkLength name.toText
  match ← storage.locate name with
  | .directory => throw .isDirectory
  | .file _ (some bytes) => pure bytes
  | .file _ none => throw .missing

/-- Gives a file its bytes, creating it when there is none. -/
def put (storage : Storage) (name : Text) (bytes : List Nat) : Storage :=
  if (storage.entry? name).isSome then
    storage.map fun e =>
      if e.1.nameBytes == name.nameBytes then (e.1, .file bytes) else e
  else storage ++ [(name, .file bytes)]

/-- Writes a file. -/
def write (storage : Storage) (t : Text) (bytes : List Nat) : Except FileProblem Storage := do
  let name := FileName.ofText t
  if t.isEmpty then throw .missing
  checkLength t
  match FileName.directories? t with
  | some components =>
    let _ ← storage.enter name.isAbsolute [] components
    throw .isDirectory
  | none =>
    match ← storage.locate name with
    | .directory => throw .isDirectory
    | .file full _ => pure (storage.put full bytes)

/-- The text of a file, with its line ends unified. -/
def readText (storage : Storage) (name : FileName) : Except FileProblem (Except Fault Text) :=
  (storage.read name).map fun bytes =>
    match Text.decodeBytes bytes with
    | .ok t => .ok t.unifyLineEnds
    | .error fault => .error (.badBytes fault)

end Storage

end Workflow
