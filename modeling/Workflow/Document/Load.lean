import Workflow.Document.Lines
import Workflow.Document.Storage
import Workflow.Document.Unroll
import Workflow.Terminal

/-!
# Loading documents

A document is composed from its text as YAML; a JSON text is read the same way, with tabs taken
as spaces and without a limit on the distance between a key and its colon.  Loading either gives
a document or a list of messages.  A scalar whose text does not fit its tag is a fault.
-/

namespace Workflow

/-- The languages of documents. -/
inductive Language where
  | json
  | yaml
  deriving DecidableEq, Repr

namespace Language

/-- The name of a language. -/
def id : Language → Text
  | .json => "json"
  | .yaml => "yaml"

/-- The name of a language in messages. -/
def title : Language → Text
  | .json => "JSON"
  | .yaml => "YAML"

/-- The language with a name. -/
def ofId? (t : Text) : Option Language :=
  if t == "json" then some .json else if t == "yaml" then some .yaml else none

/-- The language that the name of a file suggests. -/
def ofFileName (name : FileName) : Language :=
  let suffix := name.suffix.lowerAscii
  if suffix == ".yaml" || suffix == ".yml" then .yaml else .json

end Language

/-- A loaded document. -/
structure Document where
  text : Text
  language : Language
  /-- The tree of the document; an empty document has none. -/
  root : Option Tree
  /-- An edit counter supplied by the caller. -/
  version : Int

namespace Document

/-- Whether a document is written in YAML. -/
def isYaml (d : Document) : Bool := d.language == .yaml

/-- The range of a span. -/
def rangeOf (d : Document) (s : Span) : Range :=
  ⟨d.text.positionAt s.offset, d.text.positionAt s.stop⟩

/-- The workflow that a document describes: the value of its root, when that is an object. -/
def workflow (d : Document) : Value :=
  match d.root with
  | some t => if t.isObject then t.toValue else .obj []
  | none => .obj []

/-- The text from which a document is composed. -/
def sourceOf (language : Language) (t : Text) : Text :=
  match language with
  | .json => t.replacePoint '\t' ' '
  | .yaml => t

/-- The tree of a text; nothing when the text is malformed. -/
def treeOf (language : Language) (t : Text) : Except Fault (Option (Option Tree)) :=
  let source := sourceOf language t
  match Markup.Graph.ofTokens (Markup.TokenStream.ofText (language == .json) source) with
  | .error .malformed => .ok none
  | .error (.fault fault) => .error fault
  | .ok none => .ok (some none)
  | .ok (some graph) => (graph.toTree source).map fun t => some (some t)

end Document

/-- What came of loading: a document or messages, and what was printed meanwhile. -/
structure Loaded where
  document : Option Document
  errors : List Text
  printed : Text

namespace Loaded

/-- A load that failed with one message. -/
def failed (voice : Terminal.Voice) (message : Text) : Loaded :=
  ⟨none, [message], voice.say Terminal.red ("✘ " ++ message)⟩

end Loaded

/-- Loads a text in a known language. -/
def loadText (voice : Terminal.Voice) (language : Language) (version : Int) (t : Text) :
    Except Fault Loaded :=
  match Document.treeOf language t with
  | .error fault => .error fault
  | .ok none => .ok (Loaded.failed voice ("Invalid " ++ language.title ++ " document"))
  | .ok (some root) =>
    let said := "✓ Loaded " ++ language.title ++ " document (" ++ Text.ofNat t.length ++
      " characters)"
    .ok ⟨some ⟨t, language, root, version⟩, [], voice.say Terminal.green said⟩

/-- Loads a text in the language with a given name. -/
def load (voice : Terminal.Voice) (language : Text) (version : Int) (t : Text) :
    Except Fault Loaded :=
  match Language.ofId? language with
  | some l => loadText voice l version t
  | none => .ok ⟨none, ["Unsupported language: " ++ language], []⟩

/-- Loads a file; its name decides on the language. -/
def loadFile (voice : Terminal.Voice) (storage : Storage) (t : Text) : Except Fault Loaded :=
  let name := FileName.ofText t
  match FileName.fault? name.toText with
  | some fault => .error fault
  | none =>
    match storage.readText name with
    | .error problem =>
      .ok (Loaded.failed voice ("Error reading file: " ++ problem.message name.toText))
    | .ok (.error fault) => .error fault
    | .ok (.ok content) => loadText voice (Language.ofFileName name) 0 content

end Workflow
