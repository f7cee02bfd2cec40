import Workflow.Document.Load

/-!
# Diagnostics

The checks of a document find spans with a code; a diagnostic is a finding with its range in the
document and a message from a catalog.  Diagnostics of other origin have no code, another source
and possibly another severity.
-/

namespace Workflow

/-- What is wrong at a place of a document. -/
inductive DiagnosticCode where
  | invalidNext
  | invalidDefault
  | invalidStartAt
  | unreachableState
  | noTerminalState
  | invalidPropertyName
  | exclusiveProperties
  | invalidExpression
  | invalidStringExpression
  deriving DecidableEq, Repr

namespace DiagnosticCode

/-- The word for a code. -/
def word : DiagnosticCode → Text
  | .invalidNext => "INVALID_NEXT"
  | .invalidDefault => "INVALID_DEFAULT"
  | .invalidStartAt => "INVALID_START_AT"
  | .unreachableState => "UNREACHABLE_STATE"
  | .noTerminalState => "NO_TERMINAL_STATE"
  | .invalidPropertyName => "INVALID_PROPERTY_NAME"
  | .exclusiveProperties => "MUTUALLY_EXCLUSIVE_CHOICE_PROPERTIES"
  | .invalidExpression => "INVALID_JSON_PATH_OR_INTRINSIC"
  | .invalidStringExpression => "INVALID_JSON_PATH_OR_INTRINSIC_STRING_ONLY"

/-- All codes. -/
def all : List DiagnosticCode :=
  [.invalidNext, .invalidDefault, .invalidStartAt, .unreachableState, .noTerminalState,
    .invalidPropertyName, .exclusiveProperties, .invalidExpression, .invalidStringExpression]

/-- The code that a word names. -/
def ofWord? (t : Text) : Option DiagnosticCode := all.find? fun code => code.word == t

end DiagnosticCode

/-- A span where something is wrong. -/
structure Finding where
  span : Span
  code : DiagnosticCode
  deriving DecidableEq, Repr

/-- The number of the severity of an error. -/
def errorSeverity : Int := 1

/-- The source of the diagnostics of this project. -/
def localSource : Text := "asl"

/-- A finding as it is reported. -/
structure Diagnostic where
  range : Range
  message : Value
  code : Option DiagnosticCode
  severity : Int
  source : Text

namespace Finding

/-- The message of a finding in a catalog; a code without a message is its own message. -/
def message (messages : Value) (f : Finding) : Except Fault Value :=
  match messages with
  | .obj catalog => .ok ((Fields.get? catalog f.code.word).getD (.str f.code.word))
  | v => .error (.noFields v.kind)

/-- The diagnostic for a finding. -/
def report (d : Document) (messages : Value) (f : Finding) : Except Fault Diagnostic :=
  (f.message messages).map fun m => ⟨d.rangeOf f.span, m, some f.code, errorSeverity, localSource⟩

end Finding

/-- The diagnostics for a list of findings. -/
def Document.report (d : Document) (messages : Value) (findings : List Finding) :
    Except Fault (List Diagnostic) :=
  findings.mapM (Finding.report d messages)

end Workflow
