import Workflow.Markup.Token

/-!
# Tags of scalars

A tag says how the text of a scalar is to be understood.  It may be written in front of the scalar.
A plain scalar without one is judged by its text: the words for truth values and null, and numerals
in several notations, have a tag of their own.
-/

namespace Workflow

namespace Markup

/-- What the tag of a scalar says about its text. -/
inductive ScalarTag where
  | null
  | bool
  | int
  | float
  | other
  deriving DecidableEq, Repr

/-- A non-empty text of a class. -/
def isRun (p : CodePoint → Bool) (t : Text) : Bool := !t.isEmpty && t.all p

/-- Drops one sign. -/
def dropSign : Text → Text
  | [] => []
  | c :: rest => if c == '-' || c == '+' then rest else c :: rest

/-- A digit or a digit separator. -/
def isSpacedDigit (c : CodePoint) : Bool := c.isAsciiDigit || c == '_'

/-- A digit followed by digits and separators. -/
def isSpacedNumber : Text → Bool
  | [] => false
  | c :: rest => c.isAsciiDigit && rest.all isSpacedDigit

/-- One or two digits for a number below sixty. -/
def isSixtieth : Text → Bool
  | [a] => a.isAsciiDigit
  | [a, b] => a.within 0x30 0x35 && b.isAsciiDigit
  | _ => false

/-- A number with at least one colon, each followed by a number below sixty. -/
def isSexagesimal (first : Text → Bool) (t : Text) : Bool :=
  match Text.splitOn ':' t with
  | whole :: part :: parts => first whole && (part :: parts).all isSixtieth
  | _ => false

/-- A decimal number other than one that starts with a zero. -/
def isPlainDecimal : Text → Bool
  | [] => false
  | c :: rest => c.within 0x31 0x39 && rest.all isSpacedDigit

/-- Texts that denote integers: binary, octal, decimal, hexadecimal or in base sixty. -/
def looksInt (t : Text) : Bool :=
  let body := dropSign t
  let radix (mark : String) (p : CodePoint → Bool) : Bool :=
    (Text.ofString mark).isPrefixOf body && isRun p (body.drop mark.length)
  radix "0b" (fun c => c == '0' || c == '1' || c == '_') ||
    radix "0" (fun c => c.within 0x30 0x37 || c == '_') ||
    body == "0" || isPlainDecimal body ||
    radix "0x" (fun c => c.hexValue?.isSome || c == '_') ||
    isSexagesimal isPlainDecimal body

/-- An exponent with its sign, or nothing. -/
def isSignedExponent : Text → Bool
  | [] => true
  | e :: s :: digits =>
    (e == 'e' || e == 'E') && (s == '-' || s == '+') && isRun CodePoint.isAsciiDigit digits
  | _ => false

/-- Digits and separators, possibly none, and an exponent. -/
def isFractionTail (t : Text) : Bool := isSignedExponent (t.dropWhile isSpacedDigit)

/-- Texts that denote floating-point numbers. -/
def looksFloat (t : Text) : Bool :=
  let body := dropSign t
  let whole := body.takeWhile fun (c : CodePoint) => c != '.'
  let tail : Text := body.dropWhile fun (c : CodePoint) => c != '.'
  let pointed : Bool :=
    match tail with
    | [] => false
    | _ :: fraction =>
      (isSpacedNumber whole && isFractionTail fraction) ||
        (isSexagesimal isSpacedNumber whole && fraction.all isSpacedDigit)
  let bare : Bool :=
    match t with
    | p :: d :: rest => p == '.' && d.isAsciiDigit && isFractionTail rest
    | _ => false
  pointed || bare || body == ".inf" || body == ".Inf" || body == ".INF" ||
    t == ".nan" || t == ".NaN" || t == ".NAN"

/-- The words for truth values. -/
def truthWords : List Text :=
  ["yes", "Yes", "YES", "no", "No", "NO", "true", "True", "TRUE", "false", "False", "FALSE",
    "on", "On", "ON", "off", "Off", "OFF"]

/-- The words for null; nothing at all is one of them. -/
def nullWords : List Text := ["~", "null", "Null", "NULL", ""]

/-- The tag of a scalar without one, judged by its text. -/
def impliedTag (t : Text) : ScalarTag :=
  if truthWords.contains t then .bool
  else if looksFloat t then .float
  else if looksInt t then .int
  else if nullWords.contains t then .null
  else .other

/-- The tag that a written tag stands for. -/
def writtenTag (t : Text) : ScalarTag :=
  if t == "tag:yaml.org,2002:null" then .null
  else if t == "tag:yaml.org,2002:bool" then .bool
  else if t == "tag:yaml.org,2002:int" then .int
  else if t == "tag:yaml.org,2002:float" then .float
  else .other

/-- The tag of a scalar.  Only plain scalars, and those marked as untagged by `!`, are judged by
their text. -/
def scalarTag (written : Option Text) (t : Text) (style : ScalarStyle) : ScalarTag :=
  match written with
  | none => if style = .plain then impliedTag t else .other
  | some w => if w == "!" then impliedTag t else writtenTag w

end Markup

end Workflow
