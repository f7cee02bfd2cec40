import Workflow.Document.Tree
import Workflow.Markup.Graph
import Workflow.Number.Literal
import Workflow.Text.Case

/-!
# The meaning of scalars

A quoted or block scalar is a string.  A plain scalar is what its tag says: null, a truth value, an
integer, a floating-point number or a string; a string that is written like a JSON number is a
floating-point number all the same.  A tag that was written by hand is trusted, so the conversion
can fail.
-/

namespace Workflow

namespace Markup

/-- Drops the separators between digits. -/
def dropSeparators (t : Text) : Text := t.filter fun c => c != '_'

/-- A sign and the rest of a numeral that must not be empty. -/
def signed (t : Text) : Except Fault (Bool × Text) :=
  match t with
  | [] => .error .emptyNumeral
  | _ => .ok (Numeral.splitSign t)

/-- The integer that digits in base sixty denote. -/
def sexagesimal (parts : List Int) : Int := parts.foldl (fun n d => n * 60 + d) 0

/-- The integer that a scalar denotes. -/
def integerOf (t : Text) : Except Fault Int := do
  let (negative, body) ← signed (dropSeparators t)
  let magnitude ←
    match body with
    | [] => throw .emptyNumeral
    | c :: _ =>
      if body == "0" then pure 0
      else if ("0b" : Text).isPrefixOf body then Numeral.integer 2 (body.drop 2)
      else if ("0x" : Text).isPrefixOf body then Numeral.integer 16 (body.drop 2)
      else if c == '0' then Numeral.integer 8 body
      else if body.contains ':' then do
        let parts ← (Text.splitOn ':' body).mapM (Numeral.integer 10)
        pure (sexagesimal parts)
      else Numeral.integer 10 body
  pure (if negative then -magnitude else magnitude)

/-- The number that digits in base sixty denote, summed up from the last digit on: the sum so far,
and the power of sixty that the next digit is worth.  Only a finite power can be multiplied. -/
def sexagesimalFloat (sum : Binary64) (base : Int) : List Binary64 → Except Fault Binary64
  | [] => .ok sum
  | digit :: digits =>
    let factor := Binary64.ofInt base
    if factor.isInfinite then .error .hugeInteger
    else sexagesimalFloat (sum.add (digit.mul factor)) (base * 60) digits

/-- The floating-point number that a scalar denotes. -/
def floatOf (t : Text) : Except Fault Binary64 := do
  let (negative, body) ← signed (dropSeparators t).lower
  let magnitude ←
    if body == ".inf" then pure (Binary64.infinity false)
    else if body == ".nan" then pure Binary64.nan
    else if body.contains ':' then do
      let parts ← (Text.splitOn ':' body).mapM Numeral.float
      sexagesimalFloat (Binary64.ofInt 0) 1 parts.reverse
    else Numeral.float body
  pure (if negative then magnitude.negate else magnitude)

/-- The truth value that a scalar denotes. -/
def truthOf (t : Text) : Except Fault Bool :=
  let word := t.lower
  if word == "yes" || word == "true" || word == "on" then .ok true
  else if word == "no" || word == "false" || word == "off" then .ok false
  else .error (.badTruthWord word)

/-- A non-empty run of decimal digits and what follows it. -/
def spanDecimals (t : Text) : Option Text :=
  match t.takeWhile CodePoint.isDecimal with
  | [] => none
  | digits => some (t.drop digits.length)

/-- Whether a text is written like a JSON number, with digits of any script after the first. -/
def looksJsonNumber (t : Text) : Bool :=
  let body : Text := match t with | c :: rest => if c == '-' then rest else c :: rest | [] => []
  let afterWhole : Option Text :=
    match body with
    | [] => none
    | c :: rest =>
      if c == '0' then some rest
      else if c.within 0x31 0x39 then some (rest.dropWhile CodePoint.isDecimal)
      else none
  let afterFraction : Option Text :=
    afterWhole.bind fun rest =>
      match rest with
      | c :: rest' => if c == '.' then spanDecimals rest' else some (c :: rest')
      | [] => some []
  let afterExponent : Option Text :=
    afterFraction.bind fun rest =>
      match rest with
      | c :: rest' =>
        if c == 'e' || c == 'E' then spanDecimals (dropSign rest') else some (c :: rest')
      | [] => some []
  afterExponent == some []

/-- The tree of a scalar. -/
def scalarTree (span : Span) (tag : ScalarTag) (t : Text) (style : ScalarStyle) :
    Except Fault Tree :=
  if style ≠ .plain then .ok (.string span t.joinPairs)
  else
    match tag with
    | .null => .ok (.null span)
    | .bool => (truthOf t).map (.boolean span)
    | .int => (integerOf t).map fun n => .number span (.int n)
    | .float => (floatOf t).map fun x => .number span (.float x)
    | .other =>
      if looksJsonNumber t then (Numeral.float t).map fun x => .number span (.float x)
      else .ok (.string span t.joinPairs)

end Markup

end Workflow
