import Workflow.Text.Units
import Workflow.Number.Literal
import Workflow.Value

/-!
# Reading JSON

A reader for JSON texts in the strict sense of the standard.  Objects keep the order of their
first mention and the last of repeated names wins; escaped surrogate pairs are joined and lone
surrogates kept; a number is an integer unless it has a fraction or an exponent.

`read?` answers the value of a text, or nothing when the text is not JSON.  Internally every
reader answers a value and the rest of the text; the number of nested and neighbouring readings
is bounded by the length of the text.
-/

namespace Workflow

namespace Json

/-- White space between tokens. -/
def isSpace (c : CodePoint) : Bool := c == ' ' || c == '\n' || c == '\r' || c == '\t'

/-- The text after leading white space. -/
def skipSpace (t : Text) : Text := t.dropWhile isSpace

/-- The code point of a one-letter escape. -/
def escape? (c : CodePoint) : Option CodePoint :=
  if c = '"' ∨ c = '\\' ∨ c = '/' then some c
  else if c = 'b' then some 0x08
  else if c = 'f' then some 0x0C
  else if c = 'n' then some 0x0A
  else if c = 'r' then some 0x0D
  else if c = 't' then some 0x09
  else none

/-- The unit that four hexadecimal digits name. -/
def unit? (digits : Text) : Option CodePoint :=
  (digits.mapM CodePoint.hexValue?).map fun values => CodePoint.ofNatD (Text.valueOf 16 values)

/-- The rest of a string up to its closing quote, with one code point per escape. -/
def stringBody : Text → Option (Text × Text)
  | [] => none
  | c :: rest =>
    if c = '"' then some ([], rest)
    else if c = '\\' then
      match rest with
      | [] => none
      | e :: rest =>
        if e = 'u' then
          match rest with
          | a :: b :: c :: d :: rest =>
            match unit? [a, b, c, d], stringBody rest with
            | some u, some (body, rest) => some (u :: body, rest)
            | _, _ => none
          | _ => none
        else
          match escape? e, stringBody rest with
          | some p, some (body, rest) => some (p :: body, rest)
          | _, _ => none
    else if c.val < 0x20 then none
    else
      match stringBody rest with
      | some (body, rest) => some (c :: body, rest)
      | none => none

/-- The rest of a string up to its closing quote, surrogate pairs joined. -/
def string? (t : Text) : Option (Text × Text) :=
  (stringBody t).map fun (body, rest) => (body.joinPairs, rest)

/-- Leading ASCII digits and the rest. -/
def spanDigits (t : Text) : Text × Text :=
  (t.takeWhile CodePoint.isAsciiDigit, t.dropWhile CodePoint.isAsciiDigit)

/-- The whole part of a number: a zero, or digits that do not start with one. -/
def wholePart? : Text → Option (Text × Text)
  | [] => none
  | c :: rest =>
    if c = '0' then some (['0'], rest)
    else if c.isAsciiDigit then
      let (digits, rest) := spanDigits rest
      some (c :: digits, rest)
    else none

/-- The fraction of a number, empty when there is none. -/
def fractionPart? : Text → Option (Text × Text)
  | [] => some ([], [])
  | c :: rest =>
    if c = '.' then
      match spanDigits rest with
      | ([], _) => none
      | (digits, rest) => some (c :: digits, rest)
    else some ([], c :: rest)

/-- The exponent of a number, empty when there is none. -/
def exponentPart? : Text → Option (Text × Text)
  | [] => some ([], [])
  | c :: rest =>
    if c = 'e' ∨ c = 'E' then
      let (sign, rest) : Text × Text :=
        match rest with
        | s :: rest' => if s = '+' ∨ s = '-' then ([s], rest') else ([], s :: rest')
        | [] => ([], [])
      match spanDigits rest with
      | ([], _) => none
      | (digits, rest) => some (c :: sign ++ digits, rest)
    else some ([], c :: rest)

/-- The minus sign of a number, if it has one. -/
def minusPart : Text → Text × Text
  | [] => ([], [])
  | c :: rest => if c = '-' then (['-'], rest) else ([], c :: rest)

/-- A number at the start of a text. -/
def number? (t : Text) : Option (Value × Text) := do
  let (minus, rest) := minusPart t
  let (whole, rest) ← wholePart? rest
  let (fraction, rest) ← fractionPart? rest
  let (exponent, rest) ← exponentPart? rest
  if fraction.isEmpty && exponent.isEmpty then
    let digits := (whole.filterMap CodePoint.decimalValue?)
    let n : Int := (Text.valueOf 10 digits : Nat)
    some (.int (if minus.isEmpty then n else -n), rest)
  else
    let x ← Numeral.float? (minus ++ whole ++ fraction ++ exponent)
    some (.float x, rest)

/-- A fixed word at the start of a text. -/
def word? (word : Text) (v : Value) (t : Text) : Option (Value × Text) :=
  if word.isPrefixOf t then some (v, t.drop word.length) else none

mutual

/-- A value at the start of a text, after white space. -/
def value? : Nat → Text → Option (Value × Text)
  | 0, _ => none
  | fuel + 1, t =>
    match skipSpace t with
    | [] => none
    | c :: rest =>
      if c = '"' then (string? rest).map fun (s, rest) => (.str s, rest)
      else if c = '[' then
        match skipSpace rest with
        | [] => none
        | d :: after =>
          if d = ']' then some (.arr [], after)
          else (items? fuel rest).map fun (items, rest) => (.arr items, rest)
      else if c = 0x7B then
        match skipSpace rest with
        | [] => none
        | d :: after =>
          if d = 0x7D then some (.obj [], after)
          else
            (members? fuel rest).map fun (members, rest) =>
              (.obj (Fields.ofAssignments members), rest)
      else if c = 't' then word? "true" (.bool true) (c :: rest)
      else if c = 'f' then word? "false" (.bool false) (c :: rest)
      else if c = 'n' then word? "null" .null (c :: rest)
      else number? (c :: rest)

/-- The items of an array up to its closing bracket; there is at least one. -/
def items? : Nat → Text → Option (List Value × Text)
  | 0, _ => none
  | fuel + 1, t =>
    match value? fuel t with
    | none => none
    | some (v, rest) =>
      match skipSpace rest with
      | [] => none
      | c :: rest =>
        if c = ']' then some ([v], rest)
        else if c = ',' then (items? fuel rest).map fun (items, rest) => (v :: items, rest)
        else none

/-- The members of an object up to its closing brace; there is at least one. -/
def members? : Nat → Text → Option (List (Text × Value) × Text)
  | 0, _ => none
  | fuel + 1, t =>
    match skipSpace t with
    | [] => none
    | q :: rest =>
      if q ≠ '"' then none
      else
        match string? rest with
        | none => none
        | some (name, rest) =>
          match skipSpace rest with
          | [] => none
          | c :: rest =>
            if c ≠ ':' then none
            else
              match value? fuel rest with
              | none => none
              | some (v, rest) =>
                match skipSpace rest with
                | [] => none
                | c :: rest =>
                  if c = 0x7D then some ([(name, v)], rest)
                  else if c = ',' then
                    (members? fuel rest).map fun (members, rest) => ((name, v) :: members, rest)
                  else none

end

/-- The value of a JSON text. -/
def read? (t : Text) : Option Value :=
  match value? (t.length + 1) t with
  | some (v, rest) => if (skipSpace rest).isEmpty then some v else none
  | none => none

end Json

end Workflow
