import Workflow.Fault
import Workflow.Text.Digit
import Workflow.Number.Binary64

/-!
# Numerals

Readers for integer and floating-point numerals as they are typed.  Blanks around a numeral are
ignored and digits of every script count.  No reader here expects digit separators: its callers
drop them first.
-/

namespace Workflow

namespace Numeral

/-- The longest decimal numeral that is read as an integer. -/
def maxDigits : Nat := 4300

/-- The value of a digit in a base up to sixteen. -/
def digitIn? (base : Nat) (c : CodePoint) : Option Nat :=
  match c.decimalValue? with
  | some d => if d < base then some d else none
  | none =>
    match c.hexValue? with
    | some d => if d < base then some d else none
    | none => none

/-- The values of all digits of a text, if it consists of digits only. -/
def digitsIn? (base : Nat) (t : Text) : Option (List Nat) := t.mapM (digitIn? base)

/-- A sign and the text after it. -/
def splitSign : Text → Bool × Text
  | [] => (false, [])
  | c :: rest =>
    if c = '-' then (true, rest) else if c = '+' then (false, rest) else (false, c :: rest)

/-- The letter that marks a base in front of a numeral. -/
def baseLetter? (base : Nat) : Option CodePoint :=
  if base = 2 then some 'b' else if base = 8 then some 'o' else if base = 16 then some 'x' else none

/-- Drops the mark of the base, such as `0x`; its zero may be of any script. -/
def dropBaseMark (base : Nat) : Text → Text
  | z :: l :: rest =>
    if z.decimalValue? = some 0 ∧ baseLetter? base = some l.lowerAscii then rest
    else z :: l :: rest
  | t => t

/-- An integer numeral in a base.  Decimal numerals beyond `maxDigits` digits are refused. -/
def integer? (base : Nat) (t : Text) : Option Int :=
  let (negative, body) := splitSign t.trim
  match digitsIn? base (dropBaseMark base body) with
  | none => none
  | some [] => none
  | some digits =>
    if base = 10 ∧ maxDigits < digits.length then none
    else
      let n : Int := (Text.valueOf base digits : Nat)
      some (if negative then -n else n)

/-- An integer numeral in a base, or the reason why there is none. -/
def integer (base : Nat) (t : Text) : Except Fault Int :=
  match integer? base t with
  | some n => .ok n
  | none =>
    let digits := ((splitSign t.trim).2.takeWhile CodePoint.isDecimal).length
    .error (if base = 10 ∧ maxDigits < digits then .longNumeral digits else .badNumeral base t)

/-- The leading decimal digits of a text and the rest. -/
def spanDecimal (t : Text) : List Nat × Text :=
  ((t.takeWhile CodePoint.isDecimal).filterMap CodePoint.decimalValue?,
    t.dropWhile CodePoint.isDecimal)

/-- The exponent after the digits of a numeral: nothing, or a mark, a sign and digits up to the end
of the text. -/
def exponent? : Text → Option Int
  | [] => some 0
  | c :: rest =>
    if c.lowerAscii = 'e' then
      let (negative, body) := splitSign rest
      match spanDecimal body with
      | (d :: ds, []) =>
        let n : Int := (Text.valueOf 10 (d :: ds) : Nat)
        some (if negative then -n else n)
      | _ => none
    else none

/-- An unsigned floating-point numeral made of digits. -/
def positional? (negative : Bool) (t : Text) : Option Binary64 :=
  let (whole, rest) := spanDecimal t
  let (fraction, rest) : List Nat × Text :=
    match rest with
    | c :: rest' => if c = '.' then spanDecimal rest' else ([], c :: rest')
    | [] => ([], [])
  if whole.isEmpty && fraction.isEmpty then none
  else
    match exponent? rest with
    | none => none
    | some e =>
      some (Binary64.ofDecimal negative (Text.valueOf 10 (whole ++ fraction))
        (e - (fraction.length : Int)))

/-- A floating-point numeral, including the words for infinity and "not a number". -/
def float? (t : Text) : Option Binary64 :=
  let (negative, body) := splitSign t.trim
  let word := body.lowerAscii
  if word = "inf" ∨ word = "infinity" then some (Binary64.infinity negative)
  else if word = "nan" then some Binary64.nan
  else positional? negative body

/-- A floating-point numeral, or the reason why there is none. -/
def float (t : Text) : Except Fault Binary64 :=
  match float? t with
  | some x => .ok x
  | none => .error (.badDecimal t)

end Numeral

end Workflow
