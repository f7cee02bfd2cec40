import Workflow.Text
import Workflow.Number.Binary64

/-!
# Shortest decimal notation

A finite binary64 value is written with the fewest decimal digits that read back as the same
value; among the candidates of that length the nearest one is taken.  The search runs over the
decimal grids of 1, 2, …, 17 digits and looks at the two neighbours of the value on each.
-/

namespace Workflow

namespace Binary64

/-- The decimal exponent of a positive quotient: `10 ^ p ≤ num / den < 10 ^ (p + 1)`. -/
def decimalExponent (num den : Nat) : Int :=
  if den ≤ num then (decimalLength (num / den) : Int) - 1
  else -(decimalLength ((den + num - 1) / num - 1) : Int)

/-- The two sides of the comparison between `c * 10 ^ x` and `w * 2 ^ s`, as natural numbers. -/
def balance (x s : Int) (c w : Nat) : Nat × Nat :=
  (c * Nat.pow 10 x.toNat * Nat.pow 2 (-s).toNat, w * Nat.pow 2 s.toNat * Nat.pow 10 (-x).toNat)

/-- The digits of the value `m * 2 ^ q` on the decimal grid with step `10 ^ x`, if a point of the
grid reads back as the value.  `tight` says that the next lower value is half as far away as the
next higher one. -/
def onGrid (m : Nat) (q : Int) (tight : Bool) (x : Int) : Option Nat :=
  let s := q - 2
  let middle := 4 * m
  let low := middle - (if tight then 1 else 2)
  let high := middle + 2
  let inside (c : Nat) : Bool :=
    let (a, l) := balance x s c low
    let (_, h) := balance x s c high
    if m % 2 = 0 then decide (l ≤ a) && decide (a ≤ h) else decide (l < a) && decide (a < h)
  let (unit, value) := balance x s 1 middle
  let below := value / unit
  let above := below + 1
  match inside below, inside above with
  | false, false => none
  | true, false => some below
  | false, true => some above
  | true, true =>
    let r := value % unit
    if 2 * r < unit then some below
    else if unit < 2 * r then some above
    else if below % 2 = 0 then some below
    else some above

/-- The first grid, from coarse to fine, that has a point for the value. -/
def firstGrid (m : Nat) (q : Int) (tight : Bool) (p : Int) : Nat → Nat → Nat × Int
  | 0, _ => (0, 0)
  | tries + 1, count =>
    let x := p - (count : Int) + 1
    match onGrid m q tight x with
    | some c => (c, x)
    | none => firstGrid m q tight p tries (count + 1)

/-- Drops the zeros at the end of a numeral, raising the exponent. -/
def dropZeros : Nat → Nat → Int → Nat × Int
  | 0, c, x => (c, x)
  | fuel + 1, c, x => if c ≠ 0 ∧ c % 10 = 0 then dropZeros fuel (c / 10) (x + 1) else (c, x)

/-- The shortest numeral `c * 10 ^ x` of a finite value other than zero. -/
def shortest (m : Nat) (q : Int) : Nat × Int :=
  let (num, den) := scaled m q
  let tight := decide (m = Nat.pow 2 52) && decide (-1074 < q)
  let (c, x) := firstGrid m q tight (decimalExponent num den) 17 1
  dropZeros 18 c x

/-- The words for the values that have no digits. -/
structure SpecialWords where
  infinity : Text
  nan : Text

/-- Decimal notation of the numeral `c * 10 ^ x`: positional from `10 ^ -4` to below `10 ^ 16`,
always with a point or an exponent; the exponent has a sign and at least two digits. -/
def numeral (c : Nat) (x : Int) : Text :=
  let digits := Text.ofNat c
  let p : Int := (digits.length : Int) - 1 + x
  if -4 ≤ p ∧ p < 16 then
    if 0 ≤ x then digits ++ Text.copies x.toNat '0' ++ ".0"
    else if 0 ≤ p then
      digits.take (p + 1).toNat ++ "." ++ digits.drop (p + 1).toNat
    else "0." ++ Text.copies (-p - 1).toNat '0' ++ digits
  else
    let fraction : Text := if digits.length = 1 then [] else '.' :: digits.drop 1
    let size := Text.ofNat p.natAbs
    digits.take 1 ++ fraction ++ "e" ++ (if p < 0 then "-" else "+") ++
      (if size.length = 1 then "0" else "") ++ size

/-- The text of a value. -/
def toText (special : SpecialWords) (x : Binary64) : Text :=
  let sign : Text := if x.isNegative then "-" else ""
  match x.parts? with
  | none => if x.isNan then special.nan else sign ++ special.infinity
  | some (m, q) =>
    if m = 0 then sign ++ "0.0"
    else
      let (c, e) := shortest m q
      sign ++ numeral c e

end Binary64

end Workflow
