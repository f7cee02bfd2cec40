/-!
# Binary64 numbers

A floating-point value is kept as its 64 bits, so that two values are told apart exactly and the
arithmetic on them is exact arithmetic on natural numbers.

`ofRatio` rounds a quotient of natural numbers to the nearest value, ties to the even mantissa;
`ofDecimal` does so for a decimal numeral with an exponent.  `parts?` reads a finite value back
as a mantissa times a power of two.
-/

namespace Workflow

/-- A binary64 value, given by its bits: sign, eleven bits of exponent, 52 bits of fraction. -/
structure Binary64 where
  bits : UInt64
  deriving DecidableEq, Repr

namespace Binary64

/-- The bits of a value as a natural number. -/
def code (x : Binary64) : Nat := x.bits.toNat

/-- The value with a sign and a code without sign. -/
def ofCode (negative : Bool) (code : Nat) : Binary64 :=
  ⟨UInt64.ofNat (if negative then Nat.pow 2 63 + code else code)⟩

/-- The code of infinity without its sign. -/
def infinityCode : Nat := 0x7FF * Nat.pow 2 52

/-- Infinity of either sign. -/
def infinity (negative : Bool) : Binary64 := ofCode negative infinityCode

/-- The value that stands for "not a number". -/
def nan : Binary64 := ofCode false (0x7FF * Nat.pow 2 52 + Nat.pow 2 51)

/-- Whether the sign bit is set. -/
def isNegative (x : Binary64) : Bool := decide (Nat.pow 2 63 ≤ x.code)

/-- The code without the sign bit. -/
def magnitude (x : Binary64) : Nat := x.code % Nat.pow 2 63

/-- Whether a value is "not a number". -/
def isNan (x : Binary64) : Bool := decide (infinityCode < x.magnitude)

/-- Whether a value is infinite. -/
def isInfinite (x : Binary64) : Bool := decide (x.magnitude = infinityCode)

/-- Whether a value is a zero of either sign. -/
def isZero (x : Binary64) : Bool := decide (x.magnitude = 0)

/-- The value with the opposite sign. -/
def negate (x : Binary64) : Binary64 := ofCode (!x.isNegative) x.magnitude

/-- Mantissa and exponent of a finite value: its magnitude is `m * 2 ^ q`. -/
def parts? (x : Binary64) : Option (Nat × Int) :=
  let e : Nat := x.magnitude / Nat.pow 2 52
  let f : Nat := x.magnitude % Nat.pow 2 52
  if e = 0x7FF then none
  else if e = 0 then some (f, -1074)
  else some (f + Nat.pow 2 52, (e : Int) - 1075)

/-- The natural number `n * 2 ^ k`, as a quotient when `k` is negative. -/
def scaled (n : Nat) (k : Int) : Nat × Nat :=
  if 0 ≤ k then (n * Nat.pow 2 k.toNat, 1) else (n, Nat.pow 2 (-k).toNat)

/-- A quotient rounded to the nearest natural number, ties to the even one. -/
def roundDiv (num den : Nat) : Nat :=
  let q := num / den
  let r := num % den
  if 2 * r < den then q
  else if den < 2 * r then q + 1
  else if q % 2 = 0 then q
  else q + 1

/-- The exponent at which the mantissa of `num / den` has 53 binary digits, or the least exponent
when there is no such one above it. -/
def exponentOf (num den : Nat) : Int :=
  let guess : Int := (num.log2 : Int) - (den.log2 : Int) - 52
  -- The quotient lies between `2 ^ (guess + 51)` and `2 ^ (guess + 53)`.
  let exact : Int :=
    let (n, d) :=
      if 0 ≤ guess then (num, den * Nat.pow 2 guess.toNat)
      else (num * Nat.pow 2 (-guess).toNat, den)
    if n < d * Nat.pow 2 52 then guess - 1 else guess
  max exact (-1074)

/-- The value nearest to a quotient of natural numbers, ties to the even mantissa. -/
def ofRatio (negative : Bool) (num den : Nat) : Binary64 :=
  if num = 0 then ofCode negative 0
  else
    let e := exponentOf num den
    let m :=
      if 0 ≤ e then roundDiv num (den * Nat.pow 2 e.toNat)
      else roundDiv (num * Nat.pow 2 (-e).toNat) den
    let code := if m < Nat.pow 2 52 then m else (e + 1075).toNat * Nat.pow 2 52 + (m - Nat.pow 2 52)
    if infinityCode ≤ code then infinity negative else ofCode negative code

/-- Number of decimal digits of a natural number. -/
def decimalLength (n : Nat) : Nat := (Nat.toDigits 10 n).length

/-- The value nearest to `n * 10 ^ k`. -/
def ofDecimal (negative : Bool) (n : Nat) (k : Int) : Binary64 :=
  if n = 0 then ofCode negative 0
  else
    let size : Int := (decimalLength n : Int) + k
    if 310 < size then infinity negative
    else if size < -330 then ofCode negative 0
    else if 0 ≤ k then ofRatio negative (n * Nat.pow 10 k.toNat) 1
    else ofRatio negative n (Nat.pow 10 (-k).toNat)

/-- The value nearest to an integer. -/
def ofInt (n : Int) : Binary64 := ofRatio (decide (n < 0)) n.natAbs 1

/-- Sum of two values. -/
def add (x y : Binary64) : Binary64 :=
  ⟨(Float.ofBits x.bits + Float.ofBits y.bits).toBits⟩

/-- Product of two values. -/
def mul (x y : Binary64) : Binary64 :=
  ⟨(Float.ofBits x.bits * Float.ofBits y.bits).toBits⟩

/-- Equality of the numbers that two values stand for: the zeros are equal, and "not a number"
differs from everything. -/
def same (x y : Binary64) : Bool :=
  !x.isNan && !y.isNan && (decide (x = y) || (x.isZero && y.isZero))

/-- Whether a value stands for a given integer. -/
def sameInt (x : Binary64) (n : Int) : Bool :=
  match x.parts? with
  | none => false
  | some (m, q) =>
    let (a, d) := scaled m q
    decide (a = n.natAbs * d) && (decide (n = 0) || (x.isNegative == decide (n < 0)))

end Binary64

end Workflow
