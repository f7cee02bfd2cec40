/-!
# Text

Documents may hold any code point, and an escape in a quoted string may leave half of a surrogate
pair behind.  Text is therefore a list of code points; `String` is used for literals only.

The module holds the carrier type and the cutting and joining operations that the rest of the
project uses: splitting at a separator, splitting into words, trimming, replacing and decimal
notation.
-/

namespace Workflow

/-- A Unicode code point.  Unlike `Char` it may be a surrogate. -/
abbrev CodePoint := Fin 0x110000

namespace CodePoint

/-- There are code points, so numerals can stand for them. -/
instance : @NeZero Nat Zero.ofOfNat0 0x110000 := ⟨Nat.succ_ne_zero 0x10FFFF⟩

/-- The code point of a character. -/
def ofChar (c : Char) : CodePoint :=
  ⟨c.toNat, by
    have h := c.valid
    unfold UInt32.isValidChar Nat.isValidChar at h
    show c.val.toNat < _
    omega⟩

/-- The code point with a given number, or U+FFFD when there is none. -/
def ofNatD (n : Nat) : CodePoint :=
  if h : n < 0x110000 then ⟨n, h⟩ else 0xFFFD

/-- A code point between two bounds, both included. -/
def within (c : CodePoint) (lo hi : Nat) : Bool :=
  decide (lo ≤ c.val) && decide (c.val ≤ hi)

/-- One of the ten digits of ASCII. -/
def isAsciiDigit (c : CodePoint) : Bool := c.within 0x30 0x39

/-- A letter of ASCII. -/
def isAsciiLetter (c : CodePoint) : Bool := c.within 0x41 0x5A || c.within 0x61 0x7A

/-- The lower-case form of an ASCII letter; every other code point stays. -/
def lowerAscii (c : CodePoint) : CodePoint :=
  if c.within 0x41 0x5A then ofNatD (c.val + 32) else c

/-- The value of a hexadecimal digit. -/
def hexValue? (c : CodePoint) : Option Nat :=
  if c.isAsciiDigit then some (c.val - 0x30)
  else if c.within 0x41 0x46 then some (c.val - 0x41 + 10)
  else if c.within 0x61 0x66 then some (c.val - 0x61 + 10)
  else none

/-- White space, in the sense of the Unicode property with the information separators added. -/
def isBlank (c : CodePoint) : Bool :=
  c.within 0x09 0x0D || c.within 0x1C 0x20 || c == 0x85 || c == 0xA0 || c == 0x1680 ||
    c.within 0x2000 0x200A || c == 0x2028 || c == 0x2029 || c == 0x202F || c == 0x205F ||
    c == 0x3000

end CodePoint

instance : Coe Char CodePoint := ⟨CodePoint.ofChar⟩

/-- A sequence of code points. -/
abbrev Text := List CodePoint

namespace Text

/-- The code points of a string. -/
def ofString (s : String) : Text := s.toList.map CodePoint.ofChar

end Text

instance : Coe String Text := ⟨Text.ofString⟩

namespace Text

/-- The pieces between the occurrences of a separator.  There is always at least one piece. -/
def splitOn (sep : CodePoint) : Text → List Text
  | [] => [[]]
  | c :: rest =>
    if c = sep then [] :: splitOn sep rest
    else
      match splitOn sep rest with
      | [] => [[c]]
      | piece :: pieces => (c :: piece) :: pieces

/-- Pieces put together with a separator between neighbours. -/
def joinWith (sep : Text) : List Text → Text
  | [] => []
  | [piece] => piece
  | piece :: pieces => piece ++ sep ++ joinWith sep pieces

/-- Drops the blanks at the end. -/
def trimEnd (t : Text) : Text :=
  (t.reverse.dropWhile CodePoint.isBlank).reverse

/-- Drops the blanks at both ends. -/
def trim (t : Text) : Text :=
  trimEnd (t.dropWhile CodePoint.isBlank)

/-- The words of a text given its last word so far, which is still open. -/
def wordsFrom (word : Text) : Text → List Text
  | [] => if word.isEmpty then [] else [word.reverse]
  | c :: rest =>
    if c.isBlank then
      if word.isEmpty then wordsFrom [] rest else word.reverse :: wordsFrom [] rest
    else wordsFrom (c :: word) rest

/-- The maximal runs without a blank. -/
def words (t : Text) : List Text := wordsFrom [] t

/-- Whether one text occurs inside another. -/
def hasInfix (needle : Text) : Text → Bool
  | [] => needle.isEmpty
  | c :: rest => needle.isPrefixOf (c :: rest) || hasInfix needle rest

/-- Replaces the first occurrence of a text. -/
def replaceFirst (old new : Text) : Text → Text
  | [] => if old.isEmpty then new else []
  | c :: rest =>
    if old.isPrefixOf (c :: rest) then new ++ (c :: rest).drop old.length
    else c :: replaceFirst old new rest

/-- Replaces the two-point text `a b` by the point `c`, from left to right. -/
def replacePair (a b c : CodePoint) : Text → Text
  | x :: y :: rest =>
    if x = a ∧ y = b then c :: replacePair a b c rest else x :: replacePair a b c (y :: rest)
  | t => t

/-- Replaces every occurrence of a code point. -/
def replacePoint (old new : CodePoint) (t : Text) : Text :=
  t.map fun c => if c = old then new else c

/-- The lower-case form with respect to ASCII. -/
def lowerAscii (t : Text) : Text := t.map CodePoint.lowerAscii

/-- A number of copies of a code point. -/
def copies (n : Nat) (c : CodePoint) : Text := List.replicate n c

/-- Decimal notation of a natural number. -/
def ofNat (n : Nat) : Text := (Nat.toDigits 10 n).map CodePoint.ofChar

/-- Decimal notation of an integer. -/
def ofInt : Int → Text
  | .ofNat n => ofNat n
  | .negSucc n => '-' :: ofNat (n + 1)

/-- The lower-case hexadecimal digit of a number below sixteen. -/
def hexDigit (n : Nat) : CodePoint :=
  CodePoint.ofNatD (if n < 10 then 0x30 + n else 0x57 + n)

/-- Lower-case hexadecimal notation with a fixed number of digits. -/
def ofHex : Nat → Nat → Text
  | 0, _ => []
  | width + 1, n => ofHex width (n / 16) ++ [hexDigit (n % 16)]

/-- The part from one position up to another; empty when the second is not beyond the first. -/
def slice (t : Text) (start stop : Nat) : Text := (t.drop start).take (stop - start)

/-- Position of the first occurrence of a code point. -/
def positionOf? (c : CodePoint) (t : Text) : Option Nat := t.findIdx? (· == c)

end Text

end Workflow
