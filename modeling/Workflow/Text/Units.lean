import Workflow.Text

/-!
# Code units

Escapes in quoted strings name 16-bit units, and files hold 8-bit units.  `joinPairs` puts the two
halves of an escaped surrogate pair together; `decodeBytes` reads a file's bytes and says where
and why they are no text; and `surrogateFault?` says where and why a text has no bytes.
-/

namespace Workflow

namespace CodePoint

/-- The first half of a surrogate pair. -/
def isHighSurrogate (c : CodePoint) : Bool := c.within 0xD800 0xDBFF

/-- The second half of a surrogate pair. -/
def isLowSurrogate (c : CodePoint) : Bool := c.within 0xDC00 0xDFFF

/-- A half of a surrogate pair. -/
def isSurrogate (c : CodePoint) : Bool := c.within 0xD800 0xDFFF

/-- The code point that a surrogate pair stands for. -/
def ofPair (high low : CodePoint) : CodePoint :=
  ofNatD (0x10000 + (high.val - 0xD800) * 0x400 + (low.val - 0xDC00))

/-- The 16-bit units of a code point. -/
def units (c : CodePoint) : List Nat :=
  if c.val < 0x10000 then [c.val]
  else [0xD800 + (c.val - 0x10000) / 0x400, 0xDC00 + (c.val - 0x10000) % 0x400]

/-- The 8-bit units of a code point. -/
def bytes (c : CodePoint) : List Nat :=
  let n := c.val
  if n < 0x80 then [n]
  else if n < 0x800 then [0xC0 + n / 0x40, 0x80 + n % 0x40]
  else if n < 0x10000 then [0xE0 + n / 0x1000, 0x80 + n / 0x40 % 0x40, 0x80 + n % 0x40]
  else
    [0xF0 + n / 0x40000, 0x80 + n / 0x1000 % 0x40, 0x80 + n / 0x40 % 0x40, 0x80 + n % 0x40]

end CodePoint

namespace Text

/-- The 16-bit units of a text. -/
def units (t : Text) : List Nat := t.flatMap CodePoint.units

/-- The 8-bit units of a text. -/
def bytes (t : Text) : List Nat := t.flatMap CodePoint.bytes

/-- Joins every high surrogate with a low surrogate that directly follows it. -/
def joinPairs : Text → Text
  | high :: low :: rest =>
    if high.isHighSurrogate && low.isLowSurrogate then
      CodePoint.ofPair high low :: joinPairs rest
    else high :: joinPairs (low :: rest)
  | t => t

/-- Whether a surrogate is left in a text. -/
def hasSurrogate (t : Text) : Bool := t.any CodePoint.isSurrogate

end Text

/-- Why a sequence of bytes is no text. -/
inductive ByteProblem where
  | start
  | continuation
  | truncated
  deriving DecidableEq, Repr

/-- A stretch of bytes that is no text: its first byte, its position and its length. -/
structure ByteFault where
  byte : Nat
  position : Nat
  length : Nat
  problem : ByteProblem
  deriving DecidableEq, Repr

namespace Text

/-- The least and greatest second byte after a given first byte. -/
def secondRange (b : Nat) : Nat × Nat :=
  if b = 0xE0 then (0xA0, 0xBF)
  else if b = 0xED then (0x80, 0x9F)
  else if b = 0xF0 then (0x90, 0xBF)
  else if b = 0xF4 then (0x80, 0x8F)
  else (0x80, 0xBF)

/-- How many bytes a character with a given first byte has; zero when no character starts so. -/
def width (b : Nat) : Nat :=
  if b < 0x80 then 1
  else if b < 0xC2 then 0
  else if b < 0xE0 then 2
  else if b < 0xF0 then 3
  else if b < 0xF5 then 4
  else 0

/-- Reads the bytes that follow the first byte of a character: how many are still owed, the range
of the next one, and the bits so far.  Answers the character and the rest, or how many bytes were
good and what was wrong. -/
def decodeTail : Nat → Nat × Nat → Nat → Nat → List Nat →
    Except (Nat × ByteProblem) (CodePoint × List Nat)
  | 0, _, _, acc, rest => .ok (CodePoint.ofNatD acc, rest)
  | _ + 1, _, seen, _, [] => .error (seen, .truncated)
  | owed + 1, (lo, hi), seen, acc, b :: rest =>
    if lo ≤ b ∧ b ≤ hi then decodeTail owed (0x80, 0xBF) (seen + 1) (acc * 0x40 + (b - 0x80)) rest
    else .error (seen, .continuation)

/-- The bits that the first byte of a character carries. -/
def leadBits (b : Nat) : Nat :=
  if b < 0x80 then b else if b < 0xE0 then b - 0xC0 else if b < 0xF0 then b - 0xE0 else b - 0xF0

/-- Reads bytes as text.  The first argument bounds the number of characters. -/
def decodeFrom : Nat → Nat → List Nat → Except ByteFault Text
  | 0, _, _ => .ok []
  | _ + 1, _, [] => .ok []
  | fuel + 1, position, b :: rest =>
    match width b with
    | 0 => .error ⟨b, position, 1, .start⟩
    | w + 1 =>
      match decodeTail w (secondRange b) 1 (leadBits b) rest with
      | .error (seen, problem) => .error ⟨b, position, seen, problem⟩
      | .ok (c, rest') =>
        match decodeFrom fuel (position + (w + 1)) rest' with
        | .error e => .error e
        | .ok t => .ok (c :: t)

/-- Reads the bytes of a file as text, or reports the first stretch that is none. -/
def decodeBytes (bytes : List Nat) : Except ByteFault Text :=
  decodeFrom bytes.length 0 bytes

/-- Line ends of all three kinds become line feeds. -/
def unifyLineEnds : Text → Text
  | [] => []
  | [c] => if c = '\r' then ['\n'] else [c]
  | c :: d :: rest =>
    if c = '\r' then
      if d = '\n' then '\n' :: unifyLineEnds rest else '\n' :: unifyLineEnds (d :: rest)
    else c :: unifyLineEnds (d :: rest)

end Text

/-- A stretch of surrogates that has no bytes: its first code point, its position and its length. -/
structure SurrogateFault where
  point : CodePoint
  position : Nat
  length : Nat
  deriving DecidableEq, Repr

namespace CodePoint

/-- A surrogate that stands for a single byte in a file name. -/
def isByteEscape (c : CodePoint) : Bool := c.within 0xDC80 0xDCFF

/-- The bytes of a code point in a file name. -/
def nameBytes (c : CodePoint) : List Nat := if c.isByteEscape then [c.val - 0xDC00] else c.bytes

end CodePoint

namespace Text

/-- The bytes of a file name. -/
def nameBytes (t : Text) : List Nat := t.flatMap CodePoint.nameBytes

/-- The first code point of a class, with the surrogates that follow it directly. -/
def firstStretch? (p : CodePoint → Bool) (t : Text) : Option SurrogateFault :=
  match t.dropWhile fun c => !p c with
  | [] => none
  | c :: rest =>
    some ⟨c, (t.takeWhile fun c => !p c).length, 1 + (rest.takeWhile CodePoint.isSurrogate).length⟩

/-- Why a text has no bytes: the first surrogates in it. -/
def surrogateFault? (t : Text) : Option SurrogateFault := t.firstStretch? CodePoint.isSurrogate

/-- Why a file name has no bytes: the first surrogates in it, from one on that stands for no
byte. -/
def nameFault? (t : Text) : Option SurrogateFault :=
  t.firstStretch? fun c => c.isSurrogate && !c.isByteEscape

end Text

/-- The sentence that reports surrogates without bytes. -/
def SurrogateFault.message (fault : SurrogateFault) : Text :=
  let place : Text :=
    if fault.length = 1 then
      "character '\\u" ++ Text.ofHex 4 fault.point.val ++ "' in position " ++
        Text.ofNat fault.position
    else
      "characters in position " ++ Text.ofNat fault.position ++ "-" ++
        Text.ofNat (fault.position + fault.length - 1)
  "'utf-8' codec can't encode " ++ place ++ ": surrogates not allowed"

/-- The sentence that reports bytes which are no text. -/
def ByteFault.message (fault : ByteFault) : Text :=
  let reason : Text :=
    match fault.problem with
    | .start => "invalid start byte"
    | .continuation => "invalid continuation byte"
    | .truncated => "unexpected end of data"
  let place : Text :=
    if fault.length = 1 then
      "byte 0x" ++ Text.ofHex 2 fault.byte ++ " in position " ++ Text.ofNat fault.position
    else
      "bytes in position " ++ Text.ofNat fault.position ++ "-" ++
        Text.ofNat (fault.position + fault.length - 1)
  "'utf-8' codec can't decode " ++ place ++ ": " ++ reason

end Workflow
