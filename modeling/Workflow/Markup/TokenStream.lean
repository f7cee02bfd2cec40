import Workflow.Markup.Block
import Workflow.Markup.Plain
import Workflow.Markup.Property
import Workflow.Markup.Quoted

/-!
# The token stream of a text

Tokens are found from left to right.  Two things need memory.  The indentation of the enclosing
block collections decides where they start and end, which shows as extra tokens.  And a mapping
key without a mark of its own is recognised only by the colon behind it, so every token that could
be such a key is remembered as pending until a colon, or the end of its line, decides; then the
key token is put in front of it.

A pending key must stay on its line and within `keyReach` code points.  Texts in which keys may be
of any length lift this limit inside flow collections.
-/

namespace Workflow

namespace Markup

/-- How far a colon may be from the start of its key. -/
def keyReach : Nat := 1024

/-- A token that may turn out to be a key. -/
structure PendingKey where
  /-- The flow level on which it stands. -/
  level : Nat
  /-- The number of tokens before it. -/
  number : Nat
  /-- Whether the text is malformed unless it is a key. -/
  required : Bool
  index : Nat
  line : Nat
  column : Nat

/-- What is remembered between two tokens. -/
structure ScanState where
  cursor : Cursor
  /-- The tokens so far, newest first. -/
  tokens : List Token
  count : Nat
  /-- The number of flow collections around the cursor. -/
  level : Nat
  /-- The column of the innermost block collection, -1 outside of all. -/
  indent : Int
  /-- The columns of the block collections around it. -/
  indents : List Int
  /-- Whether a key may start at the cursor. -/
  keyAllowed : Bool
  /-- The pending keys, at most one for a level. -/
  pending : List PendingKey
  /-- Whether pending keys inside flow collections are kept however far they are. -/
  farKeys : Bool
  /-- The length of the whole text. -/
  bound : Nat

namespace ScanState

/-- The state before the first token of a text. -/
def start (farKeys : Bool) (t : Text) : ScanState :=
  ⟨Cursor.start t, [], 0, 0, -1, [], true, [], farKeys, t.length + 1⟩

/-- Adds a token. -/
def push (s : ScanState) (kind : TokenKind) (start stop : Nat) : ScanState :=
  { s with tokens := ⟨kind, start, stop⟩ :: s.tokens, count := s.count + 1 }

/-- Adds a token of no width at the cursor. -/
def pushHere (s : ScanState) (kind : TokenKind) : ScanState :=
  s.push kind s.cursor.index s.cursor.index

/-- Adds a token for the next code points. -/
def take (s : ScanState) (kind : TokenKind) (width : Nat) : ScanState :=
  let s := s.push kind s.cursor.index (s.cursor.index + width)
  { s with cursor := s.cursor.skip width }

/-- Puts a token of no width in front of the token with a given number. -/
def insert (s : ScanState) (number : Nat) (kind : TokenKind) (position : Nat) : ScanState :=
  let after := s.tokens.take (s.count - number)
  let before := s.tokens.drop (s.count - number)
  { s with tokens := after ++ ⟨kind, position, position⟩ :: before, count := s.count + 1 }

/-- Closes the block collections that are indented more than a column. -/
def closeBlocks (s : ScanState) (column : Int) : List Int → ScanState
  | [] => s
  | outer :: indents =>
    if column < s.indent then
      closeBlocks { s.pushHere .blockEnd with indent := outer, indents := indents } column indents
    else s

/-- Closes block collections, which never happens inside flow collections. -/
def unwind (s : ScanState) (column : Int) : ScanState :=
  if s.level = 0 then s.closeBlocks column s.indents else s

/-- Opens a block collection at a column, if it is indented more than the current one. -/
def openBlock (s : ScanState) (column : Nat) : Option ScanState :=
  if s.indent < column then some { s with indent := column, indents := s.indent :: s.indents }
  else none

/-- Drops the pending key of the current level, which must not be a required one. -/
def dropPending (s : ScanState) : Except Problem ScanState :=
  if s.pending.any fun key => key.level == s.level && key.required then .error .malformed
  else .ok { s with pending := s.pending.filter fun key => key.level != s.level }

/-- Remembers that the token at the cursor may be a key. -/
def savePending (s : ScanState) : Except Problem ScanState :=
  if s.keyAllowed then
    match s.dropPending with
    | .error e => .error e
    | .ok s =>
      let c := s.cursor
      let key : PendingKey :=
        ⟨s.level, s.count, s.level == 0 && s.indent == (c.column : Int), c.index, c.line, c.column⟩
      .ok { s with pending := key :: s.pending }
  else .ok s

/-- Drops the pending keys that are too far behind the cursor. -/
def dropStale (s : ScanState) : Except Problem ScanState :=
  if s.farKeys && s.level != 0 then .ok s
  else
    let isStale (key : PendingKey) : Bool :=
      key.line != s.cursor.line || decide (keyReach < s.cursor.index - key.index)
    if s.pending.any fun key => isStale key && key.required then .error .malformed
    else .ok { s with pending := s.pending.filter fun key => !isStale key }

/-- Past spaces, comments and line breaks.  A key may start on every new line of a block. -/
def skipBlank : Nat → ScanState → ScanState
  | 0, s => s
  | fuel + 1, s =>
    let c := s.cursor.skipSpaces.skipComment
    if c.isIn isBreak then
      skipBlank fuel { s with cursor := c.lineBreak.2, keyAllowed := s.keyAllowed || s.level == 0 }
    else { s with cursor := c }

/-! ## One token -/

/-- The end of the text. -/
def readEnd (s : ScanState) : Except Problem ScanState := do
  let s ← (s.unwind (-1)).dropPending
  pure { s.pushHere .streamEnd with keyAllowed := false, pending := [] }

/-- A directive. -/
def readDirective (s : ScanState) : Except Problem ScanState := do
  let s ← (s.unwind (-1)).dropPending
  let (d, stop, c) ← directive s.bound s.cursor
  pure { s.push (.directive d) s.cursor.index stop with cursor := c, keyAllowed := false }

/-- A document marker. -/
def readMarker (s : ScanState) (kind : TokenKind) : Except Problem ScanState := do
  let s ← (s.unwind (-1)).dropPending
  pure { s.take kind 3 with keyAllowed := false }

/-- The start of a flow collection. -/
def readFlowStart (s : ScanState) (kind : TokenKind) : Except Problem ScanState := do
  let s ← s.savePending
  pure { s.take kind 1 with level := s.level + 1, keyAllowed := true }

/-- The end of a flow collection. -/
def readFlowEnd (s : ScanState) (kind : TokenKind) : Except Problem ScanState := do
  let s ← s.dropPending
  pure { s.take kind 1 with level := s.level - 1, keyAllowed := false }

/-- A comma between the entries of a flow collection. -/
def readFlowEntry (s : ScanState) : Except Problem ScanState := do
  let s ← s.dropPending
  pure { s.take .flowEntry 1 with keyAllowed := true }

/-- A token that opens a block collection on a column unless it is open already; keys must be
allowed there.  Inside flow collections nothing is opened. -/
def openFor (s : ScanState) (kind : TokenKind) : Except Problem ScanState :=
  if s.level = 0 then
    if s.keyAllowed then
      match s.openBlock s.cursor.column with
      | some s => .ok (s.pushHere kind)
      | none => .ok s
    else .error .malformed
  else .ok s

/-- The mark of an entry of a block sequence. -/
def readBlockEntry (s : ScanState) : Except Problem ScanState := do
  let s ← s.openFor .blockSequenceStart
  let s ← s.dropPending
  pure { s.take .blockEntry 1 with keyAllowed := true }

/-- The mark of a key. -/
def readKey (s : ScanState) : Except Problem ScanState := do
  let s ← s.openFor .blockMappingStart
  let s ← s.dropPending
  pure { s.take .key 1 with keyAllowed := s.level == 0 }

/-- The colon in front of a value.  A pending key becomes a key, and may open a block mapping. -/
def readValue (s : ScanState) : Except Problem ScanState :=
  match s.pending.find? fun key => key.level == s.level with
  | some key =>
    let s := { s with pending := s.pending.filter fun key => key.level != s.level }
    let s := s.insert key.number .key key.index
    let s :=
      if s.level = 0 then
        match s.openBlock key.column with
        | some s => s.insert key.number .blockMappingStart key.index
        | none => s
      else s
    .ok { s.take .value 1 with keyAllowed := false }
  | none => do
    let s ← s.openFor .blockMappingStart
    let s ← s.dropPending
    pure { s.take .value 1 with keyAllowed := s.level == 0 }

/-- An anchor or an alias. -/
def readAnchor (s : ScanState) (kind : Text → TokenKind) : Except Problem ScanState := do
  let s ← s.savePending
  let (n, c) ← anchorName s.cursor
  pure { s.push (kind n) s.cursor.index c.index with cursor := c, keyAllowed := false }

/-- A tag. -/
def readTag (s : ScanState) : Except Problem ScanState := do
  let s ← s.savePending
  let (handle, suffix, c) ← tag s.bound s.cursor
  pure { s.push (.tag handle suffix) s.cursor.index c.index with cursor := c, keyAllowed := false }

/-- A block scalar. -/
def readBlockScalar (s : ScanState) (style : ScalarStyle) : Except Problem ScanState := do
  let s ← s.dropPending
  let (t, stop, c) ← block (style == .folded) s.indent s.bound s.cursor
  pure { s.push (.scalar t style) s.cursor.index stop with cursor := c, keyAllowed := true }

/-- A quoted scalar. -/
def readQuoted (s : ScanState) (style : ScalarStyle) : Except Problem ScanState := do
  let s ← s.savePending
  let (t, c) ← quoted (style == .doubleQuoted) s.bound s.cursor
  pure { s.push (.scalar t style) s.cursor.index c.index with cursor := c, keyAllowed := false }

/-- A plain scalar. -/
def readPlain (s : ScanState) : Except Problem ScanState := do
  let s ← s.savePending
  let scan := plain (s.level != 0) s.indent s.bound s.cursor
  pure { s.push (.scalar scan.text .plain) s.cursor.index scan.stop with
    cursor := scan.cursor, keyAllowed := scan.leftLine }

/-- Whether a plain scalar may start at a code point, given the next one. -/
def startsPlain (inFlow : Bool) (c : CodePoint) (next : Option CodePoint) : Bool :=
  !(isSpaceOrTab c || isBreak c || oneOf "-?:,[]\x7b\x7d#&*!|>'\"%@\x60" c) ||
    (!endsItem next && (c == '-' || (!inFlow && (c == '?' || c == ':'))))

/-- The token at the cursor. -/
def readToken (s : ScanState) : Except Problem ScanState :=
  let c := s.cursor
  let next := c.ahead 1
  let inFlow := s.level != 0
  match c.peek with
  | none => s.readEnd
  | some x =>
    if x == '%' && c.column == 0 then s.readDirective
    else if x == '-' && c.column == 0 && c.atMarker then s.readMarker .documentStart
    else if x == '.' && c.column == 0 && c.atMarker then s.readMarker .documentEnd
    else if x == '[' then s.readFlowStart .flowSequenceStart
    else if x == 0x7B then s.readFlowStart .flowMappingStart
    else if x == ']' then s.readFlowEnd .flowSequenceEnd
    else if x == 0x7D then s.readFlowEnd .flowMappingEnd
    else if x == ',' then s.readFlowEntry
    else if x == '-' && endsItem next then s.readBlockEntry
    else if x == '?' && (inFlow || endsItem next) then s.readKey
    else if x == ':' && (inFlow || endsItem next) then s.readValue
    else if x == '*' then s.readAnchor .alias
    else if x == '&' then s.readAnchor .anchor
    else if x == '!' then s.readTag
    else if x == '|' && !inFlow then s.readBlockScalar .literal
    else if x == '>' && !inFlow then s.readBlockScalar .folded
    else if x == '\'' then s.readQuoted .singleQuoted
    else if x == '"' then s.readQuoted .doubleQuoted
    else if startsPlain inFlow x next then s.readPlain
    else .error .malformed

/-- Whether the last token was found. -/
def isDone (s : ScanState) : Bool :=
  match s.tokens with
  | ⟨.streamEnd, _, _⟩ :: _ => true
  | _ => false

/-- Blanks, the ends of block collections, and the next token. -/
def step (s : ScanState) : Except Problem ScanState := do
  let s := skipBlank s.bound s
  let s ← s.dropStale
  (s.unwind s.cursor.column).readToken

/-- The tokens before the first pending key, oldest first: the ones whose place is settled. -/
def settled (s : ScanState) : List Token :=
  s.tokens.reverse.take (s.pending.foldl (fun n key => min n key.number) s.count)

end ScanState

/-- The tokens of a text.  Where no further token can be found the stream breaks off, with the
reason. -/
structure TokenStream where
  tokens : List Token
  problem : Problem

namespace TokenStream

/-- All steps up to the end of the text, or up to the first that fails.  A required key that goes
stale shows before the next step; the tokens found since `before` are not handed out then. -/
def scan (before : ScanState) : Nat → ScanState → TokenStream
  | 0, _ => ⟨before.settled, .malformed⟩
  | fuel + 1, s =>
    if s.isDone then ⟨s.tokens.reverse, .malformed⟩
    else
      match s.dropStale with
      | .error problem => ⟨before.settled, problem⟩
      | .ok s =>
        match s.step with
        | .error problem => ⟨s.settled, problem⟩
        | .ok after => scan s fuel after

/-- The token stream of a text.  A byte order mark at its start is passed over, and a text with a
code point that no document may hold has no tokens. -/
def ofText (farKeys : Bool) (t : Text) : TokenStream :=
  if t.all isAllowed then
    let s := ScanState.start farKeys t
    let s := if s.cursor.isAt 0xFEFF then { s with cursor := s.cursor.next } else s
    scan s (t.length + 2) s
  else ⟨[], .malformed⟩

end TokenStream

end Markup

end Workflow
