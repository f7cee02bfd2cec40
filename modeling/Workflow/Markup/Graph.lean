import Workflow.Markup.Tag
import Workflow.Markup.TokenStream

/-!
# Composed nodes

A document is a finite graph of nodes: scalars, sequences and mappings.  It is a graph and not a
tree because an alias stands for the node with its anchor, which may be shared or may even contain
the alias.  Nodes are numbered, and collections list the numbers of their parts.

`Graph.ofTokens` reads one document from a token stream.  The reader descends along the nesting of
collections; every step but a bounded number of them takes a token, so a multiple of the number of
tokens bounds its depth.
-/

namespace Workflow

namespace Markup

/-- What a node holds. -/
inductive Content where
  | scalar (tag : ScalarTag) (text : Text) (style : ScalarStyle)
  | sequence (items : List Nat)
  | mapping (entries : List (Nat × Nat))
  deriving DecidableEq, Repr

/-- A node and the span of its text. -/
structure Node where
  start : Nat
  stop : Nat
  content : Content
  deriving DecidableEq, Repr

/-- A graph of numbered nodes with a root. -/
structure Graph where
  nodes : Array Node
  root : Nat

/-! ## Reading a document -/

/-- What is left of the stream, and the nodes and anchors so far. -/
structure GraphReader where
  tokens : List Token
  problem : Problem
  handles : List (Text × Text)
  nodes : Array Node
  anchors : List (Text × Nat)

namespace GraphReader

/-- The next token. -/
def peek (k : GraphReader) : Except Problem Token :=
  match k.tokens with
  | [] => .error k.problem
  | token :: _ => .ok token

/-- Past the next token. -/
def drop (k : GraphReader) : GraphReader := { k with tokens := k.tokens.tail }

/-- Adds a node, under its anchor if it has one. -/
def add (k : GraphReader) (anchor : Option Text) (node : Node) : Nat × GraphReader :=
  let id := k.nodes.size
  let anchors := match anchor with | some name => (name, id) :: k.anchors | none => k.anchors
  (id, { k with nodes := k.nodes.push node, anchors := anchors })

/-- Replaces a node whose parts are known by now. -/
def put (k : GraphReader) (id : Nat) (node : Node) : GraphReader :=
  { k with nodes := k.nodes.setIfInBounds id node }

/-- Adds the node of a value that is absent. -/
def absent (k : GraphReader) (position : Nat) : Nat × GraphReader :=
  k.add none ⟨position, position, .scalar .null [] .plain⟩

/-- What stands in front of a node. -/
structure Properties where
  anchor : Option Text := none
  tag : Option (Option Text × Text) := none
  /-- The span of the properties, if there are any. -/
  span : Option (Nat × Nat) := none

namespace Properties

/-- The span of the properties together with one more. -/
def spanWith (p : Properties) (token : Token) : Option (Nat × Nat) :=
  some ((p.span.map (·.1)).getD token.start, token.stop)

end Properties

/-- An anchor, if it comes next. -/
def takeAnchor (k : GraphReader) (p : Properties) : Except Problem (Properties × GraphReader) := do
  let token ← k.peek
  match token.kind with
  | .anchor name => pure ({ p with anchor := some name, span := p.spanWith token }, k.drop)
  | _ => pure (p, k)

/-- A tag, if it comes next. -/
def takeTag (k : GraphReader) (p : Properties) : Except Problem (Properties × GraphReader) := do
  let token ← k.peek
  match token.kind with
  | .tag handle suffix =>
    pure ({ p with tag := some (handle, suffix), span := p.spanWith token }, k.drop)
  | _ => pure (p, k)

/-- The properties in front of a node, in either order.  After the first one the stream is looked
at for the second. -/
def takeProperties (k : GraphReader) : Except Problem (Properties × GraphReader) := do
  let (p, k) ← k.takeAnchor {}
  let (p, k) ← k.takeTag p
  if p.anchor.isNone then k.takeAnchor p else pure (p, k)

/-- Whether a node has the anchor already. -/
def isTaken (k : GraphReader) (anchor : Text) : Bool := k.anchors.any fun a => a.1 == anchor

/-- The tag that a handle and a suffix spell. -/
def expandTag (k : GraphReader) : Option (Option Text × Text) → Except Problem (Option Text)
  | none => .ok none
  | some (none, suffix) => .ok (some suffix)
  | some (some handle, suffix) =>
    match k.handles.find? fun h => h.1 == handle with
    | some (_, expansion) => .ok (some (expansion ++ suffix))
    | none => .error .malformed

/-- Kinds of tokens that end a value in a block mapping. -/
def endsBlockValue : TokenKind → Bool
  | .key | .value | .blockEnd => true
  | _ => false

/-- Kinds of tokens that end an entry of a block sequence. -/
def endsBlockEntry : TokenKind → Bool
  | .blockEntry | .blockEnd => true
  | _ => false

/-- Kinds of tokens that end an entry of a sequence at the column of its mapping. -/
def endsFlatEntry : TokenKind → Bool
  | .blockEntry | .key | .value | .blockEnd => true
  | _ => false

/-- Kinds of tokens that end a value in a flow mapping. -/
def endsFlowValue : TokenKind → Bool
  | .flowEntry | .flowMappingEnd => true
  | _ => false

/-- Kinds of tokens that end a value of a pair in a flow sequence. -/
def endsPairValue : TokenKind → Bool
  | .flowEntry | .flowSequenceEnd => true
  | _ => false

/-- Kinds of tokens that end the key of a pair in a flow sequence. -/
def endsPairKey (kind : TokenKind) : Bool := kind == .value || endsPairValue kind

/-- Kinds of tokens that end a key in a flow mapping. -/
def endsFlowKey (kind : TokenKind) : Bool := kind == .value || endsFlowValue kind

/-- Past the comma between entries; the first entry has none. -/
def takeComma (k : GraphReader) (first : Bool) : Except Problem GraphReader := do
  if first then pure k
  else
    let token ← k.peek
    if token.kind == .flowEntry then pure k.drop else throw .malformed

/-- Takes a number for a collection whose parts are still to be read. -/
def reserve (k : GraphReader) (anchor : Option Text) (start : Nat) : Nat × GraphReader :=
  k.add anchor ⟨start, start, .sequence []⟩

/-- The node that an alias stands for. -/
def aliased (k : GraphReader) (name : Text) : Except Problem (Nat × GraphReader) :=
  match k.anchors.find? fun a => a.1 == name with
  | some (_, id) => .ok (id, k.drop)
  | none => .error .malformed

/-- A node that consists of its properties only. -/
def bare (k : GraphReader) (p : Properties) (tag : Option Text) :
    Except Problem (Nat × GraphReader) :=
  match p.span with
  | some (start, stop) =>
    .ok (k.add p.anchor ⟨start, stop, .scalar (scalarTag tag [] .plain) [] .plain⟩)
  | none => .error .malformed

mutual

/-- A node.  `inBlock` allows block collections, `flat` also a block sequence at the column of the
mapping around it.  No two nodes have the same anchor. -/
def node (inBlock flat : Bool) : Nat → GraphReader → Except Problem (Nat × GraphReader)
  | 0, _ => .error .malformed
  | fuel + 1, k => do
    let token ← k.peek
    match token.kind with
    | .alias name => k.aliased name
    | _ =>
      let (p, k) ← k.takeProperties
      let tag ← k.expandTag p.tag
      let token ← k.peek
      if p.anchor.any k.isTaken then throw .malformed
      let start := (p.span.map (·.1)).getD token.start
      match token.kind with
      | .scalar t style =>
        pure (k.drop.add p.anchor ⟨start, token.stop, .scalar (scalarTag tag t style) t style⟩)
      | .flowSequenceStart =>
        let (id, k) := k.drop.reserve p.anchor start
        let (items, stop, k) ← flowSequence true fuel k
        pure (id, k.put id ⟨start, stop, .sequence items⟩)
      | .flowMappingStart =>
        let (id, k) := k.drop.reserve p.anchor start
        let (entries, stop, k) ← flowMapping true fuel k
        pure (id, k.put id ⟨start, stop, .mapping entries⟩)
      | .blockSequenceStart =>
        if inBlock then
          let (id, k) := k.drop.reserve p.anchor start
          let (items, stop, k) ← blockSequence fuel k
          pure (id, k.put id ⟨start, stop, .sequence items⟩)
        else k.bare p tag
      | .blockMappingStart =>
        if inBlock then
          let (id, k) := k.drop.reserve p.anchor start
          let (entries, stop, k) ← blockMapping fuel k
          pure (id, k.put id ⟨start, stop, .mapping entries⟩)
        else k.bare p tag
      | .blockEntry =>
        if flat then
          let (id, k) := k.reserve p.anchor start
          let (items, stop, k) ← flatSequence fuel k
          pure (id, k.put id ⟨start, stop, .sequence items⟩)
        else k.bare p tag
      | _ => k.bare p tag

/-- A node, or an absent value at a position when a token comes next that ends the place. -/
def nodeOrAbsent (inBlock flat : Bool) (ends : TokenKind → Bool) (position : Nat) :
    Nat → GraphReader → Except Problem (Nat × GraphReader)
  | 0, _ => .error .malformed
  | fuel + 1, k => do
    let token ← k.peek
    if ends token.kind then pure (k.absent position) else node inBlock flat fuel k

/-- The value behind a colon; without a colon it is absent. -/
def valuePart (inBlock flat : Bool) (ends : TokenKind → Bool) :
    Nat → GraphReader → Except Problem (Nat × GraphReader)
  | 0, _ => .error .malformed
  | fuel + 1, k => do
    let token ← k.peek
    if token.kind == .value then nodeOrAbsent inBlock flat ends token.stop fuel k.drop
    else pure (k.absent token.start)

/-- The items of a flow sequence up to its end.  A pair among them is a mapping of its own. -/
def flowSequence (first : Bool) : Nat → GraphReader → Except Problem (List Nat × Nat × GraphReader)
  | 0, _ => .error .malformed
  | fuel + 1, k => do
    let token ← k.peek
    if token.kind == .flowSequenceEnd then pure ([], token.stop, k.drop)
    else
      let k ← k.takeComma first
      let token ← k.peek
      match token.kind with
      | .flowSequenceEnd => pure ([], token.stop, k.drop)
      | .key =>
        let (id, k) := k.drop.reserve none token.start
        let (key, k) ← nodeOrAbsent false false endsPairKey token.stop fuel k
        let (value, k) ← valuePart false false endsPairValue fuel k
        let after ← k.peek
        let k := k.put id ⟨token.start, after.start, .mapping [(key, value)]⟩
        let (items, stop, k) ← flowSequence false fuel k
        pure (id :: items, stop, k)
      | _ =>
        let (id, k) ← node false false fuel k
        let (items, stop, k) ← flowSequence false fuel k
        pure (id :: items, stop, k)

/-- The entries of a flow mapping up to its end.  A key without a mark and a colon has an absent
value. -/
def flowMapping (first : Bool) :
    Nat → GraphReader → Except Problem (List (Nat × Nat) × Nat × GraphReader)
  | 0, _ => .error .malformed
  | fuel + 1, k => do
    let token ← k.peek
    if token.kind == .flowMappingEnd then pure ([], token.stop, k.drop)
    else
      let k ← k.takeComma first
      let token ← k.peek
      match token.kind with
      | .flowMappingEnd => pure ([], token.stop, k.drop)
      | .key =>
        let (key, k) ← nodeOrAbsent false false endsFlowKey token.stop fuel k.drop
        let (value, k) ← valuePart false false endsFlowValue fuel k
        let (entries, stop, k) ← flowMapping false fuel k
        pure ((key, value) :: entries, stop, k)
      | _ =>
        let (key, k) ← node false false fuel k
        let after ← k.peek
        let (value, k) := k.absent after.start
        let (entries, stop, k) ← flowMapping false fuel k
        pure ((key, value) :: entries, stop, k)

/-- The items of a block sequence up to the end of the block. -/
def blockSequence : Nat → GraphReader → Except Problem (List Nat × Nat × GraphReader)
  | 0, _ => .error .malformed
  | fuel + 1, k => do
    let token ← k.peek
    match token.kind with
    | .blockEntry =>
      let (id, k) ← nodeOrAbsent true false endsBlockEntry token.stop fuel k.drop
      let (items, stop, k) ← blockSequence fuel k
      pure (id :: items, stop, k)
    | .blockEnd => pure ([], token.stop, k.drop)
    | _ => throw .malformed

/-- The items of a block sequence that stands at the column of its mapping; it ends with the
entry. -/
def flatSequence : Nat → GraphReader → Except Problem (List Nat × Nat × GraphReader)
  | 0, _ => .error .malformed
  | fuel + 1, k => do
    let token ← k.peek
    match token.kind with
    | .blockEntry =>
      let (id, k) ← nodeOrAbsent true false endsFlatEntry token.stop fuel k.drop
      let (items, stop, k) ← flatSequence fuel k
      pure (id :: items, stop, k)
    | _ => pure ([], token.start, k)

/-- The entries of a block mapping up to the end of the block. -/
def blockMapping : Nat → GraphReader → Except Problem (List (Nat × Nat) × Nat × GraphReader)
  | 0, _ => .error .malformed
  | fuel + 1, k => do
    let token ← k.peek
    match token.kind with
    | .key =>
      let (key, k) ← nodeOrAbsent true true endsBlockValue token.stop fuel k.drop
      let (value, k) ← valuePart true true endsBlockValue fuel k
      let (entries, stop, k) ← blockMapping fuel k
      pure ((key, value) :: entries, stop, k)
    | .blockEnd => pure ([], token.stop, k.drop)
    | _ => throw .malformed

end

/-! ## Documents -/

/-- The handles that are always known. -/
def standardHandles : List (Text × Text) := [("!", "!"), ("!!", "tag:yaml.org,2002:")]

/-- The directives in front of a document: at most one version, which must be 1, and at most one
expansion for a handle. -/
def directives (k : GraphReader) (versioned : Bool) : Nat → Except Problem GraphReader
  | 0 => .error .malformed
  | fuel + 1 => do
    let token ← k.peek
    match token.kind with
    | .directive (.version major) =>
      if versioned || major != 1 then throw .malformed else directives k.drop true fuel
    | .directive (.tagHandle handle expansion) =>
      if k.handles.any fun h => h.1 == handle then throw .malformed
      else directives { k.drop with handles := k.handles ++ [(handle, expansion)] } versioned fuel
    | .directive .unknown => directives k.drop versioned fuel
    | _ => pure { k with handles := k.handles ++ standardHandles }

/-- Kinds of tokens that show that a marked document has no content. -/
def endsDocument : TokenKind → Bool
  | .directive _ | .documentStart | .documentEnd | .streamEnd => true
  | _ => false

/-- Past the markers behind a document, to the end of the stream.  A second document is refused,
once its directives have been read. -/
def finish (k : GraphReader) : Nat → Except Problem Unit
  | 0 => .error .malformed
  | fuel + 1 => do
    let token ← k.peek
    match token.kind with
    | .documentEnd => finish k.drop fuel
    | .streamEnd => pure ()
    | _ =>
      let _ ← directives { k with handles := [] } false fuel
      throw .malformed

/-- The only document of a stream, if there is one. -/
def document (k : GraphReader) (fuel : Nat) : Except Problem (Option Graph) := do
  let token ← k.peek
  match token.kind with
  | .streamEnd => pure none
  | _ =>
    let (root, k) ←
      match token.kind with
      | .directive _ | .documentStart => do
        let k ← k.directives false fuel
        let marker ← k.peek
        if marker.kind == .documentStart then
          let k := k.drop
          let after ← k.peek
          nodeOrAbsent true false endsDocument after.start fuel k
        else throw .malformed
      | _ => node true false fuel { k with handles := standardHandles }
    k.finish fuel
    pure (some ⟨k.nodes, root⟩)

end GraphReader

/-- The document that a token stream holds. -/
def Graph.ofTokens (stream : TokenStream) : Except Problem (Option Graph) :=
  GraphReader.document ⟨stream.tokens, stream.problem, [], #[], []⟩ (4 * stream.tokens.length + 8)

end Markup

end Workflow
