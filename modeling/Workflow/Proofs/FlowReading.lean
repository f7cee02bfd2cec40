import Workflow.Document.Unroll
import Workflow.Proofs.JsonTokens

/-!
# Reading the tokens of JSON

The tokens of a form are read as nodes of a graph, one for each value and one for each name.  A
collection takes its number before its parts do, so a part always has a greater number than the
collection around it.  `Form.ReadAt` says that a form stands at a node of a graph; it depends on no
node with a smaller number, which is why reading on and filling in a collection later do no harm.

Back from the nodes comes the value of the form.
-/

namespace Workflow

namespace Json

open Markup GraphReader

/-! ## Forms in graphs -/

/-- What a node holds, where its span does not matter. -/
def HasContent (nodes : Array Node) (id : Nat) (content : Content) : Prop :=
  (nodes[id]?).map Node.content = some content

/-- The content of the node of a string. -/
def stringContent (pieces : List Piece) : Content :=
  .scalar .other (foldedUnits pieces) .doubleQuoted

/-- The content of the node of a plain word. -/
def wordContent (w : Text) : Content := .scalar (impliedTag w) w .plain

mutual

/-- A form stands at a node. -/
def Form.ReadAt (nodes : Array Node) : Form → Nat → Prop
  | .null, id => HasContent nodes id (wordContent "null")
  | .bool b, id => HasContent nodes id (wordContent (if b then "true" else "false"))
  | .number a, id => HasContent nodes id (wordContent a.text)
  | .string pieces, id => HasContent nodes id (stringContent pieces)
  | .emptyArray _, id => HasContent nodes id (.sequence [])
  | .array items, id => ∃ ids, HasContent nodes id (.sequence ids) ∧ items.ReadAt nodes id ids
  | .emptyObject _, id => HasContent nodes id (.mapping [])
  | .object members, id =>
    ∃ entries, HasContent nodes id (.mapping entries) ∧ members.ReadAt nodes id entries

/-- Items stand at nodes behind the one of their array. -/
def Items.ReadAt (nodes : Array Node) : Items → Nat → List Nat → Prop
  | .last _ x _, parent, ids => ∃ id, ids = [id] ∧ parent < id ∧ x.ReadAt nodes id
  | .more _ x _ items, parent, ids =>
    ∃ id rest, ids = id :: rest ∧ parent < id ∧ x.ReadAt nodes id ∧ items.ReadAt nodes parent rest

/-- Members stand at nodes behind the one of their object. -/
def Members.ReadAt (nodes : Array Node) : Members → Nat → List (Nat × Nat) → Prop
  | .last label x _, parent, entries =>
    ∃ key id, entries = [(key, id)] ∧ parent < key ∧
      HasContent nodes key (stringContent label.name) ∧ parent < id ∧ x.ReadAt nodes id
  | .more label x _ members, parent, entries =>
    ∃ key id rest, entries = (key, id) :: rest ∧ parent < key ∧
      HasContent nodes key (stringContent label.name) ∧ parent < id ∧ x.ReadAt nodes id ∧
      members.ReadAt nodes parent rest

end

/-- The nodes from a number on stay. -/
def Keeps (first : Nat) (nodes nodes' : Array Node) : Prop :=
  ∀ id node, first ≤ id → nodes[id]? = some node → nodes'[id]? = some node

section Frame

variable {nodes nodes' nodes'' : Array Node} {first id : Nat}

theorem Keeps.trans
    (h : Keeps first nodes nodes')
    (h' : Keeps first nodes' nodes'') :
    Keeps first nodes nodes'' :=
  fun id node hid hnode => h' id node hid (h id node hid hnode)

/-- Nodes that stay are not fewer. -/
theorem Keeps.size_le
    (h : Keeps 0 nodes nodes') :
    nodes.size ≤ nodes'.size := by
  by_contra hlt
  have hin : nodes'.size < nodes.size := Nat.lt_of_not_le hlt
  have hlast := h nodes'.size nodes[nodes'.size] (Nat.zero_le _) (Array.getElem?_eq_getElem hin)
  rw [Array.getElem?_eq_none (Nat.le_refl _)] at hlast
  cases hlast

theorem Keeps.hasContent
    {content : Content}
    (h : Keeps first nodes nodes')
    (hid : first ≤ id)
    (hcontent : HasContent nodes id content) :
    HasContent nodes' id content := by
  obtain ⟨node, hnode, hheld⟩ := Option.map_eq_some_iff.1 hcontent
  rw [HasContent, h id node hid hnode, Option.map_some, hheld]

mutual

/-- A form at a node does not depend on the nodes in front. -/
theorem Form.ReadAt.keep
    {x : Form}
    {first id : Nat}
    (h : Keeps first nodes nodes')
    (hid : first ≤ id)
    (hx : x.ReadAt nodes id) :
    x.ReadAt nodes' id := by
  cases x with
  | null => exact h.hasContent hid hx
  | bool b => exact h.hasContent hid hx
  | number a => exact h.hasContent hid hx
  | string pieces => exact h.hasContent hid hx
  | emptyArray gap => exact h.hasContent hid hx
  | array items =>
    obtain ⟨ids, hcontent, hitems⟩ := hx
    exact ⟨ids, h.hasContent hid hcontent, hitems.keep h (by omega)⟩
  | emptyObject gap => exact h.hasContent hid hx
  | object members =>
    obtain ⟨entries, hcontent, hmembers⟩ := hx
    exact ⟨entries, h.hasContent hid hcontent, hmembers.keep h (by omega)⟩

theorem Items.ReadAt.keep
    {items : Items}
    {first parent : Nat}
    {ids : List Nat}
    (h : Keeps first nodes nodes')
    (hparent : first ≤ parent + 1)
    (hitems : items.ReadAt nodes parent ids) :
    items.ReadAt nodes' parent ids := by
  cases items with
  | last before x after =>
    obtain ⟨id, hids, hlt, hx⟩ := hitems
    exact ⟨id, hids, hlt, hx.keep h (by omega)⟩
  | more before x after items =>
    obtain ⟨id, rest, hids, hlt, hx, hrest⟩ := hitems
    exact ⟨id, rest, hids, hlt, hx.keep h (by omega), hrest.keep h hparent⟩

theorem Members.ReadAt.keep
    {members : Members}
    {first parent : Nat}
    {entries : List (Nat × Nat)}
    (h : Keeps first nodes nodes')
    (hparent : first ≤ parent + 1)
    (hmembers : members.ReadAt nodes parent entries) :
    members.ReadAt nodes' parent entries := by
  cases members with
  | last label x after =>
    obtain ⟨key, id, hentries, hkey, hname, hlt, hx⟩ := hmembers
    exact ⟨key, id, hentries, hkey, h.hasContent (by omega) hname, hlt, hx.keep h (by omega)⟩
  | more label x after members =>
    obtain ⟨key, id, rest, hentries, hkey, hname, hlt, hx, hrest⟩ := hmembers
    exact ⟨key, id, rest, hentries, hkey, h.hasContent (by omega) hname, hlt,
      hx.keep h (by omega), hrest.keep h hparent⟩

end

theorem hasContent_push
    (node : Node) :
    HasContent (nodes.push node) nodes.size node.content := by
  simp [HasContent]

theorem keeps_push
    (node : Node) :
    Keeps 0 nodes (nodes.push node) := by
  intro id old _ hold
  have hlt := (Array.getElem?_eq_some_iff.1 hold).1
  rw [Array.getElem?_push_lt hlt, ← hold, Array.getElem?_eq_getElem hlt]

theorem hasContent_set
    (hid : id < nodes.size)
    (node : Node) :
    HasContent (nodes.setIfInBounds id node) id node.content := by
  simp [HasContent, hid]

/-- Filling in a node leaves the nodes behind it. -/
theorem keeps_set
    (node : Node) :
    Keeps (id + 1) nodes (nodes.setIfInBounds id node) := by
  intro i old hi hold
  rw [Array.getElem?_setIfInBounds_ne (by omega), hold]

end Frame

/-! ## Reading -/

section Reading

variable {k : GraphReader} {kind : TokenKind} {rest : List TokenKind} {fuel : Nat}

/-- The kinds of the tokens that are still to be read. -/
def ahead (k : GraphReader) : List TokenKind := k.tokens.map Token.kind

theorem exists_peek
    (h : ahead k = kind :: rest) :
    ∃ token, k.peek = .ok token ∧ token.kind = kind ∧ ahead k.drop = rest := by
  cases htokens : k.tokens with
  | nil => simp [ahead, htokens] at h
  | cons token tokens =>
    simp only [ahead, htokens, List.map_cons, List.cons.injEq] at h
    exact ⟨token, by simp [peek, htokens], h.1, by simp [ahead, drop, htokens, h.2]⟩

/-- Kinds of tokens with which a form starts. -/
def startsForm : TokenKind → Bool
  | .scalar _ _ | .flowSequenceStart | .flowMappingStart => true
  | _ => false

/-- The next token is one with which a form starts. -/
def StartsForm (kinds : List TokenKind) : Prop :=
  ∃ kind rest, kinds = kind :: rest ∧ startsForm kind = true

/-- No properties stand in front of a form. -/
theorem takeProperties_eq
    {token : Token}
    (hpeek : k.peek = .ok token)
    (hstarts : startsForm token.kind = true) :
    k.takeProperties = .ok ({}, k) := by
  have hanchor : ∀ p, k.takeAnchor p = .ok (p, k) := by
    intro p
    simp only [takeAnchor, hpeek, bind, Except.bind]
    split
    case h_1 heq =>
      rw [heq] at hstarts
      cases hstarts
    case h_2 => rfl
  have htag : ∀ p, k.takeTag p = .ok (p, k) := by
    intro p
    simp only [takeTag, hpeek, bind, Except.bind]
    split
    case h_1 heq =>
      rw [heq] at hstarts
      cases hstarts
    case h_2 => rfl
  simp [takeProperties, hanchor, htag, bind, Except.bind]

/-- A reader went on to what is left, and no node it had has changed. -/
structure Leads (k k' : GraphReader) (rest : List TokenKind) : Prop where
  ahead : ahead k' = rest
  keeps : Keeps 0 k.nodes k'.nodes

theorem Leads.trans
    {k k' k'' : GraphReader}
    {rest' : List TokenKind}
    (h : Leads k k' rest)
    (h' : Leads k' k'' rest') :
    Leads k k'' rest' :=
  ⟨h'.ahead, h.keeps.trans h'.keeps⟩

/-- A scalar is read as a node. -/
theorem node_scalar
    (inBlock flat : Bool)
    (fuel : Nat)
    {t : Text}
    {style : ScalarStyle}
    (h : ahead k = .scalar t style :: rest) :
    ∃ k', node inBlock flat (fuel + 1) k = .ok (k.nodes.size, k') ∧ Leads k k' rest ∧
      HasContent k'.nodes k.nodes.size (.scalar (scalarTag none t style) t style) := by
  obtain ⟨token, hpeek, hkind, hdrop⟩ := exists_peek h
  refine ⟨(k.drop.add none
    ⟨token.start, token.stop, .scalar (scalarTag none t style) t style⟩).2, ?_,
    ⟨hdrop, keeps_push _⟩, hasContent_push _⟩
  simp [node, hpeek, hkind, takeProperties_eq hpeek (by rw [hkind]; rfl), bind, Except.bind,
    expandTag, pure, Except.pure]
  rfl

/-- A flow sequence takes a number, and its items are read behind it. -/
theorem node_sequence
    {inBlock flat : Bool}
    (h : ahead k = .flowSequenceStart :: rest) :
    ∃ k₁ start, Leads k k₁ rest ∧ k₁.nodes.size = k.nodes.size + 1 ∧
      ∀ items stop k₂, flowSequence true fuel k₁ = .ok (items, stop, k₂) →
        node inBlock flat (fuel + 1) k =
          .ok (k.nodes.size, k₂.put k.nodes.size ⟨start, stop, .sequence items⟩) := by
  obtain ⟨token, hpeek, hkind, hdrop⟩ := exists_peek h
  refine ⟨(k.drop.reserve none token.start).2, token.start, ⟨hdrop, keeps_push _⟩,
    Array.size_push .., fun items stop k₂ hitems => ?_⟩
  simp [node, hpeek, hkind, takeProperties_eq hpeek (by rw [hkind]; rfl), bind, Except.bind,
    expandTag, pure, Except.pure, hitems]
  exact ⟨rfl, rfl⟩

theorem node_mapping
    {inBlock flat : Bool}
    (h : ahead k = .flowMappingStart :: rest) :
    ∃ k₁ start, Leads k k₁ rest ∧ k₁.nodes.size = k.nodes.size + 1 ∧
      ∀ entries stop k₂, flowMapping true fuel k₁ = .ok (entries, stop, k₂) →
        node inBlock flat (fuel + 1) k =
          .ok (k.nodes.size, k₂.put k.nodes.size ⟨start, stop, .mapping entries⟩) := by
  obtain ⟨token, hpeek, hkind, hdrop⟩ := exists_peek h
  refine ⟨(k.drop.reserve none token.start).2, token.start, ⟨hdrop, keeps_push _⟩,
    Array.size_push .., fun entries stop k₂ hentries => ?_⟩
  simp [node, hpeek, hkind, takeProperties_eq hpeek (by rw [hkind]; rfl), bind, Except.bind,
    expandTag, pure, Except.pure, hentries]
  exact ⟨rfl, rfl⟩

/-- A collection is filled in once its parts are read. -/
theorem leads_put
    {k₁ k₂ : GraphReader}
    {rest' : List TokenKind}
    (h₁ : Leads k k₁ rest')
    (hsize : k₁.nodes.size = k.nodes.size + 1)
    (h₂ : Leads k₁ k₂ rest)
    (node : Node) :
    Leads k (k₂.put k.nodes.size node) rest ∧
      HasContent (k₂.put k.nodes.size node).nodes k.nodes.size node.content ∧
      Keeps (k.nodes.size + 1) k₂.nodes (k₂.put k.nodes.size node).nodes := by
  have hlt : k.nodes.size < k₂.nodes.size := by
    have hle := h₂.keeps.size_le
    omega
  refine ⟨⟨h₂.ahead, fun id old _ hold => ?_⟩, hasContent_set hlt node, keeps_set node⟩
  have hid := (Array.getElem?_eq_some_iff.1 hold).1
  have hkept := (h₁.trans h₂).keeps id old (Nat.zero_le _) hold
  rw [put, Array.getElem?_setIfInBounds_ne (by omega), hkept]

/-- The reader comes to an entry of a flow collection, behind the comma in front of it. -/
structure Enters (first : Bool) (k k₁ : GraphReader) : Prop where
  open_ : ∃ token, k.peek = .ok token ∧ token.kind ≠ .flowSequenceEnd ∧ token.kind ≠ .flowMappingEnd
  comma : k.takeComma first = .ok k₁

theorem enters_first
    (h : ahead k = kind :: rest)
    (hstarts : startsForm kind = true ∨ kind = .key) :
    Enters true k k := by
  obtain ⟨token, hpeek, rfl, -⟩ := exists_peek h
  refine ⟨⟨token, hpeek, ?_, ?_⟩, rfl⟩
  · rintro heq
    simp [heq, startsForm] at hstarts
  · rintro heq
    simp [heq, startsForm] at hstarts

theorem enters_more
    (h : ahead k = .flowEntry :: rest) :
    Enters false k k.drop ∧ Leads k k.drop rest := by
  obtain ⟨token, hpeek, hkind, hdrop⟩ := exists_peek h
  refine ⟨⟨⟨token, hpeek, by simp [hkind], by simp [hkind]⟩, ?_⟩, hdrop, fun _ _ _ h => h⟩
  simp [takeComma, hpeek, hkind, bind, Except.bind, pure, Except.pure]

/-! ### Sequences -/

theorem flowSequence_end
    (first : Bool)
    (fuel : Nat)
    (h : ahead k = .flowSequenceEnd :: rest) :
    ∃ stop, flowSequence first (fuel + 1) k = .ok ([], stop, k.drop) ∧ Leads k k.drop rest := by
  obtain ⟨token, hpeek, hkind, hdrop⟩ := exists_peek h
  refine ⟨token.stop, ?_, hdrop, fun _ _ _ h => h⟩
  simp [flowSequence, hpeek, hkind, bind, Except.bind, pure, Except.pure]

/-- An item is read, and then the items behind it. -/
theorem flowSequence_step
    {first : Bool}
    {k₁ k₂ k₃ : GraphReader}
    {id stop : Nat}
    {items : List Nat}
    (henters : Enters first k k₁)
    (hstarts : StartsForm (ahead k₁))
    (hnode : node false false fuel k₁ = .ok (id, k₂))
    (hmore : flowSequence false fuel k₂ = .ok (items, stop, k₃)) :
    flowSequence first (fuel + 1) k = .ok (id :: items, stop, k₃) := by
  obtain ⟨token, hpeek, hend, -⟩ := henters.open_
  obtain ⟨_, _, hahead, hstarts⟩ := hstarts
  obtain ⟨token₁, hpeek₁, rfl, -⟩ := exists_peek hahead
  have hne : (token.kind == .flowSequenceEnd) = false := beq_eq_false_iff_ne.2 hend
  rw [flowSequence]
  simp only [hpeek, hne, henters.comma, hpeek₁, bind, Except.bind, pure, Except.pure,
    Bool.false_eq_true, if_false]
  split
  case h_1 heq =>
    rw [heq] at hstarts
    cases hstarts
  case h_2 heq =>
    rw [heq] at hstarts
    cases hstarts
  case h_3 => simp [hnode, hmore]

/-! ### Mappings -/

theorem flowMapping_end
    (first : Bool)
    (fuel : Nat)
    (h : ahead k = .flowMappingEnd :: rest) :
    ∃ stop, flowMapping first (fuel + 1) k = .ok ([], stop, k.drop) ∧ Leads k k.drop rest := by
  obtain ⟨token, hpeek, hkind, hdrop⟩ := exists_peek h
  refine ⟨token.stop, ?_, hdrop, fun _ _ _ h => h⟩
  simp [flowMapping, hpeek, hkind, bind, Except.bind, pure, Except.pure]

theorem nodeOrAbsent_eq
    (ends : TokenKind → Bool)
    {position : Nat}
    (h : ahead k = kind :: rest)
    (hends : ends kind = false) :
    nodeOrAbsent false false ends position (fuel + 1) k = node false false fuel k := by
  obtain ⟨token, hpeek, rfl, -⟩ := exists_peek h
  simp [nodeOrAbsent, hpeek, hends, bind, Except.bind]

/-- A form ends neither a key nor a value. -/
theorem endsFlowKey_of_startsForm
    (h : startsForm kind = true) :
    endsFlowKey kind = false ∧ endsFlowValue kind = false := by
  unfold startsForm at h
  split at h
  · exact ⟨rfl, rfl⟩
  · exact ⟨rfl, rfl⟩
  · exact ⟨rfl, rfl⟩
  · cases h

/-- A name and a value are read, and then the members behind them. -/
theorem flowMapping_step
    (fuel : Nat)
    {first : Bool}
    {k₁ : GraphReader}
    {label : Label}
    (henters : Enters first k k₁)
    (h : ahead k₁ = label.kinds ++ rest)
    (hstarts : StartsForm rest) :
    ∃ k₂, Leads k₁ k₂ rest ∧
      HasContent k₂.nodes k₁.nodes.size (stringContent label.name) ∧
      ∀ id k₃ entries stop k₄, node false false fuel k₂ = .ok (id, k₃) →
        flowMapping false (fuel + 2) k₃ = .ok (entries, stop, k₄) →
        flowMapping first (fuel + 3) k = .ok ((k₁.nodes.size, id) :: entries, stop, k₄) := by
  obtain ⟨token, hpeek, -, hend⟩ := henters.open_
  obtain ⟨kind, tail, rfl, hstarts⟩ := hstarts
  obtain ⟨key, hkey, hkeykind, hname⟩ := @exists_peek k₁ _ (_ :: _) h
  obtain ⟨k₂, hnode, hleads, hcontent⟩ :=
    node_scalar false false fuel hname
  obtain ⟨colon, hcolon, hcolonkind, hvalue⟩ := exists_peek hleads.ahead
  refine ⟨k₂.drop, ⟨hvalue, hleads.keeps⟩, hcontent, fun id k₃ entries stop k₄ hform hmore => ?_⟩
  have hne : (token.kind == .flowMappingEnd) = false := beq_eq_false_iff_ne.2 hend
  have hpart : valuePart false false endsFlowValue (fuel + 2) k₂ = .ok (id, k₃) := by
    simp [valuePart, hcolon, hcolonkind, bind, Except.bind,
      nodeOrAbsent_eq endsFlowValue hvalue (endsFlowKey_of_startsForm hstarts).2, hform]
  rw [flowMapping]
  simp only [hpeek, hne, henters.comma, hkey, hkeykind, bind, Except.bind, pure, Except.pure,
    nodeOrAbsent_eq endsFlowKey hname rfl, hnode, hpart, hmore, Bool.false_eq_true, if_false]
  rfl

/-! ### Forms -/

theorem Form.exists_kinds_eq
    (x : Form) :
    ∃ kind rest, x.kinds = kind :: rest ∧ startsForm kind = true := by
  cases x with
  | null => exact ⟨_, _, rfl, rfl⟩
  | bool b => exact ⟨_, _, rfl, rfl⟩
  | number a => exact ⟨_, _, rfl, rfl⟩
  | string pieces => exact ⟨_, _, rfl, rfl⟩
  | emptyArray gap => exact ⟨_, _, rfl, rfl⟩
  | array items => exact ⟨_, _, rfl, rfl⟩
  | emptyObject gap => exact ⟨_, _, rfl, rfl⟩
  | object members => exact ⟨_, _, rfl, rfl⟩

theorem Form.startsForm
    (x : Form)
    (rest : List TokenKind) :
    StartsForm (x.kinds ++ rest) := by
  obtain ⟨kind, tail, hkinds, hstarts⟩ := x.exists_kinds_eq
  exact ⟨kind, tail ++ rest, by rw [hkinds, List.cons_append], hstarts⟩

theorem Items.exists_kinds_eq
    (items : Items) :
    ∃ kind rest, items.kinds = kind :: rest ∧ startsForm kind = true := by
  cases items with
  | last before x after => exact x.exists_kinds_eq
  | more before x after items =>
    obtain ⟨kind, rest, hkinds, hstarts⟩ := x.exists_kinds_eq
    exact ⟨kind, _, by rw [Items.kinds, hkinds, List.cons_append], hstarts⟩

theorem Items.enters
    {items : Items}
    {k : GraphReader}
    {rest : List TokenKind}
    (h : ahead k = items.kinds ++ rest) :
    Enters true k k := by
  obtain ⟨kind, tail, hkinds, hstarts⟩ := items.exists_kinds_eq
  rw [hkinds] at h
  exact enters_first h (.inl hstarts)

@[simp]
theorem Label.length_kinds
    (label : Label) :
    label.kinds.length = 3 :=
  rfl

theorem Members.exists_kinds_eq
    (members : Members) :
    ∃ label rest, members.kinds = Label.kinds label ++ rest := by
  cases members with
  | last label x after => exact ⟨label, _, rfl⟩
  | more label x after members => exact ⟨label, _, rfl⟩

theorem Members.enters
    {members : Members}
    {k : GraphReader}
    {rest : List TokenKind}
    (h : ahead k = members.kinds ++ rest) :
    Enters true k k := by
  obtain ⟨label, tail, hkinds⟩ := members.exists_kinds_eq
  rw [hkinds] at h
  exact enters_first h (.inr rfl)

mutual

/-- A form is read as nodes in which it stands. -/
theorem Form.reads
    (x : Form)
    (inBlock flat : Bool)
    (fuel : Nat)
    {k : GraphReader}
    {rest : List TokenKind}
    (hfuel : 2 * x.kinds.length ≤ fuel)
    (h : ahead k = x.kinds ++ rest) :
    ∃ k', node inBlock flat fuel k = .ok (k.nodes.size, k') ∧ Leads k k' rest ∧
      x.ReadAt k'.nodes k.nodes.size := by
  obtain ⟨fuel, rfl⟩ : ∃ n, fuel = n + 1 := by
    obtain ⟨_, _, hkinds, -⟩ := x.exists_kinds_eq
    rw [hkinds, List.length_cons] at hfuel
    exact ⟨fuel - 1, by omega⟩
  cases x with
  | null => exact node_scalar _ _ _ h
  | bool b => exact node_scalar _ _ _ h
  | number a => exact node_scalar _ _ _ h
  | string pieces => exact node_scalar _ _ _ h
  | emptyArray gap =>
    obtain ⟨k₁, start, h₁, hsize, hread⟩ := node_sequence h
    obtain ⟨stop, hend, h₂⟩ := flowSequence_end true (fuel - 1) h₁.ahead
    rw [Nat.sub_add_cancel (by simp [Form.kinds] at hfuel; omega)] at hend
    obtain ⟨hleads, hcontent, -⟩ := leads_put h₁ hsize h₂ ⟨start, stop, .sequence []⟩
    exact ⟨_, hread _ _ _ hend, hleads, hcontent⟩
  | array items =>
    rw [Form.kinds, List.cons_append, List.append_assoc] at h
    rw [Form.kinds, List.length_cons, List.length_append, List.length_singleton] at hfuel
    obtain ⟨k₁, start, h₁, hsize, hread⟩ := node_sequence h
    obtain ⟨ids, stop, k₂, hitems, h₂, hat⟩ := items.reads fuel k.nodes.size
      (by omega) (by omega) (Items.enters h₁.ahead) h₁.ahead
    obtain ⟨hleads, hcontent, hkeeps⟩ := leads_put h₁ hsize h₂ ⟨start, stop, .sequence ids⟩
    exact ⟨_, hread _ _ _ hitems, hleads, ids, hcontent, hat.keep hkeeps (Nat.le_refl _)⟩
  | emptyObject gap =>
    obtain ⟨k₁, start, h₁, hsize, hread⟩ := node_mapping h
    obtain ⟨stop, hend, h₂⟩ := flowMapping_end true (fuel - 1) h₁.ahead
    rw [Nat.sub_add_cancel (by simp [Form.kinds] at hfuel; omega)] at hend
    obtain ⟨hleads, hcontent, -⟩ := leads_put h₁ hsize h₂ ⟨start, stop, .mapping []⟩
    exact ⟨_, hread _ _ _ hend, hleads, hcontent⟩
  | object members =>
    rw [Form.kinds, List.cons_append, List.append_assoc] at h
    rw [Form.kinds, List.length_cons, List.length_append, List.length_singleton] at hfuel
    obtain ⟨k₁, start, h₁, hsize, hread⟩ := node_mapping h
    obtain ⟨entries, stop, k₂, hmembers, h₂, hat⟩ := members.reads fuel
      k.nodes.size (by omega) (by omega) (Members.enters h₁.ahead) h₁.ahead
    obtain ⟨hleads, hcontent, hkeeps⟩ := leads_put h₁ hsize h₂ ⟨start, stop, .mapping entries⟩
    exact ⟨_, hread _ _ _ hmembers, hleads, entries, hcontent, hat.keep hkeeps (Nat.le_refl _)⟩

theorem Items.reads
    (items : Items)
    (fuel parent : Nat)
    {first : Bool}
    {k k₁ : GraphReader}
    {rest : List TokenKind}
    (hfuel : 2 * items.kinds.length + 1 ≤ fuel)
    (hparent : parent < k₁.nodes.size)
    (henters : Enters first k k₁)
    (h : ahead k₁ = items.kinds ++ .flowSequenceEnd :: rest) :
    ∃ ids stop k', flowSequence first fuel k = .ok (ids, stop, k') ∧ Leads k₁ k' rest ∧
      items.ReadAt k'.nodes parent ids := by
  obtain ⟨fuel, rfl⟩ : ∃ n, fuel = n + 2 := by
    obtain ⟨_, _, hkinds, -⟩ := items.exists_kinds_eq
    rw [hkinds, List.length_cons] at hfuel
    exact ⟨fuel - 2, by omega⟩
  cases items with
  | last before x after =>
    rw [Items.kinds] at h hfuel
    obtain ⟨k₂, hnode, h₂, hx⟩ := x.reads false false (fuel + 1) (by omega) h
    obtain ⟨stop, hend, h₃⟩ := flowSequence_end false fuel h₂.ahead
    exact ⟨_, stop, _, flowSequence_step henters (h ▸ x.startsForm _) hnode hend, h₂.trans h₃, _, rfl,
      hparent, hx.keep h₃.keeps (Nat.zero_le _)⟩
  | more before x after items =>
    rw [Items.kinds, List.append_assoc] at h
    rw [Items.kinds, List.length_append, List.length_cons] at hfuel
    obtain ⟨k₂, hnode, h₂, hx⟩ := x.reads false false (fuel + 1) (by omega) h
    obtain ⟨hmore, h₃⟩ := enters_more h₂.ahead
    have hlt : parent < k₂.drop.nodes.size := Nat.lt_of_lt_of_le hparent h₂.keeps.size_le
    obtain ⟨ids, stop, k', hitems, h₄, hat⟩ :=
      items.reads (fuel + 1) parent (by omega) hlt hmore h₃.ahead
    have hrest := h₃.trans h₄
    exact ⟨_, stop, k', flowSequence_step henters (h ▸ x.startsForm _) hnode hitems, h₂.trans hrest, _,
      _, rfl, hparent, hx.keep hrest.keeps (Nat.zero_le _), hat⟩

theorem Members.reads
    (members : Members)
    (fuel parent : Nat)
    {first : Bool}
    {k k₁ : GraphReader}
    {rest : List TokenKind}
    (hfuel : 2 * members.kinds.length + 1 ≤ fuel)
    (hparent : parent < k₁.nodes.size)
    (henters : Enters first k k₁)
    (h : ahead k₁ = members.kinds ++ .flowMappingEnd :: rest) :
    ∃ entries stop k', flowMapping first fuel k = .ok (entries, stop, k') ∧ Leads k₁ k' rest ∧
      members.ReadAt k'.nodes parent entries := by
  obtain ⟨fuel, rfl⟩ : ∃ n, fuel = n + 3 := by
    obtain ⟨_, _, hkinds⟩ := members.exists_kinds_eq
    rw [hkinds, List.length_append] at hfuel
    exact ⟨fuel - 3, by simp [Label.kinds] at hfuel; omega⟩
  cases members with
  | last label x after =>
    rw [Members.kinds, List.append_assoc] at h
    rw [Members.kinds, List.length_append, Label.length_kinds] at hfuel
    obtain ⟨k₂, h₂, hname, hread⟩ := flowMapping_step fuel henters h (x.startsForm _)
    obtain ⟨k₃, hnode, h₃, hx⟩ := x.reads false false fuel (by omega) h₂.ahead
    obtain ⟨stop, hend, h₄⟩ := flowMapping_end false (fuel + 1) h₃.ahead
    have hrest := h₃.trans h₄
    have hle := h₂.keeps.size_le
    exact ⟨_, stop, _, hread _ _ _ _ _ hnode hend, h₂.trans hrest, _, _, rfl, hparent,
      hrest.keeps.hasContent (Nat.zero_le _) hname, Nat.lt_of_lt_of_le hparent hle,
      hx.keep h₄.keeps (Nat.zero_le _)⟩
  | more label x after members =>
    rw [Members.kinds, List.append_assoc, List.append_assoc] at h
    rw [Members.kinds, List.length_append, List.length_append, List.length_cons,
      Label.length_kinds] at hfuel
    obtain ⟨k₂, h₂, hname, hread⟩ := flowMapping_step fuel henters h (x.startsForm _)
    obtain ⟨k₃, hnode, h₃, hx⟩ := x.reads false false fuel (by omega) h₂.ahead
    obtain ⟨hmore, h₄⟩ := enters_more h₃.ahead
    have hlt₂ : parent < k₂.nodes.size := Nat.lt_of_lt_of_le hparent h₂.keeps.size_le
    have hlt₃ : parent < k₃.drop.nodes.size := Nat.lt_of_lt_of_le hlt₂ h₃.keeps.size_le
    obtain ⟨entries, stop, k', hmembers, h₅, hat⟩ :=
      members.reads (fuel + 2) parent (by omega) hlt₃ hmore h₄.ahead
    have hrest := h₄.trans h₅
    exact ⟨_, stop, k', hread _ _ _ _ _ hnode hmembers, h₂.trans (h₃.trans hrest), _, _, _, rfl,
      hparent, (h₃.trans hrest).keeps.hasContent (Nat.zero_le _) hname, hlt₂, hx.keep hrest.keeps (Nat.zero_le _), hat⟩

end

/-- A document without marks in front is a single node up to the end of the stream. -/
theorem document_of_node
    {k' : GraphReader}
    {id : Nat}
    (hstarts : StartsForm (ahead k))
    (hnode : node true false (fuel + 1) { k with handles := standardHandles } = .ok (id, k'))
    (hend : ahead k' = [.streamEnd]) :
    document k (fuel + 1) = .ok (some ⟨k'.nodes, id⟩) := by
  obtain ⟨last, hlast, hlastkind, -⟩ := exists_peek hend
  have hfinish : k'.finish (fuel + 1) = .ok () := by
    simp [finish, hlast, hlastkind, bind, Except.bind, pure, Except.pure]
  obtain ⟨kind, rest, hahead, hstarts⟩ := hstarts
  obtain ⟨token, hpeek, rfl, -⟩ := exists_peek hahead
  unfold startsForm at hstarts
  split at hstarts
  case h_1 heq | h_2 heq | h_3 heq =>
    simp [document, hpeek, heq, hnode, hfinish, bind, Except.bind, pure, Except.pure]
  case h_4 => cases hstarts

/-- The tokens of a form, and nothing behind them, are a document in which the form stands. -/
theorem Form.reads_document
    (x : Form)
    {stream : TokenStream}
    (h : stream.tokens.map Token.kind = x.kinds ++ [.streamEnd]) :
    ∃ g : Graph, Graph.ofTokens stream = .ok (some g) ∧ x.ReadAt g.nodes g.root := by
  have hlength := congrArg List.length h
  rw [List.length_map, List.length_append] at hlength
  obtain ⟨k', hnode, hleads, hat⟩ := x.reads true false
    (4 * stream.tokens.length + 7 + 1)
    (k := ⟨stream.tokens, stream.problem, standardHandles, #[], []⟩) (by omega) h
  refine ⟨⟨k'.nodes, 0⟩, ?_, hat⟩
  rw [Graph.ofTokens]
  exact document_of_node (by rw [ahead, h]; exact x.startsForm _) hnode hleads.ahead

end Reading

end Json

end Workflow
