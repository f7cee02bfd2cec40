import Workflow.Document.Load
import Workflow.Proofs.Conversions
import Workflow.Proofs.EndlessStreams
import Workflow.Proofs.FlowReading

/-!
# Loading JSON

A JSON text loads as its value, as far as the notation in which it is read can carry it.  Most
differences between the two are made good: tabs are taken as spaces, keys may be as long as they
like and end a line before their colon, exponents need no sign, and the halves of a surrogate pair
are joined.

Two are not, and both are about what may stand between quotes.  A delete character, or another code
point that no document may hold, keeps a JSON text from loading at all.  And the three line breaks
that are no control characters are folded, which changes the value next to spaces, and is an error
in front of a document marker.
-/

namespace Workflow

namespace Json

open Markup

/-! ## From nodes to values -/

section Unrolling

variable {g : Graph} {source : Text} {depth id : Nat} {around : List Nat}

theorem content_of_hasContent
    {content : Content}
    (h : HasContent g.nodes id content) :
    (g.node id).content = content ∧ id < g.nodes.size := by
  obtain ⟨node, hnode, hheld⟩ := Option.map_eq_some_iff.1 h
  refine ⟨?_, (Array.getElem?_eq_some_iff.1 hnode).1⟩
  rw [Graph.node, hnode, Option.getD_some, hheld]

/-- The unrolling of a scalar is its tree. -/
theorem unroll_scalar
    {tag : ScalarTag}
    {t : Text}
    {style : ScalarStyle}
    (h : HasContent g.nodes id (.scalar tag t style))
    (haround : id ∉ around) :
    g.unroll source (depth + 1) around id = scalarTree (Graph.spanOf (g.node id)) tag t style := by
  simp [Graph.unroll, haround, (content_of_hasContent h).1]

theorem unroll_sequence
    {ids : List Nat}
    {trees : List Tree}
    (h : HasContent g.nodes id (.sequence ids))
    (haround : id ∉ around)
    (hitems : ids.mapM (g.unroll source depth (id :: around)) = .ok trees) :
    g.unroll source (depth + 1) around id = .ok (.array (Graph.spanOf (g.node id)) trees) := by
  have hmap : (ids.mapM fun item => g.unroll source depth (id :: around) item) = .ok trees := hitems
  simp [Graph.unroll, haround, (content_of_hasContent h).1, hmap, Except.map]

/-- A property of an object, from the nodes of its key and its value. -/
def entryProperty (g : Graph) (source : Text) (depth : Nat) (around : List Nat) (entry : Nat × Nat) :
    Except Fault (Property Tree) :=
  let k := g.node entry.1
  let v := g.node entry.2
  if v.content.isUntyped then .ok (Graph.property source k v none)
  else
    (g.unroll source depth around entry.2).map fun t => Graph.property source k v (some t)

theorem unroll_mapping
    {entries : List (Nat × Nat)}
    {properties : List (Property Tree)}
    (h : HasContent g.nodes id (.mapping entries))
    (haround : id ∉ around)
    (hentries : entries.mapM (entryProperty g source depth (id :: around)) = .ok properties) :
    g.unroll source (depth + 1) around id = .ok (.object (Graph.spanOf (g.node id)) properties) := by
  rw [Graph.unroll]
  simp only [List.contains_eq_mem, haround, decide_false, Bool.false_eq_true, if_false,
    (content_of_hasContent h).1]
  exact congrArg (Except.map _) hentries

/-- The name of a member is the text of its string. -/
theorem keyName_of_hasContent
    (source : Text)
    {pieces : List Piece}
    (h : HasContent g.nodes id (stringContent pieces)) :
    Graph.keyName source (g.node id) = foldedValue pieces := by
  rw [Graph.keyName, (content_of_hasContent h).1]
  rfl

/-- Neither a word nor a string is a value that has not been typed. -/
theorem wordContent_isUntyped
    {w : Text}
    (h : w ≠ []) :
    (wordContent w).isUntyped = false := by
  cases w with
  | nil => exact absurd rfl h
  | cons c rest => cases htag : impliedTag (c :: rest) <;> simp [wordContent, Content.isUntyped, htag]

theorem Form.ReadAt.exists_hasContent
    {x : Form}
    (h : x.ReadAt g.nodes id) :
    ∃ content, HasContent g.nodes id content ∧ content.isUntyped = false := by
  cases x with
  | null => exact ⟨_, h, wordContent_isUntyped (by decide)⟩
  | bool b =>
    refine ⟨_, h, wordContent_isUntyped ?_⟩
    cases b <;> decide
  | number a =>
    obtain ⟨_, _, htext, -⟩ := a.exists_text_eq
    exact ⟨_, h, wordContent_isUntyped (by simp [htext])⟩
  | string pieces => exact ⟨_, h, rfl⟩
  | emptyArray gap => exact ⟨_, h, rfl⟩
  | array items =>
    obtain ⟨ids, hcontent, -⟩ := h
    exact ⟨_, hcontent, rfl⟩
  | emptyObject gap => exact ⟨_, h, rfl⟩
  | object members =>
    obtain ⟨entries, hcontent, -⟩ := h
    exact ⟨_, hcontent, rfl⟩

/-- A form stands at a node of the graph, and it has been typed. -/
theorem Form.ReadAt.isUntyped_eq_false
    {x : Form}
    (h : x.ReadAt g.nodes id) :
    (g.node id).content.isUntyped = false ∧ id < g.nodes.size := by
  obtain ⟨content, hcontent, htyped⟩ := h.exists_hasContent
  obtain ⟨heq, hid⟩ := content_of_hasContent hcontent
  exact ⟨heq ▸ htyped, hid⟩

theorem entryProperty_eq
    {x : Form}
    {label : Label}
    {tree : Tree}
    {key : Nat}
    (hname : HasContent g.nodes key (stringContent label.name))
    (hx : x.ReadAt g.nodes id)
    (hunroll : g.unroll source depth around id = .ok tree)
    (hvalue : tree.toValue = x.valueWith foldedValue) :
    ∃ property, entryProperty g source depth around (key, id) = .ok property ∧
      ∀ properties, Tree.propertyValues (property :: properties) =
        (foldedValue label.name, x.valueWith foldedValue) :: Tree.propertyValues properties := by
  refine ⟨Graph.property source (g.node key) (g.node id) (some tree), ?_, fun properties => ?_⟩
  · simp [entryProperty, hx.isUntyped_eq_false.1, hunroll, Except.map]
  · rw [← hvalue, ← keyName_of_hasContent source hname]
    rfl

/-- Inside a collection stand only nodes that come behind it. -/
theorem lt_of_inside
    {parent : Nat}
    (haround : ∀ a ∈ around, a < parent)
    (hlt : parent < id) :
    ∀ a ∈ parent :: around, a < id :=
  List.forall_mem_cons.2 ⟨hlt, fun a ha => Nat.lt_trans (haround a ha) hlt⟩

mutual

/-- A form that stands in a graph comes back as a tree with its value. -/
theorem Form.ReadAt.unrolls
    {x : Form}
    {g : Graph}
    {id : Nat}
    {around : List Nat}
    (h : x.ReadAt g.nodes id)
    (source : Text)
    (depth : Nat)
    (hdigits : x.WithinDigits)
    (haround : ∀ a ∈ around, a < id)
    (hdepth : g.nodes.size < depth + id) :
    ∃ tree, g.unroll source depth around id = .ok tree ∧
      tree.toValue = x.valueWith foldedValue := by
  obtain ⟨depth, rfl⟩ : ∃ n, depth = n + 1 := by
    have hid := h.isUntyped_eq_false.2
    exact ⟨depth - 1, by omega⟩
  have hfree : id ∉ around := fun hmem => Nat.lt_irrefl id (haround id hmem)
  cases x with
  | null => exact ⟨_, unroll_scalar h hfree, rfl⟩
  | bool b =>
    cases b
    · exact ⟨_, unroll_scalar h hfree, rfl⟩
    · exact ⟨_, unroll_scalar h hfree, rfl⟩
  | number a =>
    obtain ⟨n, htree, hvalue⟩ := a.scalarTree_text hdigits (Graph.spanOf (g.node id))
    exact ⟨_, (unroll_scalar h hfree).trans htree, hvalue⟩
  | string pieces => exact ⟨_, unroll_scalar h hfree, rfl⟩
  | emptyArray gap => exact ⟨_, unroll_sequence h hfree rfl, rfl⟩
  | array items =>
    obtain ⟨ids, hcontent, hitems⟩ := h
    obtain ⟨trees, hunroll, hvalues⟩ := hitems.unrolls source depth hdigits haround
      (by omega)
    exact ⟨_, unroll_sequence hcontent hfree hunroll, by rw [Tree.toValue, hvalues, Form.valueWith]⟩
  | emptyObject gap => exact ⟨_, unroll_mapping h hfree rfl, rfl⟩
  | object members =>
    obtain ⟨entries, hcontent, hmembers⟩ := h
    obtain ⟨properties, hunroll, hvalues⟩ := hmembers.unrolls source depth hdigits
      haround (by omega)
    exact ⟨_, unroll_mapping hcontent hfree hunroll, by rw [Tree.toValue, hvalues, Form.valueWith]⟩

theorem Items.ReadAt.unrolls
    {items : Items}
    {g : Graph}
    {parent : Nat}
    {around ids : List Nat}
    (h : items.ReadAt g.nodes parent ids)
    (source : Text)
    (depth : Nat)
    (hdigits : items.WithinDigits)
    (haround : ∀ a ∈ around, a < parent)
    (hdepth : g.nodes.size < depth + parent + 1) :
    ∃ trees, ids.mapM (g.unroll source depth (parent :: around)) = .ok trees ∧
      Tree.itemValues trees = items.valuesWith foldedValue := by
  cases items with
  | last before x after =>
    obtain ⟨id, rfl, hlt, hx⟩ := h
    obtain ⟨tree, htree, hvalue⟩ := hx.unrolls source depth hdigits
      (lt_of_inside haround hlt) (by omega)
    exact ⟨[tree], by rw [List.mapM_cons, htree]; rfl, by rw [Tree.itemValues, hvalue]; rfl⟩
  | more before x after items =>
    obtain ⟨id, rest, rfl, hlt, hx, hrest⟩ := h
    obtain ⟨tree, htree, hvalue⟩ := hx.unrolls source depth hdigits.1
      (lt_of_inside haround hlt) (by omega)
    obtain ⟨trees, htrees, hvalues⟩ := hrest.unrolls source depth hdigits.2 haround hdepth
    exact ⟨tree :: trees, by rw [List.mapM_cons, htree, htrees]; rfl,
      by rw [Tree.itemValues, hvalue, hvalues]; rfl⟩

theorem Members.ReadAt.unrolls
    {members : Members}
    {g : Graph}
    {parent : Nat}
    {around : List Nat}
    {entries : List (Nat × Nat)}
    (h : members.ReadAt g.nodes parent entries)
    (source : Text)
    (depth : Nat)
    (hdigits : members.WithinDigits)
    (haround : ∀ a ∈ around, a < parent)
    (hdepth : g.nodes.size < depth + parent + 1) :
    ∃ properties, entries.mapM (entryProperty g source depth (parent :: around)) = .ok properties ∧
      Tree.propertyValues properties = members.assignmentsWith foldedValue := by
  cases members with
  | last label x after =>
    obtain ⟨key, id, rfl, -, hname, hlt, hx⟩ := h
    obtain ⟨tree, htree, hvalue⟩ := hx.unrolls source depth hdigits
      (lt_of_inside haround hlt) (by omega)
    obtain ⟨property, hproperty, hvalues⟩ := entryProperty_eq hname hx htree hvalue
    exact ⟨[property], by rw [List.mapM_cons, hproperty]; rfl, by rw [hvalues]; rfl⟩
  | more label x after members =>
    obtain ⟨key, id, rest, rfl, -, hname, hlt, hx, hrest⟩ := h
    obtain ⟨tree, htree, hvalue⟩ := hx.unrolls source depth hdigits.1
      (lt_of_inside haround hlt) (by omega)
    obtain ⟨property, hproperty, hfront⟩ := entryProperty_eq hname hx htree hvalue
    obtain ⟨properties, hproperties, hvalues⟩ :=
      hrest.unrolls source depth hdigits.2 haround hdepth
    exact ⟨property :: properties, by rw [List.mapM_cons, hproperty, hproperties]; rfl,
      by rw [hfront, hvalues]; rfl⟩

end

end Unrolling

/-! ## Loading -/

/-- The value of a text with the lines of its strings folded. -/
def Source.folded (x : Source) : Value := x.form.valueWith foldedValue

/-- Where no line is folded this is the value of the text. -/
theorem Source.folded_eq
    {x : Source}
    (h : ∀ pieces ∈ x.strings, KeepsLines pieces) :
    x.folded = x.value :=
  x.form.valueWith_congr fun pieces hpieces => (h pieces hpieces).foldedValue_eq

/-- What keeps a JSON text from loading: a code point that no document may hold, or a string in which
a line starts with a document marker. -/
def Source.isBarred (x : Source) : Bool :=
  x.text.any (fun c => !isAllowed c) || x.strings.any hasMarkedLine

/-- The tree of a JSON text has its value, with the lines of strings folded. -/
theorem Source.treeOf_of_not_isBarred
    (x : Source)
    (hbarred : x.isBarred = false)
    (hdigits : x.WithinDigits) :
    ∃ tree, Document.treeOf .json x.text = .ok (some (some tree)) ∧ tree.toValue = x.folded := by
  obtain ⟨hforbidden, hlines⟩ := Bool.or_eq_false_iff.1 hbarred
  have hallowed : ∀ c ∈ x.text, isAllowed c = true := by simpa using hforbidden
  obtain ⟨g, hgraph, hat⟩ := x.form.reads_document (x.kinds_ofText hallowed hlines)
  obtain ⟨tree, htree, hvalue⟩ := hat.unrolls (untabbed x.text)
    (g.nodes.size + 1) hdigits (List.forall_mem_nil _) (by omega)
  have hunrolled : g.toTree (untabbed x.text) = .ok tree :=
    (g.toTree_eq_unroll _).trans htree
  refine ⟨tree, ?_, hvalue⟩
  have hsource : Document.sourceOf .json x.text = untabbed x.text := rfl
  simp only [Document.treeOf, hsource, beq_self_eq_true, hgraph, hunrolled, Except.map]

/-- A text with a code point that no document may hold has no tokens. -/
theorem ofText_of_not_isAllowed
    {t : Text}
    (h : t.any (fun c => !isAllowed c) = true) :
    TokenStream.ofText true (untabbed t) = ⟨[], .malformed⟩ := by
  obtain ⟨c, hc, hforbidden⟩ := List.any_eq_true.1 h
  rw [Bool.not_eq_true'] at hforbidden
  have hmem : c ∈ untabbed t :=
    List.mem_map.2 ⟨c, hc, if_neg (by rintro rfl; exact absurd hforbidden (by decide))⟩
  have hall : (untabbed t).all isAllowed = false :=
    List.all_eq_false.2 ⟨c, hmem, by rw [hforbidden]; decide⟩
  rw [TokenStream.ofText, hall]
  rfl

/-- A JSON text that is barred from loading is malformed. -/
theorem Source.treeOf_of_isBarred
    (x : Source)
    (hbarred : x.isBarred = true) :
    Document.treeOf .json x.text = .ok none := by
  have hsource : Document.sourceOf .json x.text = untabbed x.text := rfl
  have hstream : Graph.ofTokens (TokenStream.ofText true (untabbed x.text)) = .error .malformed := by
    cases hforbidden : x.text.any fun c => !isAllowed c with
    | true =>
      rw [ofText_of_not_isAllowed hforbidden]
      exact Graph.ofTokens_eq_error rfl (List.forall_mem_nil _)
    | false =>
      rw [isBarred, hforbidden, Bool.false_or] at hbarred
      obtain ⟨hproblem, hend⟩ := x.ofText_breaksOff (by simpa using hforbidden) hbarred
      exact Graph.ofTokens_eq_error hproblem hend
  simp only [Document.treeOf, hsource, beq_self_eq_true, hstream]

end Json

section Loading

variable {t : Text} (voice : Terminal.Voice) (version : Int)

theorem load_json_of_treeOf
    {tree : Tree}
    (h : Document.treeOf .json t = .ok (some (some tree))) :
    ∃ printed, load voice "json" version t =
      .ok ⟨some ⟨t, .json, some tree, version⟩, [], printed⟩ := by
  have hlanguage : Language.ofId? "json" = some .json := rfl
  rw [load, hlanguage]
  simp only [loadText, h]
  exact ⟨_, rfl⟩

theorem load_json_of_treeOf_none
    (h : Document.treeOf .json t = .ok none) :
    load voice "json" version t = .ok (Loaded.failed voice "Invalid JSON document") := by
  have hlanguage : Language.ofId? "json" = some .json := rfl
  rw [load, hlanguage]
  simp only [loadText, h]
  rfl

end Loading

/-- A JSON text whose integers can be read loads, unless it holds a code point that no document may
hold or a line of a string starts with a document marker; then it does not load, although JSON allows
both.  Its value is the value of the text but for the lines of strings, which are folded; so it is
that value where no string holds a next-line character or a space beside a separator. -/
theorem json_loads_as_value
    (voice : Terminal.Voice)
    (version : Int)
    (x : Json.Source)
    (hdigits : x.WithinDigits) :
    (x.isBarred = false →
      ∃ tree printed,
        load voice "json" version x.text =
          .ok ⟨some ⟨x.text, .json, some tree, version⟩, [], printed⟩ ∧
        tree.toValue = x.folded ∧
        ((∀ pieces ∈ x.strings, Json.KeepsLines pieces) → tree.toValue = x.value)) ∧
    (x.isBarred = true →
      load voice "json" version x.text =
        .ok (Loaded.failed voice "Invalid JSON document")) := by
  constructor
  · intro hbarred
    obtain ⟨tree, htree, hvalue⟩ := x.treeOf_of_not_isBarred hbarred hdigits
    obtain ⟨printed, hload⟩ := load_json_of_treeOf voice version htree
    exact ⟨tree, printed, hload, hvalue, fun hkeeps => hvalue.trans (Json.Source.folded_eq hkeeps)⟩
  · intro hbarred
    exact load_json_of_treeOf_none voice version (x.treeOf_of_isBarred hbarred)

/-- An array with a tab in front of its comma, an exponent without a sign, and a string with an
escaped surrogate pair and a separator loads as its value; a string with a delete character does not
load. -/
theorem json_loads_as_value_array :
    (∃ tree printed,
      load ⟨false, false⟩ "json" 0 "[1e3\t,\n\"\\ud83d\\ude00\u2028x\"]" =
        .ok ⟨some ⟨"[1e3\t,\n\"\\ud83d\\ude00\u2028x\"]", .json, some tree, 0⟩, [], printed⟩ ∧
      tree.toValue = .arr [.float (.ofDecimal false 1 3), .str "😀\u2028x"]) ∧
    load ⟨false, false⟩ "json" 0 "\"\x7f\"" =
      .ok (Loaded.failed ⟨false, false⟩ "Invalid JSON document") := by
  let none : Json.Gap := ⟨[], rfl⟩
  let thousand : Json.Amount :=
    ⟨false, ⟨⟨['1'], rfl⟩, by decide⟩, .none, some ⟨'e', .inl rfl, .none, by simp, ⟨['3'], rfl⟩⟩⟩
  let face : List Json.Piece :=
    [.unit 'd' '8' '3' 'd' 0xD83D (by decide), .unit 'd' 'e' '0' '0' 0xDE00 (by decide),
      .plain 0x2028 (by decide), .plain 'x' (by decide)]
  let array : Json.Source :=
    ⟨none, .array (.more none (.number thousand) ⟨['\t'], rfl⟩
      (.last ⟨['\n'], rfl⟩ (.string face) none)), none⟩
  let deleted : Json.Source := ⟨none, .string [.plain 0x7F (by decide)], none⟩
  have hdigits : array.WithinDigits := ⟨fun h => absurd h (by decide), trivial⟩
  have hbarred : array.isBarred = false := by decide
  have hkeeps : Json.KeepsLines face := ⟨by decide, by decide⟩
  have htext : array.text = "[1e3\t,\n\"\\ud83d\\ude00\u2028x\"]" := by decide
  have hvalue : array.value =
      .arr [.float (.ofDecimal false 1 3), .str "😀\u2028x"] := by
    have hmantissa : Text.valueOf 10 (thousand.whole.values ++ thousand.fractionValues) = 1 := by
      decide
    have hpower : thousand.power - (thousand.fractionValues.length : Int) = 3 := by decide
    have hnumber : thousand.value = .float (.ofDecimal false 1 3) := by
      rw [Json.Amount.value, if_neg (by decide), Json.Amount.toFloat, Json.Amount.rounded,
        hmantissa, hpower]
    have hface : Json.piecesValue face = "😀\u2028x" := by decide
    rw [← hnumber, ← hface]
    rfl
  obtain ⟨tree, printed, hload, -, htree⟩ :=
    (json_loads_as_value ⟨false, false⟩ 0 array hdigits).1 hbarred
  rw [htext] at hload
  exact ⟨⟨tree, printed, hload, (htree (List.forall_mem_singleton.2 hkeeps)).trans hvalue⟩,
    (json_loads_as_value _ _ deleted trivial).2 (by decide)⟩

/-- Two strings of JSON that are misread: one with a delete character does not load, and in one with
a next-line character that character becomes a space. -/
theorem json_strings_misread :
    (∃ x : Json.Source, x.text = "\"\x7f\"" ∧ x.value = .str "\x7f" ∧
      load ⟨false, false⟩ "json" 0 x.text =
        .ok (Loaded.failed ⟨false, false⟩ "Invalid JSON document")) ∧
    ∃ x : Json.Source, x.text = "\"\x85\"" ∧ x.value = .str "\x85" ∧
      ∃ tree printed,
        load ⟨false, false⟩ "json" 0 x.text =
          .ok ⟨some ⟨x.text, .json, some tree, 0⟩, [], printed⟩ ∧
        tree.toValue = .str " " := by
  let none : Json.Gap := ⟨[], rfl⟩
  let deleted : Json.Source := ⟨none, .string [.plain 0x7F (by decide)], none⟩
  let broken : Json.Source := ⟨none, .string [.plain 0x85 (by decide)], none⟩
  obtain ⟨tree, htree, hvalue⟩ := broken.treeOf_of_not_isBarred (by decide) trivial
  obtain ⟨printed, hload⟩ := load_json_of_treeOf ⟨false, false⟩ 0 htree
  exact ⟨⟨deleted, rfl, rfl, load_json_of_treeOf_none _ _ (deleted.treeOf_of_isBarred (by decide))⟩,
    broken, rfl, rfl, tree, printed, hload, hvalue⟩

end Workflow
