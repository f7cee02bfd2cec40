import Mathlib.Data.List.Forall2
import Mathlib.Data.List.Infix
import Mathlib.Logic.Relation
import Workflow.Document.Nodes

/-!
# Trees in tables of nodes

`Tree.stored` lays out a tree in a table: first the node of the tree itself, then what belongs to
its parts, one after the other.  Wherever a table holds this layout, reading downward from its first
node gives the tree back, and no bound on the number of levels is met.

A layout is a chunk of the table: the numbers that are listed inside of it lead to nodes inside of
it, further down, and each node but the top ones is listed under its parent.  A chunk is made from a
node and the chunk below it, or from two chunks side by side.  A table that is one chunk is linked:
to be listed under a node and to have it as the parent is the same, and only the first node has no
parent.
-/

namespace Workflow

/-! ## Layouts -/

namespace Tree

mutual

/-- The nodes in which a tree is stored, given its parent and the number of its first node. -/
def stored (parent : Option Nat) (this : Nat) : Tree → Made
  | .array span items =>
    let row := storedItems this (this + 1) items
    ⟨⟨parent, .array span row.numbers⟩, row.nodes⟩
  | .object span properties =>
    let row := storedProperties this (this + 1) properties
    ⟨⟨parent, .object span row.numbers⟩, row.nodes⟩
  | t => .leaf parent t

/-- The nodes in which the items of an array are stored, from a number on. -/
def storedItems (parent next : Nat) : List Tree → Made.Row
  | [] => ⟨[], []⟩
  | t :: items =>
    let made := t.stored (some parent) next
    (storedItems parent (next + made.nodes.length) items).cons next made

/-- The nodes in which the properties of an object are stored, from a number on. -/
def storedProperties (parent next : Nat) : List (Property Tree) → Made.Row
  | [] => ⟨[], []⟩
  | ⟨span, key, colon, some t⟩ :: properties =>
    let made := Made.property (some parent) next span key colon (t.stored (some next) (next + 2))
    (storedProperties parent (next + made.nodes.length) properties).cons next made
  | ⟨span, key, colon, none⟩ :: properties =>
    let made := Made.property (some parent) next span key colon none
    (storedProperties parent (next + made.nodes.length) properties).cons next made

end

end Tree

namespace NodeTable

variable {nodes : NodeTable} {n : Nat}

/-- The table holds some nodes, one after the other from a number on. -/
def HasAt (nodes : NodeTable) (n : Nat) (run : NodeTable) : Prop := run <+: nodes.drop n

theorem hasAt_zero
    (run : NodeTable) :
    run.HasAt 0 run := List.prefix_refl run

theorem HasAt.of_cons
    {node : StoredNode} {run : NodeTable} (h : nodes.HasAt n (node :: run)) :
    nodes[n]? = some node ∧ nodes.HasAt (n + 1) run := by
  obtain ⟨rest, hrest⟩ := h
  constructor
  · rw [← List.head?_drop, ← hrest]
    rfl
  · refine ⟨rest, ?_⟩
    rw [← List.drop_drop, ← hrest]
    rfl

theorem HasAt.of_append
    {run run' : NodeTable} (h : nodes.HasAt n (run ++ run')) :
    nodes.HasAt n run ∧ nodes.HasAt (n + run.length) run' := by
  obtain ⟨rest, hrest⟩ := h
  rw [List.append_assoc] at hrest
  refine ⟨⟨run' ++ rest, hrest⟩, rest, ?_⟩
  rw [← List.drop_drop, ← hrest, List.drop_left]

/-! ## Reading -/

theorem part?_succ
    {parent : Option Nat} {content : NodeContent} (h : nodes[n]? = some ⟨parent, content⟩)
    (levels : Nat) :
    nodes.part? (levels + 1) n = content.part? (nodes.part? levels) := by
  rw [part?, h]
  rfl

/-- A property is read from its key and, if it has one, from its value. -/
theorem part?_of_property
    {parent : Option Nat} {span : Span} {key : Key} {colon : Option Nat} {v : Option Tree}
    {levels : Nat} {made : Made}
    (hmade : made = .property parent n span key colon
      (v.map fun t => t.stored (some n) (n + 2)))
    (hat : nodes.HasAt n made.nodes) (hlevels : made.nodes.length ≤ levels)
    (hvalue : ∀ t ∈ v, ∀ {levels}, nodes.HasAt (n + 2) (t.stored (some n) (n + 2)).nodes →
      (t.stored (some n) (n + 2)).nodes.length ≤ levels →
      nodes.part? levels (n + 2) = some (.tree t)) :
    nodes.part? levels n = some (.property ⟨span, key, colon, v⟩) := by
  subst hmade
  obtain ⟨htop, hbelow⟩ : nodes[n]? = some ⟨parent, .property span (n + 1) colon _⟩ ∧ _ :=
    hat.of_cons
  obtain ⟨hkey, hrest⟩ := hbelow.of_cons
  have htwo : 2 ≤ levels := le_trans (Nat.le_add_left 2 _) hlevels
  obtain ⟨levels, rfl⟩ := Nat.exists_eq_add_of_le' htwo
  rw [part?_succ htop, NodeContent.part?, part?_succ hkey]
  cases v with
  | none => rfl
  | some t =>
      have hread := hvalue t rfl hrest
        (Nat.le_of_succ_le (Nat.le_of_succ_le_succ hlevels) : _ ≤ levels + 1)
      simp only [Option.map_some, NodeContent.part?, Option.bind_some, Part.key?, hread, Part.tree?]

end NodeTable

section Reading

variable {nodes : NodeTable}

mutual

/-- Where a tree is stored, it is read. -/
theorem Tree.part?_of_stored :
    ∀ (t : Tree) {parent : Option Nat} {this levels : Nat},
      nodes.HasAt this (t.stored parent this).nodes →
      (t.stored parent this).nodes.length ≤ levels → nodes.part? levels this = some (.tree t)
  | .array span items, parent, this, levels + 1, hat, hlevels => by
      obtain ⟨htop, hbelow⟩ : nodes[this]? = some ⟨parent, .array span _⟩ ∧ _ := hat.of_cons
      have hitems := Tree.mapM_of_storedItems items hbelow (Nat.le_of_succ_le_succ hlevels)
      rw [NodeTable.part?_succ htop, NodeContent.part?, hitems]
      rfl
  | .object span properties, parent, this, levels + 1, hat, hlevels => by
      obtain ⟨htop, hbelow⟩ : nodes[this]? = some ⟨parent, .object span _⟩ ∧ _ := hat.of_cons
      have hproperties :=
        Tree.mapM_of_storedProperties properties hbelow (Nat.le_of_succ_le_succ hlevels)
      rw [NodeTable.part?_succ htop, NodeContent.part?, hproperties]
      rfl
  | .null _, _, _, levels + 1, hat, _ => NodeTable.part?_succ hat.of_cons.1 levels
  | .boolean _ _, _, _, levels + 1, hat, _ => NodeTable.part?_succ hat.of_cons.1 levels
  | .number _ _, _, _, levels + 1, hat, _ => NodeTable.part?_succ hat.of_cons.1 levels
  | .string _ _, _, _, levels + 1, hat, _ => NodeTable.part?_succ hat.of_cons.1 levels

/-- Where the items of an array are stored, they are read one by one. -/
theorem Tree.mapM_of_storedItems :
    ∀ (items : List Tree) {parent next levels : Nat},
      nodes.HasAt next (storedItems parent next items).nodes →
      (storedItems parent next items).nodes.length ≤ levels →
      (storedItems parent next items).numbers.mapM
        (fun n => (nodes.part? levels n).bind Part.tree?) = some items
  | [], _, _, _, _, _ => rfl
  | t :: items, parent, next, levels, hat, hlevels => by
      rw [storedItems, Made.Row.cons] at hat hlevels ⊢
      obtain ⟨hfirst, hrest⟩ := hat.of_append
      rw [List.length_append] at hlevels
      rw [List.mapM_cons, Tree.part?_of_stored t hfirst (by omega),
        Tree.mapM_of_storedItems items hrest (by omega)]
      rfl

/-- Where the properties of an object are stored, they are read one by one. -/
theorem Tree.mapM_of_storedProperties :
    ∀ (properties : List (Property Tree)) {parent next levels : Nat},
      nodes.HasAt next (storedProperties parent next properties).nodes →
      (storedProperties parent next properties).nodes.length ≤ levels →
      (storedProperties parent next properties).numbers.mapM
        (fun n => (nodes.part? levels n).bind Part.property?) = some properties
  | [], _, _, _, _, _ => rfl
  | ⟨span, key, colon, some t⟩ :: properties, parent, next, levels, hat, hlevels => by
      rw [storedProperties, Made.Row.cons] at hat hlevels ⊢
      obtain ⟨hfirst, hrest⟩ := hat.of_append
      rw [List.length_append] at hlevels
      have hread := NodeTable.part?_of_property rfl hfirst (Nat.le_of_add_right_le hlevels)
        (v := some t) fun u hu => by
          cases hu
          exact Tree.part?_of_stored t
      rw [List.mapM_cons, hread, Tree.mapM_of_storedProperties properties hrest (by omega)]
      rfl
  | ⟨span, key, colon, none⟩ :: properties, parent, next, levels, hat, hlevels => by
      rw [storedProperties, Made.Row.cons] at hat hlevels ⊢
      obtain ⟨hfirst, hrest⟩ := hat.of_append
      rw [List.length_append] at hlevels
      have hread := NodeTable.part?_of_property rfl hfirst (Nat.le_of_add_right_le hlevels)
        (v := none) nofun
      rw [List.mapM_cons, hread, Tree.mapM_of_storedProperties properties hrest (by omega)]
      rfl

end

end Reading

/-! ## Chunks -/

namespace NodeTable

/-- The nodes of a table from one number up to another.  The top ones have an outer parent; every
other node is listed under its parent further up in the chunk.  What a node lists is in the chunk,
further down, and has it as its parent; a leaf has nothing inside of it. -/
structure Chunk (nodes : NodeTable) (outer : Option Nat) (tops : List Nat) (lo hi : Nat) :
    Prop where
  ordered : lo ≤ hi
  nodup : tops.Nodup
  top : ∀ c ∈ tops, lo ≤ c ∧ c < hi ∧ nodes[c]?.map StoredNode.parent = some outer
  node : ∀ n, lo ≤ n → n < hi → ∃ node, nodes[n]? = some node ∧
    (n ∈ tops ∨ ∃ p, lo ≤ p ∧ node.parent = some p ∧ n ∈ nodes.listed p) ∧
    node.content.children.Nodup ∧
    (∀ c ∈ node.content.children, n < c ∧ nodes[c]?.map StoredNode.parent = some (some n)) ∧
    ∀ t, node.content = .leaf t → (Part.tree t).children = []

namespace Chunk

variable {nodes : NodeTable} {outer : Option Nat} {tops tops' : List Nat} {lo mid hi n : Nat}

theorem nil :
    nodes.Chunk outer [] lo lo where
  ordered := Nat.le_refl lo
  nodup := List.nodup_nil
  top _ h := absurd h List.not_mem_nil
  node _ hlo hhi := absurd hhi (Nat.not_lt.mpr hlo)

/-- Two chunks side by side. -/
theorem append
    (h : nodes.Chunk outer tops lo mid) (h' : nodes.Chunk outer tops' mid hi) :
    nodes.Chunk outer (tops ++ tops') lo hi where
  ordered := h.ordered.trans h'.ordered
  nodup := by
    refine List.nodup_append.mpr ⟨h.nodup, h'.nodup, fun a ha b hb hab => ?_⟩
    have hbefore := (h.top a ha).2.1
    have hafter := (h'.top b hb).1
    omega
  top c hc := by
    rcases List.mem_append.mp hc with hc | hc
    · obtain ⟨hlo, hhi, hparent⟩ := h.top c hc
      exact ⟨hlo, hhi.trans_le h'.ordered, hparent⟩
    · obtain ⟨hlo, hhi, hparent⟩ := h'.top c hc
      exact ⟨h.ordered.trans hlo, hhi, hparent⟩
  node n hlo hhi := by
    by_cases hmid : n < mid
    · obtain ⟨node, hnode, howned, hrest⟩ := h.node n hlo hmid
      refine ⟨node, hnode, ?_, hrest⟩
      rcases howned with htop | hlisted
      · exact Or.inl (List.mem_append_left _ htop)
      · exact Or.inr hlisted
    · obtain ⟨node, hnode, howned, hrest⟩ := h'.node n (Nat.not_lt.mp hmid) hhi
      refine ⟨node, hnode, ?_, hrest⟩
      rcases howned with htop | ⟨p, hp, hlisted⟩
      · exact Or.inl (List.mem_append_right _ htop)
      · exact Or.inr ⟨p, h.ordered.trans hp, hlisted⟩

/-- A node with the chunk below it. -/
theorem of_node
    {content : NodeContent} (hnode : nodes[n]? = some ⟨outer, content⟩)
    (hleaf : ∀ t, content = .leaf t → (Part.tree t).children = [])
    (h : nodes.Chunk (some n) content.children (n + 1) hi) :
    nodes.Chunk outer [n] n hi where
  ordered := (Nat.le_succ n).trans h.ordered
  nodup := List.pairwise_singleton _ n
  top c hc := by
    cases List.mem_singleton.mp hc
    refine ⟨Nat.le_refl n, h.ordered, ?_⟩
    rw [hnode]
    rfl
  node c hlo hhi := by
    have hlisted : nodes.listed n = content.children := by rw [listed, hnode]; rfl
    rcases Nat.eq_or_lt_of_le hlo with rfl | hlt
    · refine ⟨_, hnode, Or.inl List.mem_cons_self, h.nodup, fun c hc => ?_, hleaf⟩
      obtain ⟨hbelow, -, hparent⟩ := h.top c hc
      exact ⟨hbelow, hparent⟩
    · obtain ⟨node, hfound, howned, hrest⟩ := h.node c hlt hhi
      refine ⟨node, hfound, Or.inr ?_, hrest⟩
      rcases howned with htop | ⟨p, hp, hlisted⟩
      · have hparent := (h.top c htop).2.2
        rw [hfound] at hparent
        exact ⟨n, Nat.le_refl n, Option.some.inj hparent, hlisted ▸ htop⟩
      · exact ⟨p, (Nat.le_succ n).trans hp, hlisted⟩

/-- A leaf. -/
theorem of_leaf
    {t : Tree} (hleaf : (Part.tree t).children = [])
    (hat : nodes.HasAt n (Made.leaf outer t).nodes) :
    nodes.Chunk outer [n] n (n + (Made.leaf outer t).nodes.length) := by
  refine of_node hat.of_cons.1 (fun u hu => ?_) nil
  cases hu
  exact hleaf

/-- A property, its key, and the chunk of its value. -/
theorem of_property
    {span : Span} {key : Key} {colon : Option Nat} {v : Option Made}
    (hat : nodes.HasAt n (Made.property outer n span key colon v).nodes)
    (hvalue : ∀ made ∈ v, nodes.HasAt (n + 2) made.nodes →
      nodes.Chunk (some n) [n + 2] (n + 2) (n + 2 + made.nodes.length)) :
    nodes.Chunk outer [n] n (n + (Made.property outer n span key colon v).nodes.length) := by
  obtain ⟨htop, hbelow⟩ := hat.of_cons
  obtain ⟨hkey, hrest⟩ := hbelow.of_cons
  have hkeyChunk : nodes.Chunk (some n) [n + 1] (n + 1) (n + 2) := of_node hkey nofun nil
  refine of_node htop nofun ?_
  cases v with
  | none => exact hkeyChunk
  | some made =>
      have hlength : n + (Made.property outer n span key colon (some made)).nodes.length =
          n + 2 + made.nodes.length := by
        simp only [Made.nodes, Made.property, Option.map_some, Option.getD_some, List.length_cons]
        omega
      rw [hlength]
      exact hkeyChunk.append (hvalue made rfl hrest)

/-- A made node with its nodes in front of a row. -/
theorem cons
    {made : Made} {row : Made.Row}
    (hat : nodes.HasAt n (row.cons n made).nodes)
    (h : nodes.HasAt n made.nodes → nodes.Chunk outer [n] n (n + made.nodes.length))
    (hrow : nodes.HasAt (n + made.nodes.length) row.nodes →
      nodes.Chunk outer row.numbers (n + made.nodes.length)
        (n + made.nodes.length + row.nodes.length)) :
    nodes.Chunk outer (row.cons n made).numbers n (n + (row.cons n made).nodes.length) := by
  obtain ⟨hfirst, hrest⟩ := hat.of_append
  rw [Made.Row.cons, List.length_append, ← Nat.add_assoc]
  exact (h hfirst).append (hrow hrest)

end Chunk

end NodeTable

section Chunks

variable {nodes : NodeTable}

mutual

/-- Where a tree is stored, its nodes are a chunk. -/
theorem Tree.chunk_of_stored :
    ∀ (t : Tree) {parent : Option Nat} {this : Nat},
      nodes.HasAt this (t.stored parent this).nodes →
      nodes.Chunk parent [this] this (this + (t.stored parent this).nodes.length)
  | .array _ items, _, _, hat => by
      obtain ⟨htop, hbelow⟩ := hat.of_cons
      have hitems := Tree.chunk_of_storedItems items hbelow
      rw [Nat.add_right_comm] at hitems
      exact .of_node htop nofun hitems
  | .object _ properties, _, _, hat => by
      obtain ⟨htop, hbelow⟩ := hat.of_cons
      have hproperties := Tree.chunk_of_storedProperties properties hbelow
      rw [Nat.add_right_comm] at hproperties
      exact .of_node htop nofun hproperties
  | .null _, _, _, hat => .of_leaf rfl hat
  | .boolean _ _, _, _, hat => .of_leaf rfl hat
  | .number _ _, _, _, hat => .of_leaf rfl hat
  | .string _ _, _, _, hat => .of_leaf rfl hat

/-- Where the items of an array are stored, their nodes are a chunk. -/
theorem Tree.chunk_of_storedItems :
    ∀ (items : List Tree) {parent next : Nat},
      nodes.HasAt next (storedItems parent next items).nodes →
      nodes.Chunk (some parent) (storedItems parent next items).numbers next
        (next + (storedItems parent next items).nodes.length)
  | [], _, _, _ => .nil
  | t :: items, _, _, hat =>
      .cons hat (Tree.chunk_of_stored t) (Tree.chunk_of_storedItems items)

/-- Where the properties of an object are stored, their nodes are a chunk. -/
theorem Tree.chunk_of_storedProperties :
    ∀ (properties : List (Property Tree)) {parent next : Nat},
      nodes.HasAt next (storedProperties parent next properties).nodes →
      nodes.Chunk (some parent) (storedProperties parent next properties).numbers next
        (next + (storedProperties parent next properties).nodes.length)
  | [], _, _, _ => .nil
  | ⟨_, _, _, some t⟩ :: properties, _, _, hat =>
      .cons hat
        (fun hat => .of_property hat fun made hmade => by
          cases hmade
          exact Tree.chunk_of_stored t)
        (Tree.chunk_of_storedProperties properties)
  | ⟨_, _, _, none⟩ :: properties, _, _, hat =>
      .cons hat (fun hat => .of_property hat nofun) (Tree.chunk_of_storedProperties properties)

end

end Chunks

/-! ## Linked tables -/

namespace NodeTable

/-- The nodes that list a node and its parent are the same, no node is listed twice under its parent
or further up, and only the first one has no parent. -/
structure Linked (nodes : NodeTable) : Prop where
  parent_iff : ∀ p c, nodes.parentOf? c = some p ↔ c ∈ nodes.listed p
  once : ∀ p, (nodes.listed p).Nodup
  further : ∀ p, ∀ c ∈ nodes.listed p, p < c
  first : ∀ n < nodes.length, nodes.parentOf? n = none ↔ n = 0

variable {nodes : NodeTable} {n : Nat}

theorem exists_of_mem_listed
    {p c : Nat} (h : c ∈ nodes.listed p) :
    ∃ node, nodes[p]? = some node ∧ c ∈ node.content.children := by
  unfold listed at h
  cases hp : nodes[p]? with
  | none =>
      rw [hp] at h
      cases h
  | some node =>
      rw [hp] at h
      exact ⟨node, rfl, h⟩

theorem parentOf?_of_map
    {parent : Option Nat} (h : nodes[n]?.map StoredNode.parent = some parent) :
    nodes.parentOf? n = parent := by
  obtain ⟨node, hnode, hparent⟩ := Option.map_eq_some_iff.mp h
  rw [parentOf?, hnode]
  exact hparent

/-- A table that is one chunk is linked. -/
theorem Chunk.linked
    (h : nodes.Chunk none [0] 0 nodes.length) :
    nodes.Linked := by
  have hlisted : ∀ p, ∀ c ∈ nodes.listed p, p < c ∧ nodes.parentOf? c = some p := by
    intro p c hc
    obtain ⟨node, hp, hc⟩ := exists_of_mem_listed hc
    obtain ⟨node', hp', -, -, hchildren, -⟩ := h.node p (Nat.zero_le p)
      (List.getElem?_eq_some_iff.mp hp).1
    cases hp.symm.trans hp'
    obtain ⟨hlt, hparent⟩ := hchildren c hc
    exact ⟨hlt, parentOf?_of_map hparent⟩
  have howned : ∀ c < nodes.length, c = 0 ∨ ∃ p, nodes.parentOf? c = some p ∧
      c ∈ nodes.listed p := by
    intro c hc
    obtain ⟨node, hnode, htop | ⟨p, -, hparent, hmem⟩, -⟩ := h.node c (Nat.zero_le c) hc
    · exact Or.inl (List.mem_singleton.mp htop)
    · refine Or.inr ⟨p, ?_, hmem⟩
      rw [parentOf?, hnode]
      exact hparent
  have hroot : nodes.parentOf? 0 = none := parentOf?_of_map (h.top 0 List.mem_cons_self).2.2
  refine ⟨fun p c => ⟨fun hparent => ?_, fun hc => (hlisted p c hc).2⟩, fun p => ?_,
    fun p c hc => (hlisted p c hc).1, fun n hn => ⟨fun hnone => ?_, fun hzero => hzero ▸ hroot⟩⟩
  · obtain ⟨node, hnode, -⟩ := Option.bind_eq_some_iff.mp hparent
    rcases howned c (List.getElem?_eq_some_iff.mp hnode).1 with rfl | ⟨p', hparent', hmem⟩
    · rw [hroot] at hparent
      cases hparent
    · cases hparent.symm.trans hparent'
      exact hmem
  · unfold listed
    cases hp : nodes[p]? with
    | none => exact List.nodup_nil
    | some node =>
        obtain ⟨node', hp', -, hnodup, -⟩ := h.node p (Nat.zero_le p)
          (List.getElem?_eq_some_iff.mp hp).1
        cases hp.symm.trans hp'
        exact hnodup
  · rcases howned n hn with rfl | ⟨p, hparent, -⟩
    · rfl
    · rw [hnone] at hparent
      cases hparent

end NodeTable

/-! ## Places -/

/-- The results of a partial function for each element of a list. -/
theorem mapM_eq_some_iff
    {α β : Type} {f : α → Option β} {l : List α} {bs : List β} :
    l.mapM f = some bs ↔ List.Forall₂ (fun a b => f a = some b) l bs := by
  induction l generalizing bs with
  | nil =>
      rw [List.mapM_nil, List.forall₂_nil_left_iff]
      exact ⟨fun h => (Option.some.inj h).symm, fun h => h ▸ rfl⟩
  | cons a l ih =>
      rw [List.mapM_cons, List.forall₂_cons_left_iff]
      constructor
      · intro h
        obtain ⟨b, hb, h⟩ := Option.bind_eq_some_iff.mp h
        obtain ⟨rest, hrest, h⟩ := Option.bind_eq_some_iff.mp h
        exact ⟨b, rest, hb, ih.mp hrest, (Option.some.inj h).symm⟩
      · rintro ⟨b, rest, hb, hrest, rfl⟩
        rw [hb, ih.mpr hrest]
        rfl

namespace Part

theorem eq_of_tree? :
    ∀ {part : Part} {t : Tree}, part.tree? = some t → part = .tree t
  | .tree _, _, rfl => rfl

theorem eq_of_property? :
    ∀ {part : Part} {p : Property Tree}, part.property? = some p → part = .property p
  | .property _, _, rfl => rfl

theorem eq_of_key? :
    ∀ {part : Part} {k : Key}, part.key? = some k → part = .key k
  | .key _, _, rfl => rfl

/-- A part that was found is known from what it is taken for. -/
theorem eq_some_of_bind
    {α : Type} {x : Option Part} {f : Part → Option α} {g : α → Part}
    (hf : ∀ {part a}, f part = some a → part = g a) {a : α} (h : x.bind f = some a) :
    x = some (g a) := by
  obtain ⟨part, rfl, hpart⟩ := Option.bind_eq_some_iff.mp h
  rw [hf hpart]

end Part

namespace NodeContent

variable {at? : Nat → Option Part} {content : NodeContent} {part : Part}

/-- The parts inside of a part are those that its nodes stand for. -/
theorem children_of_part?
    (h : content.part? at? = some part)
    (hleaf : ∀ t, content = .leaf t → (Part.tree t).children = []) :
    List.Forall₂ (fun n p => at? n = some p) content.children part.children := by
  cases content with
  | leaf t =>
      cases h
      rw [hleaf t rfl]
      exact .nil
  | array span items =>
      obtain ⟨trees, htrees, rfl⟩ := Option.map_eq_some_iff.mp h
      refine List.forall₂_map_right_iff.mpr ((mapM_eq_some_iff.mp htrees).imp ?_)
      exact fun n t => Part.eq_some_of_bind Part.eq_of_tree?
  | object span properties =>
      obtain ⟨ps, hps, rfl⟩ := Option.map_eq_some_iff.mp h
      refine List.forall₂_map_right_iff.mpr ((mapM_eq_some_iff.mp hps).imp ?_)
      exact fun n p => Part.eq_some_of_bind Part.eq_of_property?
  | property span k colon value =>
      obtain ⟨name, hname, h⟩ := Option.bind_eq_some_iff.mp h
      cases value with
      | none =>
          cases h
          exact .cons (Part.eq_some_of_bind Part.eq_of_key? hname) .nil
      | some n =>
          obtain ⟨t, ht, rfl⟩ := Option.map_eq_some_iff.mp h
          exact .cons (Part.eq_some_of_bind Part.eq_of_key? hname)
            (.cons (Part.eq_some_of_bind Part.eq_of_tree? ht) .nil)
  | key k =>
      cases h
      exact .nil

/-- More levels read the same. -/
theorem part?_mono
    {at' : Nat → Option Part} (h : content.part? at? = some part)
    (hmore : ∀ n p, at? n = some p → at' n = some p) :
    content.part? at' = some part := by
  have hbind : ∀ {α : Type} {f : Part → Option α} {n a}, (at? n).bind f = some a →
      (at' n).bind f = some a := by
    intro α f n a hfound
    obtain ⟨p, hp, ha⟩ := Option.bind_eq_some_iff.mp hfound
    rw [hmore n p hp]
    exact ha
  cases content with
  | leaf t => exact h
  | array span items =>
      obtain ⟨trees, htrees, rfl⟩ := Option.map_eq_some_iff.mp h
      have hmapM := mapM_eq_some_iff.mpr ((mapM_eq_some_iff.mp htrees).imp fun _ _ => hbind)
      rw [part?, hmapM]
      rfl
  | object span properties =>
      obtain ⟨ps, hps, rfl⟩ := Option.map_eq_some_iff.mp h
      have hmapM := mapM_eq_some_iff.mpr ((mapM_eq_some_iff.mp hps).imp fun _ _ => hbind)
      rw [part?, hmapM]
      rfl
  | property span k colon value =>
      obtain ⟨name, hname, h⟩ := Option.bind_eq_some_iff.mp h
      rw [part?, hbind hname]
      cases value with
      | none => exact h
      | some n =>
          obtain ⟨t, ht, rfl⟩ := Option.map_eq_some_iff.mp h
          simp only [Option.bind_some, hbind ht, Option.map_some]
  | key k => exact h

end NodeContent

/-- Lists that are related element by element agree on which positions they have. -/
theorem nth_of_forall₂
    {α β : Type} {R : α → β → Prop} {l : List α} {bs : List β} (h : List.Forall₂ R l bs) (i : Nat) :
    l[i]? = none ∧ bs[i]? = none ∨ ∃ a b, l[i]? = some a ∧ bs[i]? = some b ∧ R a b := by
  obtain ⟨hlength, hall⟩ := List.forall₂_iff_get.mp h
  rcases Nat.lt_or_ge i l.length with hi | hi
  · have hi' : i < bs.length := hlength ▸ hi
    exact Or.inr ⟨_, _, List.getElem?_eq_getElem hi, List.getElem?_eq_getElem hi', hall i hi hi'⟩
  · exact Or.inl ⟨List.getElem?_eq_none hi, List.getElem?_eq_none (hlength ▸ hi)⟩

namespace NodeTable

variable {nodes : NodeTable} {n : Nat} {part : Part}

theorem part?_mono
    {levels levels' : Nat} (hle : levels ≤ levels') (h : nodes.part? levels n = some part) :
    nodes.part? levels' n = some part := by
  induction levels generalizing levels' n part with
  | zero => cases h
  | succ levels ih =>
      cases levels' with
      | zero => exact absurd hle (Nat.not_succ_le_zero levels)
      | succ levels' =>
          obtain ⟨node, hnode, h⟩ := Option.bind_eq_some_iff.mp h
          rw [part?_succ hnode]
          exact NodeContent.part?_mono h fun n p => ih (Nat.le_of_succ_le_succ hle)

/-- The number of the node that is reached from a node by the positions of listed nodes. -/
def follow (nodes : NodeTable) : Nat → List Nat → Option Nat
  | n, [] => some n
  | n, i :: route => (nodes.listed n)[i]?.bind fun c => follow nodes c route

theorem follow_concat
    (nodes : NodeTable) (n : Nat) (route : List Nat) (i : Nat) :
    nodes.follow n (route ++ [i]) = (nodes.follow n route).bind fun m => (nodes.listed m)[i]? := by
  induction route generalizing n with
  | nil =>
      rw [List.nil_append, follow, follow, Option.bind_some]
      cases (nodes.listed n)[i]? <;> rfl
  | cons j route ih =>
      rw [List.cons_append, follow, follow]
      cases (nodes.listed n)[j]? with
      | none => rfl
      | some c => exact ih c

end NodeTable

namespace Focus

/-- The positions of the parts that lead from the whole document to a place. -/
def route (f : Focus) : List Nat := (f.above.map Prod.snd).reverse

/-- A place is shown by a node: following the positions of the place leads to it, the part there is
read from it, and its parent shows what encloses the place. -/
structure ShownBy (nodes : NodeTable) (f : Focus) (n : Nat) : Prop where
  follow : nodes.follow 0 f.route = some n
  part : nodes.part? nodes.length n = some f.part
  parent : nodes.parentOf? n = f.parent?.bind fun outer => nodes.follow 0 outer.route

theorem getElem?_children
    (f : Focus) (i : Nat) :
    f.children[i]? = f.part.children[i]?.map fun part => ⟨part, (f.part, i) :: f.above⟩ := by
  rw [children, List.getElem?_map, List.getElem?_zipIdx, Option.map_map, Nat.zero_add]
  rfl

variable {nodes : NodeTable} {f : Focus} {n : Nat}

/-- What stands directly inside of a place is shown by what the node of the place lists. -/
theorem ShownBy.children
    (h : f.ShownBy nodes n) (hchunk : nodes.Chunk none [0] 0 nodes.length) (i : Nat) :
    (nodes.listed n)[i]? = none ∧ f.children[i]? = none ∨
      ∃ m c, (nodes.listed n)[i]? = some m ∧ f.children[i]? = some c ∧ c.ShownBy nodes m := by
  obtain ⟨levels, hlevels⟩ : ∃ levels, nodes.length = levels + 1 :=
    Nat.exists_eq_add_one.mpr (hchunk.top 0 List.mem_cons_self).2.1
  have hpart := h.part
  rw [hlevels] at hpart
  obtain ⟨node, hnode, hpart⟩ := Option.bind_eq_some_iff.mp hpart
  obtain ⟨node', hnode', -, -, -, hleaf⟩ := hchunk.node n (Nat.zero_le n)
    (List.getElem?_eq_some_iff.mp hnode).1
  cases hnode.symm.trans hnode'
  have hlisted : nodes.listed n = node.content.children := by rw [NodeTable.listed, hnode]; rfl
  rw [hlisted, getElem?_children]
  rcases nth_of_forall₂ (NodeContent.children_of_part? hpart hleaf) i with
    ⟨hnone, hnone'⟩ | ⟨m, part, hm, hchild, hread⟩
  · exact Or.inl ⟨hnone, by rw [hnone']; rfl⟩
  · refine Or.inr ⟨m, _, hm, by rw [hchild]; rfl, ?_, ?_, ?_⟩
    · have hroute : (Focus.mk part ((f.part, i) :: f.above)).route = f.route ++ [i] := by
        simp [route]
      rw [hroute, NodeTable.follow_concat, h.follow, Option.bind_some, hlisted]
      exact hm
    · exact NodeTable.part?_mono (hlevels ▸ Nat.le_succ levels) hread
    · rw [(hchunk.linked.parent_iff n m).mpr (hlisted ▸ List.mem_of_getElem? hm)]
      exact h.follow.symm

end Focus

/-- In a table that is one chunk the places of the tree that is read from it are shown by the nodes,
every place by one and every node for one. -/
theorem NodeTable.Chunk.shown
    {nodes : NodeTable} (h : nodes.Chunk none [0] 0 nodes.length) {t : Tree}
    (ht : nodes.part? nodes.length 0 = some (.tree t)) :
    (∀ f : Focus, Relation.ReflTransGen (fun outer inner => inner ∈ outer.children) (.root t) f →
      ∃ n, f.ShownBy nodes n) ∧
    ∀ n < nodes.length, ∃ f : Focus,
      Relation.ReflTransGen (fun outer inner => inner ∈ outer.children) (.root t) f ∧
        f.ShownBy nodes n := by
  have hroot : (Focus.root t).ShownBy nodes 0 :=
    ⟨rfl, ht, NodeTable.parentOf?_of_map (h.top 0 List.mem_cons_self).2.2⟩
  constructor
  · intro f hf
    induction hf with
    | refl => exact ⟨0, hroot⟩
    | @tail outer inner _ hinner ih =>
        obtain ⟨n, hn⟩ := ih
        obtain ⟨i, hi⟩ := List.mem_iff_getElem?.mp hinner
        rcases hn.children h i with ⟨-, hnone⟩ | ⟨m, c, -, hc, hshown⟩
        · rw [hnone] at hi
          cases hi
        · cases hc.symm.trans hi
          exact ⟨m, hshown⟩
  -- from a node the parents lead to the first one
  · intro n
    induction n using Nat.strong_induction_on with
    | _ n ih =>
        intro hn
        cases hparent : nodes.parentOf? n with
        | none =>
            cases (h.linked.first n hn).mp hparent
            exact ⟨_, .refl, hroot⟩
        | some p =>
            have hlisted := (h.linked.parent_iff p n).mp hparent
            have hlt := h.linked.further p n hlisted
            obtain ⟨f, hreach, hf⟩ := ih p hlt (hlt.trans hn)
            obtain ⟨i, hi⟩ := List.mem_iff_getElem?.mp hlisted
            rcases hf.children h i with ⟨hnone, -⟩ | ⟨m, c, hm, hc, hshown⟩
            · rw [hnone] at hi
              cases hi
            · cases hm.symm.trans hi
              exact ⟨c, hreach.tail (List.mem_of_getElem? hc), hshown⟩

end Workflow
