import Workflow.Report.Drawing

/-!
# Reading drawings back

A drawing shows the outline of a key tree: the names of its fields and the indexes of its items, one
inside of the other.  Whatever the labels look like, a line is read without doubt.  What stands in
front of a label is made of groups of four characters, one for each level and the connector behind
them, and only the last of these groups is a connector.  So a line gives the depth and the label of
its entry, and since the lines follow the outline in preorder, they determine it.
-/

namespace Workflow

/-- The entries of a key tree on one level: the label of the first one with the entries below it,
and the entries that follow beside it. -/
inductive Outline where
  | none
  | entry (label : Text) (below beside : Outline)
  deriving DecidableEq, Repr

namespace Outline

/-- The entries in preorder, each with its depth. -/
def listed (depth : Nat) : Outline → List (Nat × Text)
  | none => []
  | entry label below beside =>
    (depth, label) :: (below.listed (depth + 1) ++ beside.listed depth)

mutual

/-- The outline of a key tree. -/
def ofValue : Value → Outline
  | .arr items => ofItems 0 items
  | .obj fields => ofFields fields
  | _ => none

/-- The outline of the items of an array from a position on: each has its index for a label. -/
def ofItems (i : Nat) : List Value → Outline
  | [] => none
  | v :: items => entry (Drawing.itemLabel i) (ofValue v) (ofItems (i + 1) items)

/-- The outline of the fields of an object: each has its name for a label. -/
def ofFields : List (Text × Value) → Outline
  | [] => none
  | (name, v) :: fields => entry name (ofValue v) (ofFields fields)

end

/-! ## The preorder determines the outline -/

variable {o o' : Outline} {depth : Nat} {rest rest' : List (Nat × Text)}

/-- A list goes on outside of the entries of a depth: with an entry further out, or not at all. -/
def LeavesDepth (depth : Nat) (rest : List (Nat × Text)) : Prop := ∀ x ∈ rest.head?, x.1 < depth

theorem leavesDepth_listed_append
    (o : Outline) (h : LeavesDepth depth rest) :
    LeavesDepth (depth + 1) (o.listed depth ++ rest) := by
  intro x hx
  cases o with
  | none => exact Nat.lt_succ_of_lt (h x hx)
  | entry label below beside =>
      cases hx
      exact Nat.lt_succ_self depth

/-- Entries of a depth are told apart from what follows outside of it. -/
theorem eq_of_listed_append
    (h : LeavesDepth depth rest) (h' : LeavesDepth depth rest')
    (heq : o.listed depth ++ rest = o'.listed depth ++ rest') :
    o = o' ∧ rest = rest' := by
  induction o generalizing o' depth rest rest' with
  | none =>
      cases o' with
      | none => exact ⟨rfl, heq⟩
      | entry label below beside =>
          -- the list would go on with an entry of the depth that it leaves
          cases (show rest = _ from heq)
          exact absurd (h _ rfl) (Nat.lt_irrefl depth)
  | entry label below beside ihbelow ihbeside =>
      cases o' with
      | none =>
          cases (show _ = rest' from heq)
          exact absurd (h' _ rfl) (Nat.lt_irrefl depth)
      | entry label' below' beside' =>
          simp only [listed, List.cons_append, List.append_assoc, List.cons.injEq,
            Prod.mk.injEq, true_and] at heq
          obtain ⟨rfl, heq⟩ := heq
          obtain ⟨rfl, hrest⟩ := ihbelow (leavesDepth_listed_append beside h)
            (leavesDepth_listed_append beside' h') heq
          obtain ⟨rfl, rfl⟩ := ihbeside h h' hrest
          exact ⟨rfl, rfl⟩

theorem listed_injective
    (heq : o.listed depth = o'.listed depth) :
    o = o' := by
  have hnil : LeavesDepth depth [] := nofun
  refine (eq_of_listed_append hnil hnil ?_).1
  rw [heq]

end Outline

namespace Drawing

/-! ## Reading a line -/

/-- Whether four characters are a connector and the blank behind it. -/
def isBranch (group : Text) : Bool :=
  group == connector true ++ " " || group == connector false ++ " "

/-- Reads a line in groups of four characters, up to and including the first connector: the number
of groups in front of the connector, and the label behind it. -/
def readLine : Text → Option (Nat × Text)
  | a :: b :: c :: d :: rest =>
    if isBranch [a, b, c, d] then some (0, rest)
    else (readLine rest).map fun (depth, label) => (depth + 1, label)
  | _ => none

/-- A margin is read as some levels, whatever follows. -/
def Indents (margin : Text) (depth : Nat) : Prop :=
  ∀ rest, readLine (margin ++ rest) = (readLine rest).map fun x => (x.1 + depth, x.2)

variable {margin : Text} {depth : Nat}

theorem indents_nil :
    Indents [] 0 := by
  intro rest
  rw [List.nil_append]
  exact Option.map_id'.symm

/-- Neither a bar nor a blank is taken for a connector. -/
theorem Indents.inner
    (h : Indents margin depth) (isLast : Bool) :
    Indents (inner margin isLast) (depth + 1) := by
  intro rest
  have hgroup : readLine (continuation isLast ++ (" " ++ rest)) =
      (readLine rest).map fun x => (x.1 + 1, x.2) := by
    cases isLast <;> rfl
  rw [Drawing.inner, List.append_assoc, List.append_assoc, h, hgroup, Option.map_map]
  refine congrArg (Option.map · (readLine rest)) (funext fun x => ?_)
  exact Prod.ext (Nat.add_right_comm _ _ _) rfl

theorem Indents.readLine_entry
    (h : Indents margin depth) (isLast : Bool) (label : Text) :
    readLine (entry margin isLast label) = some (depth, label) := by
  have hbranch : readLine (connector isLast ++ (" " ++ label)) = some (0, label) := by
    cases isLast <;> rfl
  rw [entry, List.append_assoc, List.append_assoc, h, hbranch, Option.map_some, Nat.zero_add]

/-! ## Reading a drawing -/

mutual

/-- The lines below an entry are read as the entries of its outline, in preorder. -/
theorem map_readLine_lines :
    ∀ (v : Value) {margin : Text} {depth : Nat}, Indents margin depth →
      (lines margin v).map readLine = ((Outline.ofValue v).listed depth).map some
  | .arr items, _, _, h => by
      rw [lines, Outline.ofValue]
      exact map_readLine_itemLines items 0 h
  | .obj fields, _, _, h => by
      rw [lines, Outline.ofValue]
      exact map_readLine_fieldLines fields h
  | .null, _, _, _ => rfl
  | .bool _, _, _, _ => rfl
  | .int _, _, _, _ => rfl
  | .float _, _, _, _ => rfl
  | .str _, _, _, _ => rfl

theorem map_readLine_itemLines :
    ∀ (items : List Value) (i : Nat) {margin : Text} {depth : Nat}, Indents margin depth →
      (itemLines margin i items).map readLine = ((Outline.ofItems i items).listed depth).map some
  | [], _, _, _, _ => rfl
  | v :: items, i, _, _, h => by
      rw [itemLines, Outline.ofItems, Outline.listed, List.map_cons, List.map_append,
        h.readLine_entry, map_readLine_lines v (h.inner _), map_readLine_itemLines items _ h,
        List.map_cons, List.map_append]

theorem map_readLine_fieldLines :
    ∀ (fields : List (Text × Value)) {margin : Text} {depth : Nat}, Indents margin depth →
      (fieldLines margin fields).map readLine = ((Outline.ofFields fields).listed depth).map some
  | [], _, _, _ => rfl
  | (name, v) :: fields, _, _, h => by
      rw [fieldLines, Outline.ofFields, Outline.listed, List.map_cons, List.map_append,
        h.readLine_entry, map_readLine_lines v (h.inner _), map_readLine_fieldLines fields h,
        List.map_cons, List.map_append]

end

/-- Key trees that are drawn with the same lines have the same outline. -/
theorem outline_eq_of_lines
    {v w : Value} (heq : lines [] v = lines [] w) :
    Outline.ofValue v = Outline.ofValue w := by
  have hread : ((Outline.ofValue v).listed 0).map some =
      ((Outline.ofValue w).listed 0).map some := by
    rw [← map_readLine_lines v indents_nil, ← map_readLine_lines w indents_nil, heq]
  exact Outline.listed_injective ((List.map_inj_right fun _ _ => Option.some.inj).mp hread)

/-! ## Drawings of scopes -/

section Scopes

variable {style : ReportStyle} (hcolors : style.colors = false)
include hcolors

theorem paint_of_plain
    (color t : Text) :
    style.paint color t = t := by
  rw [ReportStyle.paint, hcolors]
  rfl

theorem paintVariable_of_plain
    (line : Text) :
    paintVariable style line = line := by
  unfold paintVariable
  split
  · rfl
  · rw [paint_of_plain hcolors, List.take_append_drop]

/-- Without colours, the lines of a scope with variables are those of its variables, each with a
dollar sign, behind a heading. -/
theorem scope_of_cons
    (icon title color : Text) (field : Text × Value) (fields : List (Text × Value)) :
    scope style icon title color (.obj (field :: fields)) =
      .ok ((style.icon icon ++ title) ::
        lines [] (.obj ((field :: fields).map fun (name, v) => ('$' :: name, v)))) := by
  have htruthy : (Value.obj (field :: fields)).truthy = true := rfl
  have hmap : ∀ drawn : List Text, drawn.map (paintVariable style) = drawn := by
    intro drawn
    rw [List.map_congr_left fun line _ => paintVariable_of_plain hcolors line, List.map_id']
  rw [scope, if_pos htruthy, paint_of_plain hcolors]
  simp only [Value.fields?]
  rw [hmap, lines]

theorem scope_of_nil
    (icon title color : Text) :
    scope style icon title color (.obj []) =
      .ok [style.icon icon ++ title, style.margin ++ style.icon "📭" ++ "(no variables)"] := by
  rw [scope, if_neg (by decide), paint_of_plain hcolors, paint_of_plain hcolors]

end Scopes

/-- What stands in the place of variables does not look like an entry. -/
theorem noVariables_ne_entry
    (style : ReportStyle) (isLast : Bool) (label : Text) :
    style.margin ++ style.icon "📭" ++ "(no variables)" ≠ entry [] isLast label := by
  intro heq
  have hhead := congrArg List.head? heq
  obtain ⟨indent, colors, icons⟩ := style
  cases indent with
  | zero => cases icons <;> cases isLast <;> cases hhead
  | succ indent => cases isLast <;> cases hhead

theorem ofFields_named_injective
    {fields others : List (Text × Value)}
    (heq : Outline.ofFields (fields.map fun (name, v) => ('$' :: name, v)) =
      Outline.ofFields (others.map fun (name, v) => ('$' :: name, v))) :
    Outline.ofFields fields = Outline.ofFields others := by
  induction fields generalizing others with
  | nil =>
      cases others with
      | nil => rfl
      | cons other others => cases heq
  | cons field fields ih =>
      cases others with
      | nil => cases heq
      | cons other others =>
          simp only [List.map_cons, Outline.ofFields, Outline.entry.injEq, List.cons.injEq,
            true_and] at heq
          obtain ⟨hname, hbelow, hbeside⟩ := heq
          rw [Outline.ofFields, Outline.ofFields, hname, hbelow, ih hbeside]

/-- Scopes that are drawn with the same lines, in one style without colours, have variables with the
same outlines. -/
theorem outline_eq_of_scope
    {style : ReportStyle} (hcolors : style.colors = false) {icon title color : Text}
    {own others : List (Text × Value)}
    (heq : scope style icon title color (.obj own) = scope style icon title color (.obj others)) :
    Outline.ofFields own = Outline.ofFields others := by
  have hdiffer : ∀ (field : Text × Value) (fields : List (Text × Value)),
      scope style icon title color (.obj []) ≠
        scope style icon title color (.obj (field :: fields)) := by
    intro field fields heq
    rw [scope_of_nil hcolors, scope_of_cons hcolors, lines, List.map_cons, fieldLines] at heq
    simp only [Except.ok.injEq, List.cons.injEq, true_and] at heq
    exact noVariables_ne_entry style _ _ heq.1
  cases own with
  | nil =>
      cases others with
      | nil => rfl
      | cons other others => exact absurd heq (hdiffer other others)
  | cons field own =>
      cases others with
      | nil => exact absurd heq.symm (hdiffer field own)
      | cons other others =>
          rw [scope_of_cons hcolors, scope_of_cons hcolors] at heq
          simp only [Except.ok.injEq, List.cons.injEq, true_and] at heq
          have houtline := outline_eq_of_lines heq
          rw [Outline.ofValue, Outline.ofValue] at houtline
          exact ofFields_named_injective houtline

/-- A drawing can be read back, whatever its labels look like.  Its lines are read as the entries of
the outline in preorder, one line for each entry, with the depth and the label of the entry.  So
key trees that are drawn with the same lines have the same outline, and so have the variables of two
scopes. -/
theorem drawings_read_back
    (v w : Value) :
    (lines [] v).map readLine = ((Outline.ofValue v).listed 0).map some ∧
      (lines [] v = lines [] w → Outline.ofValue v = Outline.ofValue w) ∧
      ∀ style icon title color own others, style.colors = false →
        scope style icon title color (.obj own) = scope style icon title color (.obj others) →
        Outline.ofFields own = Outline.ofFields others :=
  ⟨map_readLine_lines v indents_nil, outline_eq_of_lines,
    fun _ _ _ _ _ _ hcolors heq => outline_eq_of_scope hcolors heq⟩

/-- An array inside of an object, under labels that look like connectors, bars and blanks. -/
def lookalikeArray : Value :=
  .obj [("└── ", .arr [.null, .obj [("│   x", .null)]]), ("    ", .null)]

/-- The same with an object in the place of the array. -/
def lookalikeObject : Value :=
  .obj [("└── ", .obj [("[0]", .null), ("[1]", .obj [("│   x", .null)])]), ("    ", .null)]

/-- The two values differ, but not in the lines that are drawn, nor in the outline. -/
theorem drawings_read_back_lookalikes :
    (lines [] lookalikeArray).map readLine =
        ([(0, "└── "), (1, "[0]"), (1, "[1]"), (2, "│   x"), (0, "    ")] : List (Nat × Text)).map
          some ∧
      lines [] lookalikeArray = lines [] lookalikeObject ∧
      Outline.ofValue lookalikeArray = Outline.ofValue lookalikeObject ∧
      scope ⟨2, false, true⟩ "📦" "Local scope" Terminal.brightGreen
          (.obj [("a", lookalikeArray)]) =
        scope ⟨2, false, true⟩ "📦" "Local scope" Terminal.brightGreen
          (.obj [("a", lookalikeObject)]) ∧
      Outline.ofFields [("a", lookalikeArray)] = Outline.ofFields [("a", lookalikeObject)] := by
  obtain ⟨hread, hlines, hscopes⟩ := drawings_read_back lookalikeArray lookalikeObject
  have hsame : lines [] lookalikeArray = lines [] lookalikeObject := by decide
  have hscope : scope ⟨2, false, true⟩ "📦" "Local scope" Terminal.brightGreen
        (.obj [("a", lookalikeArray)]) =
      scope ⟨2, false, true⟩ "📦" "Local scope" Terminal.brightGreen
        (.obj [("a", lookalikeObject)]) := by rfl
  refine ⟨?_, hsame, hlines hsame, hscope, hscopes _ _ _ _ _ _ rfl hscope⟩
  rw [hread]
  decide

end Drawing

end Workflow
