import Workflow.Proofs.ReportTexts
import Workflow.Proofs.TextPieces

/-!
# Reports with the colours removed

Colours are put around many pieces of a report before the pieces are joined, and they are removed
from the whole text at once, from left to right.  A text *strips to* another when this holds in
front of every text that may follow: nothing behind a piece can change what is removed from it.
Texts without an escape character strip to themselves, the colours strip to nothing, and joining
keeps the relation.  So removing the escape sequences of a coloured report leaves the report
without colours, for listings of any length and drawings of any depth.
-/

namespace Workflow

namespace Terminal

/-! ## Removing escape sequences -/

theorem length_lt_of_dropControl?
    {t rest : Text} (h : dropControl? t = some rest) :
    rest.length < t.length := by
  rw [dropControl?] at h
  split at h
  · next c behind heq =>
      split at h
      · cases h
        have hnumbers := (List.dropWhile_suffix (fun c : CodePoint => c.within 0x30 0x3F)
          (l := t)).length_le
        have hmarks := (List.dropWhile_suffix (fun c : CodePoint => c.within 0x20 0x2F)
          (l := t.dropWhile fun c => c.within 0x30 0x3F)).length_le
        rw [heq, List.length_cons] at hmarks
        omega
      · cases h
  · cases h

theorem length_lt_of_dropSequence?
    {t rest : Text} (h : dropSequence? t = some rest) :
    rest.length < t.length := by
  cases t with
  | nil => cases h
  | cons c t =>
      rw [dropSequence?] at h
      rw [List.length_cons]
      split at h
      · exact (length_lt_of_dropControl? h).trans (Nat.lt_succ_self _)
      · split at h
        · cases h
          exact Nat.lt_succ_self _
        · cases h

/-- A bound that is not below the length of the text does not matter. -/
theorem stripFrom_eq_stripFrom
    {t : Text} {fuel bound : Nat} (hfuel : t.length ≤ fuel) (hbound : t.length ≤ bound) :
    stripFrom fuel t = stripFrom bound t := by
  induction fuel generalizing t bound with
  | zero =>
      obtain rfl := List.length_eq_zero_iff.mp (Nat.le_zero.mp hfuel)
      cases bound <;> rfl
  | succ fuel ih =>
      cases t with
      | nil => cases bound <;> rfl
      | cons c t =>
          rw [List.length_cons] at hfuel hbound
          obtain ⟨bound, rfl⟩ : ∃ m, bound = m + 1 := ⟨bound - 1, by omega⟩
          have htail : stripFrom fuel t = stripFrom bound t := ih (by omega) (by omega)
          rw [stripFrom, stripFrom, htail]
          split
          · cases hdrop : dropSequence? t with
            | none => rfl
            | some rest =>
                have hshort := length_lt_of_dropSequence? hdrop
                exact ih (by omega) (by omega)
          · rfl

theorem stripEscapes_cons_of_ne
    {c : CodePoint} (hc : c ≠ escape) (t : Text) :
    stripEscapes (c :: t) = c :: stripEscapes t := by
  rw [stripEscapes, List.length_cons, stripFrom, if_neg hc, stripEscapes]

/-- A complete escape sequence disappears. -/
theorem stripEscapes_escape
    {t rest : Text} (h : dropSequence? t = some rest) :
    stripEscapes (escape :: t) = stripEscapes rest := by
  rw [stripEscapes, List.length_cons, stripFrom, if_pos rfl, h]
  exact stripFrom_eq_stripFrom (length_lt_of_dropSequence? h).le le_rfl

/-- In front of any text, removing the escape sequences of one text leaves the other. -/
def StripsTo (t u : Text) : Prop := ∀ rest, stripEscapes (t ++ rest) = u ++ stripEscapes rest

namespace StripsTo

variable {t u t' u' : Text}

theorem stripEscapes_eq
    (h : StripsTo t u) :
    stripEscapes t = u := by
  have hend := h []
  rw [List.append_nil] at hend
  rw [hend]
  exact List.append_nil u

/-- Text without an escape character stays. -/
theorem of_notMem
    (h : escape ∉ t) :
    StripsTo t t := by
  intro rest
  induction t with
  | nil => rfl
  | cons c t ih =>
      rw [List.mem_cons, not_or] at h
      rw [List.cons_append, stripEscapes_cons_of_ne (Ne.symm h.1), ih h.2, List.cons_append]

/-- Colours disappear. -/
theorem sequence
    {numbers : Text} (h : numbers.all (fun c => c.within 0x30 0x3F) = true) :
    StripsTo (sequence numbers) [] := by
  intro rest
  have hnumbers : (numbers ++ (Text.ofString "m" ++ rest)).dropWhile (fun c => c.within 0x30 0x3F) =
      Text.ofString "m" ++ rest := by
    rw [List.dropWhile_append_of_pos (List.all_eq_true.mp h)]
    rfl
  have hsequence : dropSequence? ('[' :: (numbers ++ (Text.ofString "m" ++ rest))) = some rest := by
    rw [dropSequence?, if_pos rfl, dropControl?, hnumbers]
    rfl
  have htext : Terminal.sequence numbers ++ rest =
      escape :: '[' :: (numbers ++ (Text.ofString "m" ++ rest)) := by
    rw [Terminal.sequence, List.cons_append, List.cons_append, List.append_assoc]
  rw [htext, stripEscapes_escape hsequence, List.nil_append]

theorem append
    (h : StripsTo t u) (h' : StripsTo t' u') :
    StripsTo (t ++ t') (u ++ u') := by
  intro rest
  rw [List.append_assoc, h, h', List.append_assoc]

/-- What is in a colour is left without it. -/
theorem paint
    {color : Text} (hcolor : StripsTo color []) (h : StripsTo t u) :
    StripsTo (Terminal.paint color t) u := by
  have hreset : StripsTo reset [] := sequence rfl
  have hall := (hcolor.append h).append hreset
  rwa [List.nil_append, List.append_nil] at hall

theorem joinWith
    {sep : Text} (hsep : escape ∉ sep) {pieces others : List Text}
    (h : List.Forall₂ StripsTo pieces others) :
    StripsTo (Text.joinWith sep pieces) (Text.joinWith sep others) := by
  induction h with
  | nil => exact of_notMem List.not_mem_nil
  | @cons piece other pieces others hpiece hpieces ih =>
      cases hpieces with
      | nil => exact hpiece
      | cons hnext hmore => exact (hpiece.append (of_notMem hsep)).append ih

end StripsTo

end Terminal

/-! ## Computations with related results -/

/-- Two computations stop with the same fault, or their results are related. -/
inductive Alike {α β : Type} (R : α → β → Prop) : Except Fault α → Except Fault β → Prop
  | ok {a : α} {b : β} (h : R a b) : Alike R (.ok a) (.ok b)
  | error (fault : Fault) : Alike R (.error fault) (.error fault)

namespace Alike

variable {α β γ δ : Type} {R : α → β → Prop} {S : γ → δ → Prop}
  {x : Except Fault α} {y : Except Fault β}

theorem bind
    {f : α → Except Fault γ} {g : β → Except Fault δ} (h : Alike R x y)
    (hfg : ∀ a b, R a b → Alike S (f a) (g b)) :
    Alike S (x >>= f) (y >>= g) := by
  cases h with
  | ok h => exact hfg _ _ h
  | error fault => exact error fault

theorem map
    {f : α → γ} {g : β → δ} (h : Alike R x y) (hfg : ∀ a b, R a b → S (f a) (g b)) :
    Alike S (x.map f) (y.map g) := by
  cases h with
  | ok h => exact ok (hfg _ _ h)
  | error fault => exact error fault

theorem mapM
    {ι : Type} {l : List ι} {f : ι → Except Fault α} {g : ι → Except Fault β}
    (h : ∀ i ∈ l, Alike R (f i) (g i)) :
    Alike (List.Forall₂ R) (l.mapM f) (l.mapM g) := by
  induction l with
  | nil => exact ok List.Forall₂.nil
  | cons i l ih =>
      rw [List.mapM_cons, List.mapM_cons]
      refine (h i List.mem_cons_self).bind fun a b hab => ?_
      refine (ih fun j hj => h j (List.mem_cons_of_mem _ hj)).bind fun as bs hrest => ?_
      exact ok (List.Forall₂.cons hab hrest)

/-- Functional relations give equations. -/
theorem map_eq
    {f : α → β} (h : Alike (fun a b => f a = b) x y) :
    x.map f = y := by
  cases h with
  | ok h => exact congrArg Except.ok h
  | error fault => rfl

end Alike

/-! ## Texts without an escape character -/

open Terminal (escape stripEscapes StripsTo)

namespace Text

theorem escape_notMem_append
    {t u : Text} (ht : escape ∉ t) (hu : escape ∉ u) :
    escape ∉ t ++ u := by
  rw [List.mem_append]
  exact not_or.mpr ⟨ht, hu⟩

theorem escape_notMem_ofInt
    (n : Int) :
    escape ∉ ofInt n := by
  intro h
  rcases of_mem_ofInt h with hsign | hdigit
  · exact absurd hsign (by decide)
  · exact absurd hdigit (by decide)

theorem escape_notMem_ofNat
    (n : Nat) :
    escape ∉ ofNat n := escape_notMem_ofInt n

theorem escape_notMem_copies
    (n : Nat) :
    escape ∉ copies n ' ' := by
  intro h
  exact absurd (List.eq_of_mem_replicate h) (by decide)

end Text

/-! ## Pieces of a report -/

section Reports

variable (indent : Nat) (icons : Bool)

/-- The reports with colours that are compared to those without. -/
abbrev ReportStyle.colored : ReportStyle := ⟨indent, true, icons⟩

/-- The reports without colours. -/
abbrev ReportStyle.plain : ReportStyle := ⟨indent, false, icons⟩

open ReportStyle (colored plain)

theorem ReportStyle.paint_stripsTo
    {color t : Text} (hcolor : StripsTo color []) (ht : escape ∉ t) :
    StripsTo ((colored indent icons).paint color t) ((plain indent icons).paint color t) :=
  StripsTo.paint hcolor (StripsTo.of_notMem ht)

theorem ReportStyle.icon_stripsTo
    {t : Text} (ht : escape ∉ t) :
    StripsTo ((colored indent icons).icon t) ((plain indent icons).icon t) := by
  have hicon : escape ∉ (plain indent icons).icon t := by
    rw [ReportStyle.icon]
    split
    · exact Text.escape_notMem_append ht (by decide)
    · exact List.not_mem_nil
  exact StripsTo.of_notMem hicon

theorem ReportStyle.margin_stripsTo :
    StripsTo (colored indent icons).margin (plain indent icons).margin :=
  StripsTo.of_notMem (Text.escape_notMem_copies indent)

/-! ## Listings -/

theorem DiagnosticCode.escape_notMem_word
    (code : DiagnosticCode) :
    escape ∉ code.word := by
  cases code <;> decide

/-- The parts of a mark are a colour and two texts. -/
theorem SeverityMark.stripsTo
    (severity : Int) :
    StripsTo (SeverityMark.of severity).color [] ∧ escape ∉ (SeverityMark.of severity).icon ∧
      escape ∉ (SeverityMark.of severity).label := by
  unfold SeverityMark.of
  repeat' split
  all_goals exact ⟨StripsTo.sequence rfl, by decide, by decide⟩

namespace Diagnostic

theorem escape_notMem_origin?
    {d : Diagnostic} (hsource : escape ∉ d.source) :
    ∀ t ∈ d.origin?, escape ∉ t := by
  intro t ht
  rw [origin?] at ht
  split at ht
  · cases ht
    exact DiagnosticCode.escape_notMem_word _
  · split at ht
    · cases ht
    · cases ht
      exact hsource

theorem line_alike
    {d : Diagnostic} (hmessage : ∀ t, d.message = .str t → escape ∉ t)
    (hsource : escape ∉ d.source) :
    Alike StripsTo (d.line (colored indent icons)) (d.line (plain indent icons)) := by
  obtain ⟨hcolor, hicon, hlabel⟩ := SeverityMark.stripsTo d.severity
  have hdisplay : escape ∉ d.range.start.display := by
    rw [Position.display]
    refine Text.escape_notMem_append (Text.escape_notMem_append ?_ (by decide)) ?_ <;>
      exact Text.escape_notMem_ofInt _
  have hgray : StripsTo Terminal.gray [] := StripsTo.sequence rfl
  have hplace := (ReportStyle.icon_stripsTo indent icons hicon).append
    (ReportStyle.paint_stripsTo indent icons hgray hdisplay)
  have hmark := ReportStyle.paint_stripsTo indent icons hcolor hlabel
  have horigin : List.Forall₂ StripsTo
      (d.origin?.toList.map fun t =>
        (colored indent icons).paint Terminal.brightMagenta ("[" ++ t ++ "]"))
      (d.origin?.toList.map fun t =>
        (plain indent icons).paint Terminal.brightMagenta ("[" ++ t ++ "]")) := by
    rw [List.forall₂_map_left_iff, List.forall₂_map_right_iff, List.forall₂_same]
    intro t ht
    have hword := escape_notMem_origin? hsource t (Option.mem_toList.mp ht)
    refine ReportStyle.paint_stripsTo indent icons (StripsTo.sequence rfl) ?_
    exact Text.escape_notMem_append (Text.escape_notMem_append (by decide) hword) (by decide)
  unfold Diagnostic.line
  cases hvalue : d.message with
  | str message =>
      refine Alike.ok (StripsTo.joinWith (by decide) ?_)
      have hlast := List.Forall₂.cons (StripsTo.of_notMem (hmessage message hvalue)) .nil
      exact .cons hplace (.cons hmark (List.rel_append horigin hlast))
  | _ =>
      simp only [List.length_map]
      exact Alike.error _

end Diagnostic

namespace Listing

theorem heading_stripsTo
    {title : Option Text} (h : ∀ t ∈ title, escape ∉ t) :
    List.Forall₂ StripsTo (heading (colored indent icons) title)
      (heading (plain indent icons) title) := by
  unfold heading
  split
  · exact .nil
  · exact .nil
  · next t _ =>
      exact .cons (ReportStyle.paint_stripsTo indent icons (StripsTo.sequence rfl) (h t rfl)) .nil

theorem summary_stripsTo
    (ds : List Diagnostic) :
    StripsTo (summary (colored indent icons) ds) (summary (plain indent icons) ds) := by
  unfold summary
  dsimp only
  refine ReportStyle.paint_stripsTo indent icons ?_ ?_
  · split <;> exact StripsTo.sequence rfl
  · refine Text.escape_notMem_append ?_ ?_
    · exact Text.escape_notMem_append (Text.escape_notMem_ofNat _) (by decide)
    · split
      · exact List.not_mem_nil
      · refine Text.escape_notMem_append ?_ (by decide)
        exact Text.escape_notMem_append (by decide) (Text.escape_notMem_ofNat _)

theorem body_alike
    {ds : List Diagnostic} (hmessages : ∀ d ∈ ds, ∀ t, d.message = .str t → escape ∉ t)
    (hsources : ∀ d ∈ ds, escape ∉ d.source) :
    Alike (List.Forall₂ StripsTo) (body (colored indent icons) ds)
      (body (plain indent icons) ds) := by
  cases ds with
  | nil =>
      refine Alike.ok (.cons (.append ?_ ?_) .nil)
      · exact ReportStyle.icon_stripsTo indent icons (by decide)
      · exact ReportStyle.paint_stripsTo indent icons (StripsTo.sequence rfl) (by decide)
  | cons first rest =>
      have hlines : Alike (List.Forall₂ StripsTo)
          ((ordered (first :: rest)).mapM (Diagnostic.line (colored indent icons)))
          ((ordered (first :: rest)).mapM (Diagnostic.line (plain indent icons))) := by
        refine Alike.mapM fun d hd => ?_
        have hd' := List.mem_mergeSort.mp hd
        exact d.line_alike indent icons (hmessages d hd') (hsources d hd')
      refine hlines.bind fun shown shown' hshown => Alike.ok (List.rel_append ?_ ?_)
      · rw [List.forall₂_map_left_iff, List.forall₂_map_right_iff]
        exact hshown.imp fun t u htu => (ReportStyle.margin_stripsTo indent icons).append htu
      · exact .cons (summary_stripsTo indent icons _) .nil

/-- No escape character comes into a listing with what it shows. -/
structure Unescaped (title : Option Text) (ds : List Diagnostic) : Prop where
  title : ∀ t ∈ title, escape ∉ t
  messages : ∀ d ∈ ds, ∀ t, d.message = .str t → escape ∉ t
  sources : ∀ d ∈ ds, escape ∉ d.source

/-- Without colours, a listing is what is left of the coloured one. -/
theorem map_stripEscapes_text
    {title : Option Text} {ds : List Diagnostic} (h : Unescaped title ds) :
    (text (colored indent icons) title ds).map stripEscapes =
      text (plain indent icons) title ds := by
  have hbody := body_alike indent icons h.messages h.sources
  refine Alike.map_eq (hbody.map fun shown shown' hshown => ?_)
  exact (StripsTo.joinWith (by decide)
    (List.rel_append (heading_stripsTo indent icons h.title) hshown)).stripEscapes_eq

/-- There is a listing of diagnostics whose messages are texts. -/
theorem exists_text
    (style : ReportStyle) (title : Option Text) {ds : List Diagnostic}
    (h : ∀ d ∈ ds, ∃ message, d.message = .str message) :
    ∃ listing, text style title ds = .ok listing := by
  have hlines : Delivers ((ordered ds).mapM (Diagnostic.line style)) True
      (fun lines => ∀ line ∈ lines, True) := by
    refine Delivers.mapM fun d hd => ⟨fun _ _ => trivial, fun _ => ?_⟩
    obtain ⟨message, hmessage⟩ := h d (List.mem_mergeSort.mp hd)
    unfold Diagnostic.line
    dsimp only
    rw [hmessage]
    exact ⟨_, rfl⟩
  obtain ⟨lines, hlines⟩ := hlines.succeeds trivial
  unfold text body
  cases ds with
  | nil => exact ⟨_, rfl⟩
  | cons first rest =>
      dsimp only
      rw [hlines]
      exact ⟨_, rfl⟩

end Listing

/-! ## Drawings -/

mutual

/-- The names of the fields inside a value, at any depth. -/
def Value.innerNames : Value → List Text
  | .arr items => itemNames items
  | .obj fields => fieldNames fields
  | _ => []

/-- The names of the fields inside the items of an array. -/
def Value.itemNames : List Value → List Text
  | [] => []
  | v :: items => v.innerNames ++ itemNames items

/-- The names of fields and of what is inside them. -/
def Value.fieldNames : List (Text × Value) → List Text
  | [] => []
  | (name, v) :: fields => name :: (v.innerNames ++ fieldNames fields)

end

namespace Drawing

theorem escape_notMem_inner
    {margin : Text} (h : escape ∉ margin) (isLast : Bool) :
    escape ∉ inner margin isLast := by
  have hbelow : escape ∉ continuation isLast := by
    cases isLast <;> decide
  exact Text.escape_notMem_append (Text.escape_notMem_append h hbelow) (by decide)

theorem escape_notMem_entry
    {margin label : Text} (hmargin : escape ∉ margin) (hlabel : escape ∉ label) (isLast : Bool) :
    escape ∉ entry margin isLast label := by
  have hconnector : escape ∉ connector isLast := by
    cases isLast <;> decide
  refine Text.escape_notMem_append (Text.escape_notMem_append ?_ (by decide)) hlabel
  exact Text.escape_notMem_append hmargin hconnector

theorem escape_notMem_itemLabel
    (i : Nat) :
    escape ∉ itemLabel i :=
  Text.escape_notMem_append
    (Text.escape_notMem_append (by decide) (Text.escape_notMem_ofNat i)) (by decide)

mutual

/-- There is no escape character in the lines of a tree without one in its names. -/
theorem escape_notMem_lines :
    ∀ (v : Value) (margin : Text), escape ∉ margin → (∀ name ∈ v.innerNames, escape ∉ name) →
      ∀ line ∈ lines margin v, escape ∉ line
  | .arr items, margin, hmargin, hnames => by
      rw [lines]
      exact escape_notMem_itemLines items margin 0 hmargin hnames
  | .obj fields, margin, hmargin, hnames => by
      rw [lines]
      exact escape_notMem_fieldLines fields margin hmargin hnames
  | .null, _, _, _ => nofun
  | .bool _, _, _, _ => nofun
  | .int _, _, _, _ => nofun
  | .float _, _, _, _ => nofun
  | .str _, _, _, _ => nofun

theorem escape_notMem_itemLines :
    ∀ (items : List Value) (margin : Text) (i : Nat), escape ∉ margin →
      (∀ name ∈ Value.itemNames items, escape ∉ name) →
      ∀ line ∈ itemLines margin i items, escape ∉ line
  | [], _, _, _, _ => nofun
  | v :: items, margin, i, hmargin, hnames => by
      rw [Value.itemNames, List.forall_mem_append] at hnames
      rw [itemLines, List.forall_mem_cons, List.forall_mem_append]
      refine ⟨escape_notMem_entry hmargin (escape_notMem_itemLabel i) _, ?_, ?_⟩
      · exact escape_notMem_lines v _ (escape_notMem_inner hmargin _) hnames.1
      · exact escape_notMem_itemLines items margin (i + 1) hmargin hnames.2

theorem escape_notMem_fieldLines :
    ∀ (fields : List (Text × Value)) (margin : Text), escape ∉ margin →
      (∀ name ∈ Value.fieldNames fields, escape ∉ name) →
      ∀ line ∈ fieldLines margin fields, escape ∉ line
  | [], _, _, _ => nofun
  | (name, v) :: fields, margin, hmargin, hnames => by
      rw [Value.fieldNames, List.forall_mem_cons, List.forall_mem_append] at hnames
      rw [fieldLines, List.forall_mem_cons, List.forall_mem_append]
      refine ⟨escape_notMem_entry hmargin hnames.1 _, ?_, ?_⟩
      · exact escape_notMem_lines v _ (escape_notMem_inner hmargin _) hnames.2.1
      · exact escape_notMem_fieldLines fields margin hmargin hnames.2.2

end

/-- A line is cut at its first dollar sign, and only the second part is painted. -/
theorem paintVariable_stripsTo
    {line : Text} (h : escape ∉ line) :
    StripsTo (paintVariable (colored indent icons) line)
      (paintVariable (plain indent icons) line) := by
  unfold paintVariable
  split
  · exact StripsTo.of_notMem h
  · next i hi =>
      have hfront : escape ∉ line.take i := fun hmem => h (List.mem_of_mem_take hmem)
      have hvariable : escape ∉ line.drop i := fun hmem => h (List.mem_of_mem_drop hmem)
      exact (StripsTo.of_notMem hfront).append
        (ReportStyle.paint_stripsTo indent icons (StripsTo.sequence rfl) hvariable)

/-- The dollar signs in front of the names at the top are no escape characters. -/
theorem escape_notMem_fieldNames_named
    {fields : List (Text × Value)} (h : ∀ name ∈ Value.fieldNames fields, escape ∉ name) :
    ∀ name ∈ Value.fieldNames (fields.map fun (name, v) => ('$' :: name, v)), escape ∉ name := by
  induction fields with
  | nil => exact h
  | cons field fields ih =>
      obtain ⟨name, v⟩ := field
      rw [Value.fieldNames, List.forall_mem_cons, List.forall_mem_append] at h
      rw [List.map_cons, Value.fieldNames, List.forall_mem_cons, List.forall_mem_append]
      refine ⟨?_, h.2.1, ih h.2.2⟩
      rw [List.mem_cons, not_or]
      exact ⟨by decide, h.1⟩

theorem scope_alike
    (icon title color : Text) {tree : Value} (hicon : escape ∉ icon) (htitle : escape ∉ title)
    (hcolor : StripsTo color []) (hnames : ∀ name ∈ tree.innerNames, escape ∉ name) :
    Alike (List.Forall₂ StripsTo) (scope (colored indent icons) icon title color tree)
      (scope (plain indent icons) icon title color tree) := by
  have hheading := (ReportStyle.icon_stripsTo indent icons hicon).append
    (ReportStyle.paint_stripsTo indent icons hcolor htitle)
  unfold scope
  dsimp only
  split
  · cases tree with
    | obj fields =>
        refine Alike.ok (.cons hheading ?_)
        rw [List.forall₂_map_left_iff, List.forall₂_map_right_iff, List.forall₂_same]
        refine fun line hline => paintVariable_stripsTo indent icons ?_
        exact escape_notMem_fieldLines _ [] List.not_mem_nil
          (escape_notMem_fieldNames_named hnames) line hline
    | _ => exact Alike.error _
  · refine Alike.ok (.cons hheading (.cons (.append (.append ?_ ?_) ?_) .nil))
    · exact ReportStyle.margin_stripsTo indent icons
    · exact ReportStyle.icon_stripsTo indent icons (by decide)
    · exact ReportStyle.paint_stripsTo indent icons (StripsTo.sequence rfl) (by decide)

/-- The line in front of a drawing: the name of the state, unless there is none. -/
def heading (style : ReportStyle) (state : Option Text) : List Text :=
  match state with
  | none | some [] => []
  | some t => [style.icon "📍" ++ style.paint Terminal.boldCyan t]

theorem heading_stripsTo
    {state : Option Text} (h : ∀ t ∈ state, escape ∉ t) :
    List.Forall₂ StripsTo (heading (colored indent icons) state)
      (heading (plain indent icons) state) := by
  unfold heading
  split
  · exact .nil
  · exact .nil
  · next t _ =>
      refine .cons (.append ?_ ?_) .nil
      · exact ReportStyle.icon_stripsTo indent icons (by decide)
      · exact ReportStyle.paint_stripsTo indent icons (StripsTo.sequence rfl) (h t rfl)

/-- No escape character comes into a drawing with what it shows. -/
structure Unescaped (state : Option Text) (bound : VariableScope) : Prop where
  state : ∀ t ∈ state, escape ∉ t
  own : ∀ name ∈ bound.own.innerNames, escape ∉ name
  outer : ∀ name ∈ bound.outer.innerNames, escape ∉ name

/-- Without colours, a drawing is what is left of the coloured one. -/
theorem map_stripEscapes_text
    {state : Option Text} {bound : VariableScope} (h : Unescaped state bound) :
    (text (colored indent icons) state bound).map stripEscapes =
      text (plain indent icons) state bound := by
  have hheading := heading_stripsTo indent icons h.state
  have hownLines := scope_alike indent icons "📦" "Local scope" Terminal.brightGreen
    (by decide) (by decide) (StripsTo.sequence rfl) h.own
  have houterLines := scope_alike indent icons "🌐" "Outer scope" Terminal.brightCyan
    (by decide) (by decide) (StripsTo.sequence rfl) h.outer
  have hnewline : escape ∉ Text.ofString "\n" := by decide
  refine Alike.map_eq (hownLines.bind fun own own' hown => ?_)
  refine houterLines.bind fun outer outer' houter => Alike.ok ?_
  exact (StripsTo.joinWith hnewline
    (List.rel_append (List.rel_append hheading hown) houter)).stripEscapes_eq

end Drawing

/-- Removing the escape sequences of a coloured report gives exactly the report without colours:
for every listing and for every drawing into which no escape character comes with what it shows.
Listings of diagnostics whose messages are texts and drawings of objects do exist, and where there
is no report in colours there is none without, for the same reason. -/
theorem stripEscapes_reports :
    (∀ title ds, Listing.Unescaped title ds →
      (Listing.text (colored indent icons) title ds).map stripEscapes =
          Listing.text (plain indent icons) title ds ∧
        ((∀ d ∈ ds, ∃ message, d.message = .str message) →
          ∃ report, Listing.text (colored indent icons) title ds = .ok report)) ∧
    ∀ state bound, Drawing.Unescaped state bound →
      (Drawing.text (colored indent icons) state bound).map stripEscapes =
          Drawing.text (plain indent icons) state bound ∧
        (bound.own.isObject = true → bound.outer.isObject = true →
          ∃ report, Drawing.text (colored indent icons) state bound = .ok report) := by
  refine ⟨fun title ds h => ⟨Listing.map_stripEscapes_text indent icons h, ?_⟩,
    fun state bound h => ⟨Drawing.map_stripEscapes_text indent icons h, ?_⟩⟩
  · exact Listing.exists_text _ title
  · exact Drawing.text_of_isObject _ state

end Reports

/-- Two diagnostics: a message that looks like the rest of an escape sequence, and one of foreign
origin. -/
def bracketed : List Diagnostic :=
  [⟨⟨⟨3, 1⟩, ⟨3, 4⟩⟩, .str "[0m is text", some .invalidNext, 1, "asl"⟩,
    ⟨⟨⟨0, 0⟩, ⟨0, 2⟩⟩, .str "spare", none, 2, "lint"⟩]

/-- A variable with a name inside that has dollar signs of its own, and an empty outer scope. -/
def dollared : VariableScope :=
  ⟨.obj [("x", .arr [.obj [("$y$", .null)]])], .obj []⟩

theorem stripEscapes_reports_bracketed :
    (∃ report, Listing.text ⟨2, true, true⟩ (some "a.json") bracketed = .ok report ∧
      Listing.text ⟨2, false, true⟩ (some "a.json") bracketed = .ok (stripEscapes report)) ∧
    ∃ report, Drawing.text ⟨2, true, true⟩ (some "A") dollared = .ok report ∧
      Drawing.text ⟨2, false, true⟩ (some "A") dollared = .ok (stripEscapes report) := by
  have htitle : ∀ name : String, escape ∉ Text.ofString name →
      ∀ t ∈ some (Text.ofString name), escape ∉ t := by
    intro name hname t ht
    cases ht
    exact hname
  have hlisting : Listing.Unescaped (some "a.json") bracketed := by
    refine ⟨htitle "a.json" (by decide), fun d hd t ht => ?_, by decide⟩
    rw [bracketed, List.mem_cons, List.mem_singleton] at hd
    rcases hd with rfl | rfl <;> cases ht <;> decide
  have hdrawing : Drawing.Unescaped (some "A") dollared :=
    ⟨htitle "A" (by decide), by decide, by decide⟩
  obtain ⟨hlistings, hdrawings⟩ := stripEscapes_reports 2 true
  obtain ⟨hplain, hlisted⟩ := hlistings (some "a.json") bracketed hlisting
  obtain ⟨hplain', hdrawn⟩ := hdrawings (some "A") dollared hdrawing
  constructor
  · obtain ⟨report, hreport⟩ := hlisted (by simp [bracketed])
    exact ⟨report, hreport, by rw [← hplain, hreport]; rfl⟩
  · obtain ⟨report, hreport⟩ := hdrawn rfl rfl
    exact ⟨report, hreport, by rw [← hplain', hreport]; rfl⟩

/-- What a drawing in colours looks like. -/
example :
    Drawing.text ⟨2, true, false⟩ none ⟨.obj [("x", .null)], .obj []⟩ =
      .ok (Text.ofString ("\x1b[92mLocal scope\x1b[0m\n└── \x1b[33m$x\x1b[0m\n" ++
        "\x1b[96mOuter scope\x1b[0m\n  \x1b[2m(no variables)\x1b[0m")) := by
  rfl

end Workflow
