import Workflow.Proofs.StrippedReports
import Workflow.Proofs.TypedNumbers
import Workflow.Proofs.VisitOrder
import Workflow.Session

/-!
# What an output refuses

Surrogates have no bytes, so an output that writes bytes refuses the texts with a surrogate in them.
Most of what a session prints has none: its own sentences, numbers, file names between quotes, and
places with digits only.  The lines about a document have just those of the ids, names and types
that they show.  A drawing, for one, has a surrogate exactly if the name of the state has one or the
name of a field below the variables.
-/

namespace Workflow

/-! ## Texts without surrogates -/

theorem Text.not_isSurrogate_hexDigit
    {n : Nat} (h : n < 16) :
    (hexDigit n).isSurrogate = false := by
  have hdigits : ∀ n < 16, (hexDigit n).isSurrogate = false := by decide
  exact hdigits n h

theorem Text.hasSurrogate_ofHex
    (width n : Nat) :
    (ofHex width n).hasSurrogate = false := by
  induction width generalizing n with
  | zero => rfl
  | succ width ih =>
      rw [ofHex, hasSurrogate_append, ih, hasSurrogate_cons,
        not_isSurrogate_hexDigit (Nat.mod_lt n (by decide))]
      rfl

namespace CodePoint

/-- All surrogates are in one of the ranges without a visible form. -/
theorem not_isSurrogate_of_isVisible
    {c : CodePoint} (h : c.isVisible = true) :
    c.isSurrogate = false := by
  rw [Bool.eq_false_iff]
  intro hsurrogate
  have hin : (0xD7FC, 0xF8FF) ∈ invisibleRanges := by decide +kernel
  simp only [isSurrogate, within, Bool.and_eq_true, decide_eq_true_eq] at hsurrogate
  rw [isVisible, if_neg (by omega), Bool.not_eq_true', List.any_eq_false] at h
  refine h _ hin ?_
  simp only [within, Bool.and_eq_true, decide_eq_true_eq]
  omega

/-- The escapes between quotes are written in ASCII. -/
theorem hasSurrogate_quoted
    {quote : CodePoint} (hquote : quote.isSurrogate = false) (c : CodePoint) :
    (quoted quote c).hasSurrogate = false := by
  unfold quoted
  split
  · next h =>
      have hc : c.isSurrogate = false := by
        rcases h with rfl | rfl
        · exact hquote
        · exact isSurrogate_ofChar _
      simp [hc, isSurrogate_ofChar]
  · split_ifs with _ _ _ hvisible
    · rfl
    · rfl
    · rfl
    · simp [not_isSurrogate_of_isVisible hvisible]
    all_goals simp [Text.hasSurrogate_ofHex]

theorem not_isSurrogate_of_isDecimal
    {c : CodePoint} (h : c.isDecimal = true) :
    c.isSurrogate = false := by
  obtain ⟨n, hn⟩ := Option.isSome_iff_exists.mp h
  obtain ⟨z, hfind, -⟩ := Option.map_eq_some_iff.mp hn
  have hin := List.find?_some hfind
  -- the surrogates lie between two blocks of digits
  have hgaps : ∀ z ∈ decimalZeros, z + 9 < 0xD800 ∨ 0xDFFF < z := by decide
  have hgap := hgaps z (List.mem_of_find?_eq_some hfind)
  simp only [within, Bool.and_eq_true, decide_eq_true_eq] at hin
  simp only [isSurrogate, within, Bool.and_eq_false_iff, decide_eq_false_iff_not]
  omega

theorem not_isSurrogate_of_isDigit
    {c : CodePoint} (h : c.isDigit = true) :
    c.isSurrogate = false := by
  rcases (Bool.or_eq_true _ _).mp h with hdecimal | hornamental
  · exact not_isSurrogate_of_isDecimal hdecimal
  · simp only [isOrnamentalDigit, List.any_cons, List.any_nil, Bool.or_false, within,
      Bool.or_eq_true, Bool.and_eq_true, decide_eq_true_eq] at hornamental
    simp only [isSurrogate, within, Bool.and_eq_false_iff, decide_eq_false_iff_not]
    omega

end CodePoint

namespace Text

/-- Quotes show surrogates as escapes. -/
theorem hasSurrogate_quoted
    (t : Text) :
    t.quoted.hasSurrogate = false := by
  have hquote : t.quoteFor.isSurrogate = false := by
    unfold quoteFor
    split <;> exact CodePoint.isSurrogate_ofChar _
  have hpoints : hasSurrogate (t.flatMap (CodePoint.quoted t.quoteFor)) = false := by
    rw [hasSurrogate, List.any_flatMap, List.any_eq_false]
    exact fun c _ => Bool.eq_false_iff.mp (CodePoint.hasSurrogate_quoted hquote c)
  simp [quoted, hquote, hpoints]

theorem hasSurrogate_of_isDigits
    {t : Text} (h : t.isDigits = true) :
    t.hasSurrogate = false := by
  rw [isDigits, Bool.and_eq_true, List.all_eq_true] at h
  exact List.any_eq_false.mpr fun c hc =>
    Bool.eq_false_iff.mp (CodePoint.not_isSurrogate_of_isDigit (h.2 c hc))

end Text

namespace Position

/-- Where there is a column, the line stands in front of the colon and the column behind it. -/
theorem typedLine_append_typedColumn
    {t : Text} (h : typedColumn t ≠ []) :
    typedLine t ++ (':' : CodePoint) :: typedColumn t = t := by
  have hcut : typedLine t ++ t.dropWhile (fun (c : CodePoint) => c != ':') = t :=
    List.takeWhile_append_dropWhile
  have hcolumn : typedColumn t = (t.dropWhile fun (c : CodePoint) => c != ':').drop 1 := by
    rw [typedColumn, ← List.drop_drop]
    exact congrArg (List.drop 1)
      ((congrArg (List.drop (typedLine t).length) hcut.symm).trans List.drop_left)
  cases hrest : t.dropWhile fun (c : CodePoint) => c != ':' with
  | nil =>
      rw [hcolumn, hrest] at h
      exact absurd rfl h
  | cons c rest =>
      have hc : c = ':' := by
        have hhead := List.head?_dropWhile_not (fun (c : CodePoint) => c != ':') t
        rw [hrest] at hhead
        simpa using hhead
      rw [hrest, hc] at hcut
      rw [hcolumn, hrest]
      exact hcut

/-- A place that is read as a position consists of digits and a colon. -/
theorem hasSurrogate_of_ofWritten
    {t : Text} {p : Position} (h : ofWritten t = .ok (some p)) :
    t.hasSurrogate = false := by
  have hdigits : ((typedLine t).isDigits && (typedColumn t).isDigits) = true := by
    by_contra hnot
    have hnone : ofWritten t = .ok none := if_neg hnot
    rw [hnone] at h
    cases h
  rw [Bool.and_eq_true] at hdigits
  have hcolumn : typedColumn t ≠ [] := by
    intro hnil
    rw [hnil] at hdigits
    exact Bool.false_ne_true hdigits.2
  rw [← typedLine_append_typedColumn hcolumn, Text.hasSurrogate_append, Text.hasSurrogate_cons,
    Text.hasSurrogate_of_isDigits hdigits.1, Text.hasSurrogate_of_isDigits hdigits.2]
  rfl

end Position

namespace Terminal

@[simp] theorem hasSurrogate_line
    (t : Text) :
    (line t).hasSurrogate = t.hasSurrogate := by
  simp [line]

theorem hasSurrogate_paint
    {color : Text} (hcolor : color.hasSurrogate = false) (t : Text) :
    (paint color t).hasSurrogate = t.hasSurrogate :=
  hasSurrogate_paintIf true hcolor t

theorem hasSurrogate_paintLine
    {color : Text} (hcolor : color.hasSurrogate = false) (t : Text) :
    (paintLine color t).hasSurrogate = t.hasSurrogate := by
  rw [paintLine, hasSurrogate_line, hasSurrogate_paint hcolor]

theorem Voice.hasSurrogate_say
    (voice : Voice) {color t : Text} (hcolor : color.hasSurrogate = false)
    (ht : t.hasSurrogate = false) :
    (voice.say color t).hasSurrogate = false := by
  rw [say]
  split
  · rw [hasSurrogate_line, hasSurrogate_paintIf voice.colors hcolor, ht]
  · rfl

end Terminal

/-! ## Messages of the loader -/

/-- The sentence about a file that cannot be opened has its name between quotes. -/
theorem FileProblem.hasSurrogate_message
    (problem : FileProblem) (name : Text) :
    (problem.message name).hasSurrogate = false := by
  cases problem <;> simp [message, Text.hasSurrogate_quoted]

theorem Language.hasSurrogate_title
    (language : Language) :
    language.title.hasSurrogate = false := by
  cases language <;> rfl

/-- What the loader prints and what it answers has bytes. -/
structure Loaded.Printable (r : Loaded) : Prop where
  printed : r.printed.hasSurrogate = false
  errors : ∀ message ∈ r.errors, message.hasSurrogate = false

section Loading

variable (voice : Terminal.Voice)

theorem printable_failed
    {message : Text} (h : message.hasSurrogate = false) :
    (Loaded.failed voice message).Printable where
  printed := voice.hasSurrogate_say rfl (by simp [h])
  errors := List.forall_mem_singleton.mpr h

theorem printable_loadText
    {language : Language} {version : Int} {t : Text} {r : Loaded}
    (h : loadText voice language version t = .ok r) :
    r.Printable := by
  rw [loadText] at h
  split at h
  · cases h
  · cases h
    exact printable_failed voice (by simp [language.hasSurrogate_title])
  · cases h
    refine ⟨voice.hasSurrogate_say rfl (by simp [language.hasSurrogate_title]), fun e he => ?_⟩
    exact absurd he List.not_mem_nil

theorem printable_loadFile
    {storage : Storage} {name : Text} {r : Loaded} (h : loadFile voice storage name = .ok r) :
    r.Printable := by
  rw [loadFile] at h
  split at h
  · cases h
  · split at h
    · next problem _ =>
        cases h
        exact printable_failed voice (by simp [problem.hasSurrogate_message])
    · cases h
    · exact printable_loadText voice h

end Loading

/-! ## Drawings -/

namespace Drawing

theorem hasSurrogate_inner
    {margin : Text} (h : margin.hasSurrogate = false) (isLast : Bool) :
    (inner margin isLast).hasSurrogate = false := by
  cases isLast <;> simp [inner, continuation, h]

theorem hasSurrogate_entry
    {margin : Text} (h : margin.hasSurrogate = false) (isLast : Bool) (label : Text) :
    (entry margin isLast label).hasSurrogate = label.hasSurrogate := by
  cases isLast <;> simp [entry, connector, h]

theorem hasSurrogate_itemLabel
    (i : Nat) :
    (itemLabel i).hasSurrogate = false := by
  simp [itemLabel]

mutual

/-- The lines of a tree have the surrogates of its names. -/
theorem any_lines :
    ∀ (v : Value) {margin : Text}, margin.hasSurrogate = false →
      (lines margin v).any Text.hasSurrogate = v.innerNames.any Text.hasSurrogate
  | .arr items, _, hmargin => by
      rw [lines, Value.innerNames, any_itemLines items 0 hmargin]
  | .obj fields, _, hmargin => by
      rw [lines, Value.innerNames, any_fieldLines fields hmargin]
  | .null, _, _ => rfl
  | .bool _, _, _ => rfl
  | .int _, _, _ => rfl
  | .float _, _, _ => rfl
  | .str _, _, _ => rfl

theorem any_itemLines :
    ∀ (items : List Value) (i : Nat) {margin : Text}, margin.hasSurrogate = false →
      (itemLines margin i items).any Text.hasSurrogate =
        (Value.itemNames items).any Text.hasSurrogate
  | [], _, _, _ => rfl
  | v :: items, i, _, hmargin => by
      rw [itemLines, Value.itemNames, List.any_cons, List.any_append, List.any_append,
        hasSurrogate_entry hmargin, hasSurrogate_itemLabel, Bool.false_or,
        any_lines v (hasSurrogate_inner hmargin _), any_itemLines items (i + 1) hmargin]

theorem any_fieldLines :
    ∀ (fields : List (Text × Value)) {margin : Text}, margin.hasSurrogate = false →
      (fieldLines margin fields).any Text.hasSurrogate =
        (Value.fieldNames fields).any Text.hasSurrogate
  | [], _, _ => rfl
  | (name, v) :: fields, _, hmargin => by
      rw [fieldLines, Value.fieldNames, List.any_cons, List.any_cons, List.any_append,
        List.any_append, hasSurrogate_entry hmargin, any_lines v (hasSurrogate_inner hmargin _),
        any_fieldLines fields hmargin]

end

/-- The dollar signs in front of the names at the top are no surrogates. -/
theorem any_fieldNames_named
    (fields : List (Text × Value)) :
    (Value.fieldNames (fields.map fun (name, v) => ('$' :: name, v))).any Text.hasSurrogate =
      (Value.fieldNames fields).any Text.hasSurrogate := by
  induction fields with
  | nil => rfl
  | cons field fields ih =>
      have hdollar : CodePoint.isSurrogate '$' = false := CodePoint.isSurrogate_ofChar '$'
      simp only [List.map_cons, Value.fieldNames, List.any_cons, List.any_append, ih,
        Text.hasSurrogate_cons, hdollar, Bool.false_or]

theorem hasSurrogate_paintVariable
    (style : ReportStyle) (line : Text) :
    (paintVariable style line).hasSurrogate = line.hasSurrogate := by
  rw [paintVariable]
  split
  · rfl
  · next i _ =>
      rw [Text.hasSurrogate_append, Listing.hasSurrogate_paint style rfl,
        ← Text.hasSurrogate_append, List.take_append_drop]

/-- What is drawn as empty has no names. -/
theorem innerNames_of_not_truthy
    {tree : Value} (h : ¬ tree.truthy = true) :
    tree.innerNames = [] := by
  cases tree with
  | arr items =>
      cases items with
      | nil => rfl
      | cons v items => exact absurd rfl h
  | obj fields =>
      cases fields with
      | nil => rfl
      | cons field fields => exact absurd rfl h
  | _ => rfl

theorem any_scope
    (style : ReportStyle) {icon title color : Text} {tree : Value} {lines : List Text}
    (hicon : icon.hasSurrogate = false) (htitle : title.hasSurrogate = false)
    (hcolor : color.hasSurrogate = false) (h : scope style icon title color tree = .ok lines) :
    lines.any Text.hasSurrogate = tree.innerNames.any Text.hasSurrogate := by
  have hheading : (style.icon icon ++ style.paint color title).hasSurrogate = false := by
    rw [Text.hasSurrogate_append, Listing.hasSurrogate_icon style hicon,
      Listing.hasSurrogate_paint style hcolor, htitle]
    rfl
  rw [scope] at h
  split at h
  · cases tree with
    | obj fields =>
        cases h
        have hpainted : Text.hasSurrogate ∘ paintVariable style = Text.hasSurrogate :=
          funext (hasSurrogate_paintVariable style)
        rw [List.any_cons, hheading, Bool.false_or, List.any_map, hpainted,
          any_fieldLines _ rfl, any_fieldNames_named]
        rfl
    | _ => cases h
  · next hempty =>
      cases h
      have hdim : Terminal.dim.hasSurrogate = false := rfl
      rw [innerNames_of_not_truthy hempty]
      simp [hheading, ReportStyle.margin, Listing.hasSurrogate_icon,
        Listing.hasSurrogate_paint style hdim]

theorem any_heading
    (style : ReportStyle) (state : Option Text) :
    (heading style state).any Text.hasSurrogate = state.any Text.hasSurrogate := by
  have hcyan : Terminal.boldCyan.hasSurrogate = false := rfl
  unfold heading
  split
  · rfl
  · rfl
  · simp [Listing.hasSurrogate_icon, Listing.hasSurrogate_paint style hcyan]

/-- A drawing has a surrogate exactly if the name of the state has one or the name of a field. -/
theorem hasSurrogate_of_text
    {style : ReportStyle} {state : Option Text} {bound : VariableScope} {drawing : Text}
    (h : text style state bound = .ok drawing) :
    drawing.hasSurrogate = (state.any Text.hasSurrogate ||
      (bound.own.innerNames ++ bound.outer.innerNames).any Text.hasSurrogate) := by
  have htext : text style state bound =
      scope style "📦" "Local scope" Terminal.brightGreen bound.own >>= fun own =>
        scope style "🌐" "Outer scope" Terminal.brightCyan bound.outer >>= fun outer =>
          .ok (Text.joinWith "\n" (heading style state ++ own ++ outer)) := rfl
  rw [htext] at h
  obtain ⟨own, hown, h⟩ := exists_of_bind_eq_ok h
  obtain ⟨outer, houter, h⟩ := exists_of_bind_eq_ok h
  cases h
  rw [Text.hasSurrogate_joinWith rfl, List.any_append, List.any_append, List.any_append,
    any_heading, any_scope style rfl rfl rfl hown, any_scope style rfl rfl rfl houter,
    Bool.or_assoc]

end Drawing

/-! ## Lines about a document -/

/-- A written path shows all its segments. -/
theorem Path.hasSurrogate_written
    (p : Path) :
    p.written.hasSurrogate = p.any fun s => s.written.hasSurrogate := by
  rw [written, Text.hasSurrogate_joinWith rfl, List.any_map]
  rfl

/-- The workflow of a document has no repeated names. -/
theorem Document.workflow_proper
    (d : Document) :
    d.workflow.Proper := by
  have hempty : (Value.obj []).Proper :=
    (Value.proper_obj_iff []).mpr ⟨List.nodup_nil, fun _ h => absurd h List.not_mem_nil⟩
  unfold workflow
  split
  · split
    · exact Tree.toValue_proper _
    · exact hempty
  · exact hempty

/-- The id of a state is the last name on its path. -/
theorem hasSurrogate_id_of_mem_allStates
    {root : Value} (hroot : root.Proper) {v : Visit} (hv : v ∈ allStates root)
    (h : v.path.written.hasSurrogate = false) :
    v.id.hasSurrogate = false := by
  obtain ⟨b, hb⟩ := (mem_allStates_iff hroot).mp hv
  rw [Path.hasSurrogate_written, hb.path, List.any_append, Bool.or_eq_false_iff] at h
  exact (Bool.or_false _).symm.trans h.2

namespace Session

/-- The type of a state that the list of states shows. -/
def shownType (v : Visit) : Value :=
  if v.state.isObject then (v.state.get? "Type").getD (.str "?") else .str "?"

/-- The line of a state shows its type and its path, the last name of which is its id. -/
theorem hasSurrogate_of_stateLine
    {root : Value} (hroot : root.Proper) {v : Visit} (hv : v ∈ allStates root) {shown : Text}
    (h : stateLine v = .ok shown) :
    shown.hasSurrogate =
      ((shownType v).display.hasSurrogate || v.path.written.hasSurrogate) := by
  have hgray : Terminal.gray.hasSurrogate = false := rfl
  have hid := hasSurrogate_id_of_mem_allStates hroot hv
  obtain ⟨_, -, h⟩ := exists_of_bind_eq_ok h
  cases h
  have htype : (if v.state.isObject then (v.state.get? "Type").getD (.str "?") else .str "?") =
      shownType v := rfl
  rw [htype]
  simp only [Text.hasSurrogate_append, Text.hasSurrogate_copies, Text.hasSurrogate_ofString,
    Terminal.hasSurrogate_paintLine hgray, Bool.or_false, Bool.false_or]
  cases hpath : v.path.written.hasSurrogate with
  | true => simp
  | false => simp [hid hpath]

/-- The list of states shows their types and their paths. -/
theorem any_stateLines_iff
    {root : Value} (hroot : root.Proper) {lines : List Text}
    (h : (allStates root).mapM stateLine = .ok lines) :
    lines.any Text.hasSurrogate = true ↔ ∃ v ∈ allStates root,
      (shownType v).display.hasSurrogate = true ∨ v.path.written.hasSurrogate = true := by
  have hlines := forall₂_of_mapM h
  rw [List.any_eq_true]
  constructor
  · rintro ⟨shown, hshown, hsurrogate⟩
    obtain ⟨v, hv, hline⟩ := exists_of_forall₂ hlines.flip hshown
    rw [hasSurrogate_of_stateLine hroot hv hline, Bool.or_eq_true] at hsurrogate
    exact ⟨v, hv, hsurrogate⟩
  · rintro ⟨v, hv, hsurrogate⟩
    obtain ⟨shown, hshown, hline⟩ := exists_of_forall₂ hlines hv
    rw [← Bool.or_eq_true, ← hasSurrogate_of_stateLine hroot hv hline] at hsurrogate
    exact ⟨shown, hshown, hsurrogate⟩

/-- The line of candidates under a title, if there are any. -/
theorem any_titled
    (title : Text) (candidates : List Text) :
    (if candidates.isEmpty then []
      else [Terminal.line (Terminal.paint Terminal.cyan (title ++ ":") ++ " " ++
        Text.joinWith ", " candidates)]).any Text.hasSurrogate =
      (!candidates.isEmpty && title.hasSurrogate || candidates.any Text.hasSurrogate) := by
  have hcyan : Terminal.cyan.hasSurrogate = false := rfl
  cases candidates with
  | nil => rfl
  | cons first rest =>
      rw [if_neg (by simp), List.any_cons, List.any_nil, Bool.or_false, Terminal.hasSurrogate_line,
        Text.hasSurrogate_append, Text.hasSurrogate_append, Terminal.hasSurrogate_paint hcyan,
        Text.hasSurrogate_joinWith rfl]
      simp

/-- The candidates at a place are listed, with the path of the object whose names they are. -/
theorem any_candidateLines_iff
    {place : Text} (hplace : place.hasSurrogate = false) (names : List Text)
    (found : Option Completion.Candidates) :
    (candidateLines place names found).any Text.hasSurrogate = true ↔
      (∃ name ∈ names, name.hasSurrogate = true) ∨ ∃ c ∈ found, c.items ≠ [] ∧
        (c.parentPath.hasSurrogate = true ∨ ∃ item ∈ c.items, item.hasSurrogate = true) := by
  have hyellow : Terminal.yellow.hasSurrogate = false := rfl
  unfold candidateLines
  dsimp only
  split
  · next hnone =>
      rw [Bool.and_eq_true, List.isEmpty_iff, List.isEmpty_iff] at hnone
      rw [List.any_cons, List.any_nil, Bool.or_false, Terminal.hasSurrogate_paintLine hyellow]
      cases found <;> simp_all
  · rw [List.any_append, any_titled, any_titled]
    cases found with
    | none => simp
    | some c =>
        have hinside : Text.hasSurrogate (if c.parentPath = [] then []
            else Text.ofString " (in " ++ (c.parentPath ++ Text.ofString ")")) =
            c.parentPath.hasSurrogate := by
          cases c.parentPath <;> simp
        have hitems : (∃ item ∈ c.items, item.hasSurrogate = true) → ¬ c.items = [] := by
          rintro ⟨item, hitem, -⟩
          exact List.ne_nil_of_mem hitem
        simp only [Option.map_some, Option.getD_some, Text.hasSurrogate_ofString, Bool.and_false,
          Bool.false_or, List.isEmpty_iff, List.append_assoc, Text.hasSurrogate_append, hinside,
          Bool.or_eq_true, List.any_eq_true, Bool.and_eq_true, Bool.not_eq_true',
          List.isEmpty_eq_false_iff, ne_eq, Option.mem_def, Option.some.injEq, exists_eq_left']
        rw [and_or_left, and_iff_right_of_imp hitems]

theorem any_helpLines :
    helpLines.any Text.hasSurrogate = false := by
  have hcyan : Terminal.cyan.hasSurrogate = false := rfl
  simp [helpLines, Terminal.hasSurrogate_paintLine hcyan]

end Session

/-! ## Outputs -/

namespace Output

/-- An output does not take a text. -/
def Rejects (output : Output) (t : Text) : Prop := output = .bytes ∧ t.hasSurrogate = true

variable {output : Output}

theorem not_rejects_of_hasSurrogate
    {t : Text} (h : t.hasSurrogate = false) :
    ¬ output.Rejects t := by
  rintro ⟨-, hsurrogate⟩
  exact Bool.false_ne_true (h.symm.trans hsurrogate)

/-- Among some texts there is one that an output does not take. -/
theorem exists_rejects_iff
    {texts : List Text} :
    (∃ t ∈ texts, output.Rejects t) ↔ output = .bytes ∧ texts.any Text.hasSurrogate = true := by
  rw [List.any_eq_true]
  constructor
  · rintro ⟨t, ht, hbytes, hsurrogate⟩
    exact ⟨hbytes, t, ht, hsurrogate⟩
  · rintro ⟨hbytes, t, ht, hsurrogate⟩
    exact ⟨t, ht, hbytes, hsurrogate⟩

theorem isSome_refusal?_iff
    {t : Text} :
    (output.refusal? t).isSome = true ↔ output.Rejects t := by
  cases output with
  | memory => simp [refusal?, Rejects]
  | bytes => simp [refusal?, Rejects, Text.isSome_surrogateFault?]

/-- Texts that an output takes are printed one after the other. -/
theorem print_of_accepted
    {texts : List Text} (h : ∀ t ∈ texts, ¬ output.Rejects t) :
    output.print texts = .said texts.flatten := by
  induction texts with
  | nil => rfl
  | cons t texts ih =>
      rw [List.forall_mem_cons, ← isSome_refusal?_iff] at h
      rw [print, ih h.2, Option.not_isSome_iff_eq_none.mp h.1]
      rfl

/-- Every output takes a text without surrogates. -/
theorem print_of_hasSurrogate
    {t : Text} (h : t.hasSurrogate = false) :
    output.print [t] = .said t := by
  have haccepted : ∀ u ∈ [t], ¬ output.Rejects u :=
    List.forall_mem_singleton.mpr (not_rejects_of_hasSurrogate h)
  exact (print_of_accepted haccepted).trans (congrArg Reply.said (List.append_nil t))

/-- A text that an output does not take is a fault. -/
theorem faults_print_of_rejects
    {texts : List Text} (h : ∃ t ∈ texts, output.Rejects t) :
    Faults (output.print texts).goesOn := by
  obtain ⟨t, ht, h⟩ := h
  induction texts with
  | nil => cases ht
  | cons first texts ih =>
      rw [print]
      cases hfirst : output.refusal? first with
      | some fault => exact faults_error fault
      | none =>
          rcases List.mem_cons.mp ht with rfl | ht
          · rw [← isSome_refusal?_iff, hfirst] at h
            cases h
          · exact ih ht

/-- A reply behind texts, which is not given when one of them is refused. -/
def printFirst (output : Output) (texts : List Text) (reply : Reply) : Reply :=
  match (output.print texts).goesOn with
  | .ok _ => reply.behind (output.print texts).printed
  | .error _ => output.print texts

theorem printFirst_of_accepted
    {texts : List Text} (h : ∀ t ∈ texts, ¬ output.Rejects t) (reply : Reply) :
    output.printFirst texts reply = reply.behind texts.flatten := by
  rw [printFirst, print_of_accepted h]
  rfl

theorem faults_printFirst_of_rejects
    {texts : List Text} (h : ∃ t ∈ texts, output.Rejects t) (reply : Reply) :
    Faults (output.printFirst texts reply).goesOn := by
  have hprint := faults_print_of_rejects h
  rw [printFirst]
  split
  · next hgoesOn =>
      rw [hgoesOn] at hprint
      exact absurd hprint (not_faults_ok _)
  · exact hprint

end Output

end Workflow
