import Mathlib.Data.List.Infix
import Workflow.Proofs.CheckedScopes
import Workflow.Proofs.OrderIndependence
import Workflow.Report.Drawing
import Workflow.Report.Listing

/-!
# The texts of reports

A report is put together from texts that are known beforehand, from numbers, and from what comes
out of a document.  A listing shows the messages of the catalog and a title; a drawing shows key
trees.  So every listing of what the check finds and every drawing of what is in scope can be made,
and a listing can be saved as bytes unless surrogates stand in its title: removing the escape
sequences removes none.
-/

namespace Workflow

/-! ## Surrogates -/

namespace CodePoint

theorem isSurrogate_ofChar
    (c : Char) :
    (ofChar c).isSurrogate = false := by
  have hvalid := c.valid
  unfold UInt32.isValidChar Nat.isValidChar at hvalid
  have hval : (ofChar c).val = c.val.toNat := rfl
  rw [Bool.eq_false_iff]
  intro h
  simp only [isSurrogate, within, Bool.and_eq_true, decide_eq_true_eq, hval] at h
  omega

theorem not_isSurrogate_of_within
    {c : CodePoint} {lo hi : Nat} (h : c.within lo hi = true) (hhi : hi < 0xD800) :
    c.isSurrogate = false := by
  rw [Bool.eq_false_iff]
  intro hsurrogate
  simp only [isSurrogate, within, Bool.and_eq_true, decide_eq_true_eq] at h hsurrogate
  omega

end CodePoint

namespace Text

section Surrogates

variable (t u : Text)

@[simp] theorem hasSurrogate_nil :
    hasSurrogate [] = false := by
  rfl

@[simp] theorem hasSurrogate_cons
    (c : CodePoint) :
    hasSurrogate (c :: t) = (c.isSurrogate || t.hasSurrogate) := by
  rfl

@[simp] theorem hasSurrogate_append :
    hasSurrogate (t ++ u) = (t.hasSurrogate || u.hasSurrogate) := by
  exact List.any_append

@[simp] theorem hasSurrogate_map_ofChar
    (l : List Char) :
    hasSurrogate (l.map CodePoint.ofChar) = false := by
  simp [hasSurrogate, CodePoint.isSurrogate_ofChar]

@[simp] theorem hasSurrogate_ofString
    (s : String) :
    (ofString s).hasSurrogate = false := by
  exact hasSurrogate_map_ofChar s.toList

@[simp] theorem hasSurrogate_ofNat
    (n : Nat) :
    (ofNat n).hasSurrogate = false := by
  exact hasSurrogate_map_ofChar _

@[simp] theorem hasSurrogate_ofInt
    (n : Int) :
    (ofInt n).hasSurrogate = false := by
  cases n with
  | ofNat n => exact hasSurrogate_ofNat n
  | negSucc n =>
      rw [ofInt, hasSurrogate_cons, hasSurrogate_ofNat, CodePoint.isSurrogate_ofChar]
      rfl

@[simp] theorem hasSurrogate_copies
    (n : Nat) (c : Char) :
    (copies n c).hasSurrogate = false := by
  simp [copies, hasSurrogate, CodePoint.isSurrogate_ofChar]

theorem hasSurrogate_joinWith
    {sep : Text} (hsep : sep.hasSurrogate = false) (pieces : List Text) :
    (joinWith sep pieces).hasSurrogate = pieces.any hasSurrogate := by
  induction pieces using joinWith.induct with
  | case1 => rfl
  | case2 piece => simp [joinWith]
  | case3 piece pieces hpieces ih =>
      rw [joinWith, hasSurrogate_append, hasSurrogate_append, ih, hsep, Bool.or_false,
        List.any_cons]
      exact hpieces

/-- A piece stands in the text that it is joined into. -/
theorem infix_joinWith
    (sep : Text) {piece : Text} {pieces : List Text} (h : piece ∈ pieces) :
    piece <:+: joinWith sep pieces := by
  induction pieces using joinWith.induct with
  | case1 => cases h
  | case2 only =>
      rw [List.mem_singleton] at h
      rw [joinWith, h]
  | case3 first pieces hpieces ih =>
      rw [joinWith]
      · rcases List.mem_cons.mp h with rfl | h
        · exact (List.prefix_append _ _).isInfix.trans (List.prefix_append _ _).isInfix
        · exact (ih h).trans (List.suffix_append _ _).isInfix
      · exact hpieces

theorem hasSurrogate_dropWhile
    {p : CodePoint → Bool} (hp : ∀ c, p c = true → c.isSurrogate = false) :
    hasSurrogate (t.dropWhile p) = t.hasSurrogate := by
  induction t with
  | nil => rfl
  | cons c t ih =>
      rw [List.dropWhile_cons]
      split
      · next hc => rw [ih, hasSurrogate_cons, hp c hc, Bool.false_or]
      · rfl

/-- A text has bytes exactly if there is no surrogate in it. -/
theorem isSome_surrogateFault? :
    t.surrogateFault?.isSome = t.hasSurrogate := by
  unfold surrogateFault? firstStretch?
  cases hrest : t.dropWhile fun c => !c.isSurrogate with
  | nil =>
      have hnone := List.dropWhile_eq_nil_iff.mp hrest
      exact (List.any_eq_false.mpr fun c hc => by simpa using hnone c hc).symm
  | cons c rest =>
      have hc : c.isSurrogate = true := by
        have hhead := List.head?_dropWhile_not (fun c : CodePoint => !c.isSurrogate) t
        rw [hrest] at hhead
        simpa using hhead
      have hmem : c ∈ t := (List.dropWhile_suffix _).subset (hrest ▸ List.mem_cons_self)
      exact (List.any_eq_true.mpr ⟨c, hmem, hc⟩).symm

end Surrogates

end Text

namespace Terminal

theorem hasSurrogate_of_dropControl?
    {t rest : Text} (h : dropControl? t = some rest) :
    rest.hasSurrogate = t.hasSurrogate := by
  have hnumbers := Text.hasSurrogate_dropWhile t (p := fun c => c.within 0x30 0x3F)
    fun c hc => CodePoint.not_isSurrogate_of_within hc (by decide)
  have hmarks := Text.hasSurrogate_dropWhile (t.dropWhile fun c => c.within 0x30 0x3F)
    (p := fun c => c.within 0x20 0x2F)
    fun c hc => CodePoint.not_isSurrogate_of_within hc (by decide)
  rw [dropControl?] at h
  split at h
  · next c behind heq =>
      split at h
      · next hc =>
          cases h
          rw [← hnumbers, ← hmarks, heq, Text.hasSurrogate_cons,
            CodePoint.not_isSurrogate_of_within hc (by decide), Bool.false_or]
      · cases h
  · cases h

theorem hasSurrogate_of_dropSequence?
    {t rest : Text} (h : dropSequence? t = some rest) :
    rest.hasSurrogate = t.hasSurrogate := by
  cases t with
  | nil => cases h
  | cons c t =>
      rw [dropSequence?] at h
      split at h
      · next hc =>
          rw [hasSurrogate_of_dropControl? h, Text.hasSurrogate_cons, hc,
            CodePoint.isSurrogate_ofChar, Bool.false_or]
      · split at h
        · next hc =>
            cases h
            rw [Text.hasSurrogate_cons, CodePoint.not_isSurrogate_of_within hc (by decide),
              Bool.false_or]
        · cases h

/-- No surrogate is part of an escape sequence. -/
theorem hasSurrogate_stripFrom
    (fuel : Nat) (t : Text) :
    (stripFrom fuel t).hasSurrogate = t.hasSurrogate := by
  induction fuel generalizing t with
  | zero => rfl
  | succ fuel ih =>
      cases t with
      | nil => rfl
      | cons c t =>
          rw [stripFrom]
          split
          · next hc =>
              cases hdrop : dropSequence? t with
              | none => exact congrArg (c.isSurrogate || ·) (ih t)
              | some rest =>
                  have hescape : escape.isSurrogate = false := rfl
                  dsimp only
                  rw [ih, hasSurrogate_of_dropSequence? hdrop, Text.hasSurrogate_cons, hc,
                    hescape, Bool.false_or]
          · exact congrArg (c.isSurrogate || ·) (ih t)

theorem hasSurrogate_paintIf
    (colors : Bool) {color : Text} (hcolor : color.hasSurrogate = false) (t : Text) :
    (paintIf colors color t).hasSurrogate = t.hasSurrogate := by
  have hreset : reset.hasSurrogate = false := rfl
  cases colors with
  | false => rfl
  | true =>
      change (color ++ t ++ reset).hasSurrogate = _
      rw [Text.hasSurrogate_append, Text.hasSurrogate_append, hcolor, hreset, Bool.false_or,
        Bool.or_false]

/-- What is painted stands in the line. -/
theorem infix_paintLine
    (color t : Text) :
    t <:+: paintLine color t := by
  refine ⟨color, reset ++ "\n", ?_⟩
  simp [paintLine, line, paint]

end Terminal

/-! ## Listings -/

/-- A diagnostic whose message is a text of the catalog. -/
def Diagnostic.Cataloged (d : Diagnostic) : Prop :=
  ∃ (message : String) (code : DiagnosticCode), d.message = .str (Text.ofString message) ∧
    d.code = some code

theorem DiagnosticCode.hasSurrogate_word
    (code : DiagnosticCode) :
    code.word.hasSurrogate = false := by
  cases code <;> exact Text.hasSurrogate_ofString _

/-- The catalog has a text for every code. -/
theorem Finding.message_eq
    (f : Finding) :
    ∃ message : String, f.message Tables.messages = .ok (.str (Text.ofString message)) := by
  obtain ⟨span, code⟩ := f
  cases code <;> exact ⟨_, rfl⟩

theorem Document.cataloged_of_report
    {d : Document} {fs : List Finding} {ds : List Diagnostic}
    (h : d.report Tables.messages fs = .ok ds) :
    ∀ e ∈ ds, e.Cataloged := by
  have hreport : ∀ f ∈ fs, Delivers (f.report d Tables.messages) True Diagnostic.Cataloged := by
    intro f _
    obtain ⟨message, hmessage⟩ := f.message_eq
    rw [Finding.report, hmessage]
    exact Delivers.pure ⟨message, f.code, rfl, rfl⟩
  exact (Delivers.mapM hreport).yields ds h

/-- What the check finds is cataloged. -/
theorem Document.check_cataloged
    (d : Document) (lenient : Bool) (kind : ScopeKind) (given : Option Tree) :
    ∃ ds, d.check ⟨Tables.packaged, Tables.messages, lenient⟩ kind given = .ok ds ∧
      ∀ e ∈ ds, e.Cataloged := by
  have hdelivers := d.check_delivers ⟨Tables.packaged, Tables.messages, lenient⟩ kind given
  obtain ⟨ds, hds⟩ := hdelivers.succeeds ⟨Tables.packaged_sound, rfl⟩
  refine ⟨ds, hds, ?_⟩
  cases hgiven : given.or d.root with
  | none =>
      rw [Document.check, hgiven] at hds
      cases hds
      simp
  | some t =>
      rcases Document.exists_findings_of_check hgiven hds with ⟨-, rfl⟩ | ⟨fs, -, hreport⟩
      · simp
      · exact Document.cataloged_of_report hreport

namespace Listing

section Style

variable (style : ReportStyle)

theorem hasSurrogate_paint
    {color : Text} (hcolor : color.hasSurrogate = false) (t : Text) :
    (style.paint color t).hasSurrogate = t.hasSurrogate :=
  Terminal.hasSurrogate_paintIf style.colors hcolor t

theorem hasSurrogate_icon
    {t : Text} (ht : t.hasSurrogate = false) :
    (style.icon t).hasSurrogate = false := by
  rw [ReportStyle.icon]
  split
  · rw [Text.hasSurrogate_append, ht, Text.hasSurrogate_ofString]
    rfl
  · rfl

/-- The marks are colours and texts. -/
theorem hasSurrogate_mark
    (severity : Int) :
    (SeverityMark.of severity).color.hasSurrogate = false ∧
      (SeverityMark.of severity).icon.hasSurrogate = false ∧
      (SeverityMark.of severity).label.hasSurrogate = false := by
  unfold SeverityMark.of
  repeat' split
  all_goals exact ⟨rfl, rfl, rfl⟩

/-- The line of a cataloged diagnostic shows its message, and it has bytes. -/
theorem line_of_cataloged
    {d : Diagnostic} (h : d.Cataloged) :
    ∃ shown, d.line style = .ok shown ∧ shown.hasSurrogate = false ∧
      ∀ message, d.message = .str message → message <:+: shown := by
  obtain ⟨text, code, hmessage, hcode⟩ := h
  obtain ⟨hcolor, hicon, hlabel⟩ := hasSurrogate_mark d.severity
  have horigin : d.origin? = some code.word := by rw [Diagnostic.origin?, hcode]
  have hplace : d.range.start.display.hasSurrogate = false := by
    simp [Position.display]
  unfold Diagnostic.line
  dsimp only
  rw [hmessage]
  refine ⟨_, rfl, ?_, fun message heq => ?_⟩
  · have hgray : Terminal.gray.hasSurrogate = false := rfl
    have hmagenta : Terminal.brightMagenta.hasSurrogate = false := rfl
    rw [Text.hasSurrogate_joinWith rfl, horigin]
    simp [hasSurrogate_paint, hasSurrogate_icon, hcolor, hicon, hlabel, hplace,
      code.hasSurrogate_word, hgray, hmagenta]
  · cases heq
    exact Text.infix_joinWith _ (by simp)

theorem hasSurrogate_heading
    (title : Option Text) :
    (heading style title).any Text.hasSurrogate = title.any Text.hasSurrogate := by
  have hcyan : Terminal.boldCyan.hasSurrogate = false := rfl
  cases title with
  | none => rfl
  | some t =>
      cases t with
      | nil => rfl
      | cons c t => simp [heading, hasSurrogate_paint _ hcyan]

theorem hasSurrogate_summary
    (ds : List Diagnostic) :
    (summary style ds).hasSurrogate = false := by
  have hyellow : Terminal.brightYellow.hasSurrogate = false := rfl
  have hred : Terminal.brightRed.hasSurrogate = false := rfl
  unfold summary
  dsimp only
  rw [hasSurrogate_paint _ (by split <;> assumption)]
  split <;> simp

/-- The lines below the heading of a listing of cataloged diagnostics. -/
theorem body_of_cataloged
    {ds : List Diagnostic} (h : ∀ d ∈ ds, d.Cataloged) :
    ∃ lines, body style ds = .ok lines ∧ lines.any Text.hasSurrogate = false ∧
      ∀ d ∈ ds, ∀ message, d.message = .str message → ∃ shown ∈ lines, message <:+: shown := by
  cases ds with
  | nil =>
      have hgreen : Terminal.brightGreen.hasSurrogate = false := rfl
      refine ⟨_, rfl, ?_, by simp⟩
      simp [hasSurrogate_paint _ hgreen, hasSurrogate_icon]
  | cons first rest =>
      -- cataloged diagnostics have their lines, so the listing can be written without faults
      let lineOf (d : Diagnostic) : Text := (d.line style).toOption.getD []
      have hline : ∀ d ∈ ordered (first :: rest), d.Cataloged := fun d hd =>
        h d (List.mem_mergeSort.mp hd)
      have hlines : (ordered (first :: rest)).mapM (Diagnostic.line style) =
          .ok ((ordered (first :: rest)).map lineOf) := by
        refine mapM_eq_ok_map fun d hd => ?_
        obtain ⟨shown, hshown, -⟩ := line_of_cataloged style (hline d hd)
        simp only [lineOf, hshown]
        rfl
      have hbody : body style (first :: rest) =
          (ordered (first :: rest)).mapM (Diagnostic.line style) >>= fun lines =>
            pure (lines.map (style.margin ++ ·) ++ [summary style (first :: rest)]) := rfl
      rw [hbody, hlines]
      refine ⟨_, rfl, ?_, fun d hd message hmessage => ?_⟩
      · rw [List.any_append, List.any_map, List.any_map, Bool.or_eq_false_iff]
        refine ⟨List.any_eq_false.mpr fun d hd => ?_, ?_⟩
        · obtain ⟨shown, hshown, hbytes, -⟩ := line_of_cataloged style (hline d hd)
          simp [lineOf, hshown, Except.toOption, hbytes, ReportStyle.margin]
        · simp [hasSurrogate_summary]
      · obtain ⟨shown, hshown, -, hin⟩ := line_of_cataloged style (h d hd)
        refine ⟨style.margin ++ lineOf d, ?_, ?_⟩
        · refine List.mem_append_left _ (List.mem_map_of_mem (List.mem_map_of_mem ?_))
          exact List.mem_mergeSort.mpr hd
        · simp only [lineOf, hshown]
          exact (hin message hmessage).trans (List.suffix_append _ _).isInfix

end Style

/-- A listing of cataloged diagnostics can be made.  It shows all their messages, and it has bytes
unless there is a surrogate in its title. -/
theorem text_of_cataloged
    (style : ReportStyle) (title : Option Text) {ds : List Diagnostic}
    (h : ∀ d ∈ ds, d.Cataloged) :
    ∃ listing, text style title ds = .ok listing ∧
      listing.hasSurrogate = title.any Text.hasSurrogate ∧
      ∀ d ∈ ds, ∀ message, d.message = .str message → message <:+: listing := by
  obtain ⟨lines, hbody, hbytes, hshows⟩ := body_of_cataloged style h
  refine ⟨_, by rw [text, hbody]; rfl, ?_, fun d hd message hmessage => ?_⟩
  · rw [Text.hasSurrogate_joinWith rfl, List.any_append, hasSurrogate_heading, hbytes,
      Bool.or_false]
  · obtain ⟨shown, hmem, hin⟩ := hshows d hd message hmessage
    exact hin.trans (Text.infix_joinWith _ (List.mem_append_right _ hmem))

end Listing

/-! ## Drawings -/

namespace Drawing

theorem scope_of_isObject
    (style : ReportStyle) (icon title color : Text) {tree : Value} (h : tree.isObject = true) :
    ∃ lines, scope style icon title color tree = .ok lines := by
  obtain ⟨fields, hfields⟩ := Option.isSome_iff_exists.mp h
  rw [scope]
  split
  · rw [hfields]
    exact ⟨_, rfl⟩
  · exact ⟨_, rfl⟩

theorem text_of_isObject
    (style : ReportStyle) (state : Option Text) {bound : VariableScope}
    (hown : bound.own.isObject = true) (houter : bound.outer.isObject = true) :
    ∃ drawing, text style state bound = .ok drawing := by
  obtain ⟨own, hown⟩ := scope_of_isObject style "📦" "Local scope" Terminal.brightGreen hown
  obtain ⟨outer, houter⟩ := scope_of_isObject style "🌐" "Outer scope" Terminal.brightCyan houter
  unfold text
  rw [hown, houter]
  exact ⟨_, rfl⟩

end Drawing

/-- Whatever is in scope at a state can be drawn. -/
theorem variableScope_drawn
    (root : Value) (entries : Predecessors) (target : Reference) (current : Option Reference)
    (htarget : target.Leads) (hcurrent : ∀ reference ∈ current, reference.Leads) :
    ∃ bound, variableScope root entries target current = .ok bound ∧
      bound.own.isObject = true ∧ bound.outer.isObject = true := by
  obtain ⟨bound, hbound⟩ : ∃ bound, variableScope root entries target current = .ok bound :=
    exists_variableScope htarget hcurrent
  have hobjects : bound.own.isObject = true ∧ bound.outer.isObject = true :=
    variableScope_induction (P := fun bound => bound.own.isObject = true ∧
      bound.outer.isObject = true) ⟨rfl, rfl⟩
      (fun _ a _ levels fromInside => isObject_scopeAt root entries levels a fromInside) hbound
  exact ⟨bound, hbound, hobjects⟩

end Workflow
