import Workflow.Proofs.FlowScanning

/-!
# The tokens of JSON

A JSON text has the tokens that its form says: scalars for words, numbers and strings, the marks of
flow collections, and a mark in front of every name, which the colon behind it brings about.

The scanner goes over a form as the form is built, with one induction over values, items and
members.  It breaks off at the first string in which a line starts with a document marker, if there is
one; a second induction comes to that string.
-/

namespace Workflow

namespace Json

open Markup

/-! ## The kinds of tokens -/

/-- The tokens of a label: the mark of a key, the name and the colon. -/
def Label.kinds (l : Label) : List TokenKind :=
  [.key, .scalar (foldedUnits l.name) .doubleQuoted, .value]

mutual

/-- The tokens of a form. -/
def Form.kinds : Form → List TokenKind
  | .null => [.scalar "null" .plain]
  | .bool b => [.scalar (if b then "true" else "false") .plain]
  | .number a => [.scalar a.text .plain]
  | .string pieces => [.scalar (foldedUnits pieces) .doubleQuoted]
  | .emptyArray _ => [.flowSequenceStart, .flowSequenceEnd]
  | .array items => .flowSequenceStart :: (items.kinds ++ [.flowSequenceEnd])
  | .emptyObject _ => [.flowMappingStart, .flowMappingEnd]
  | .object members => .flowMappingStart :: (members.kinds ++ [.flowMappingEnd])

/-- The tokens of items with the commas between them. -/
def Items.kinds : Items → List TokenKind
  | .last _ x _ => x.kinds
  | .more _ x _ items => x.kinds ++ .flowEntry :: items.kinds

/-- The tokens of members with the commas between them. -/
def Members.kinds : Members → List TokenKind
  | .last label x _ => label.kinds ++ x.kinds
  | .more label x _ members => label.kinds ++ (x.kinds ++ .flowEntry :: members.kinds)

end

/-! ## What ends a value -/

/-- A value may end in front of a text: at the end of the whole text or, within a collection, at a
mark that ends an entry. -/
def Ends (level : Nat) (t : Text) : Prop :=
  core t = [] ∨
    level ≠ 0 ∧ ∃ mark rest, mark ∈ ([',', ']', 0x7D] : Text) ∧ core t = mark :: rest

theorem Ends.endsScalar
    {level : Nat}
    {t : Text}
    (h : Ends level t) :
    EndsScalar (level != 0) (untabbed t) :=
  h.imp_right fun h => ⟨by simpa using h.1, h.2⟩

theorem Ends.gap
    {level : Nat}
    {gap : Gap}
    {t : Text}
    (h : Ends level t) :
    Ends level (gap.text ++ t) := by
  rwa [Ends, core_gap_append]

theorem Ends.mark
    {level : Nat}
    {mark : CodePoint}
    (h : mark ∈ ([',', ']', 0x7D] : Text))
    (t : Text) :
    Ends (level + 1) (mark :: t) := by
  have htab : mark ≠ '\t' := by
    rintro rfl
    revert h
    decide
  exact .inr ⟨Nat.succ_ne_zero level, mark, untabbed t, h,
    core_cons (head_of_mem_flowEnds h).1 htab t⟩

/-! ## Scanning -/

section Scanning

variable {s : ScanState} {kinds : List TokenKind} {level : Nat} {t : Text}

/-- The name of a member becomes a key. -/
theorem Label.scans
    (label : Label)
    (hname : hasMarkedLine label.name = false)
    (hallowed : s.keyAllowed = true)
    (h : s.Ready kinds (level + 1) (label.text ++ t)) :
    ∃ s', s.Reaches s' ∧ s'.Ready (kinds ++ label.kinds) (level + 1) t := by
  simp only [Label.text, List.append_assoc, List.cons_append] at h
  obtain ⟨s₁, hreach₁, h₁, hkey⟩ := h.skipGap.quotedString hname
  obtain ⟨key, hfind, hnumber⟩ := hkey hallowed
  obtain ⟨s₂, hreach₂, h₂⟩ := h₁.skipGap.colon hfind hnumber
  exact ⟨s₂, hreach₁.trans hreach₂, h₂.skipGap⟩

/-- A number is a plain word. -/
theorem Amount.isWord_text
    (a : Amount) :
    IsWord a.text := by
  refine ⟨fun c hc => ?_, ?_⟩
  · have hall : (CodePoint.marks.all isBare) = true := by decide
    rcases a.mem_text hc with hdigit | hmark
    · simp [isBare, hdigit]
    · exact List.all_eq_true.1 hall c hmark
  · obtain ⟨c, rest, hbody, hdigit⟩ := a.exists_body_eq
    cases hminus : a.minus with
    | false =>
      exact ⟨c, rest, by simp [Amount.text, Amount.signText, hminus, hbody], .inl (by simp [hdigit])⟩
    | true =>
      exact ⟨'-', c :: rest, by simp [Amount.text, Amount.signText, hminus, hbody],
        .inr ⟨rfl, c, rfl, hdigit⟩⟩

theorem isWord_null : IsWord (Text.ofString "null") :=
  isWord_of_isAsciiLetter (by decide) (by decide)

theorem isWord_bool
    (b : Bool) :
    IsWord (if b then Text.ofString "true" else Text.ofString "false") := by
  cases b
  · exact isWord_of_isAsciiLetter (by decide) (by decide)
  · exact isWord_of_isAsciiLetter (by decide) (by decide)

mutual

/-- The scanner finds the tokens of a form. -/
theorem Form.scans
    (x : Form)
    {s : ScanState}
    {kinds : List TokenKind}
    {level : Nat}
    {t : Text}
    (hlines : x.strings.any hasMarkedLine = false)
    (hends : Ends level t)
    (h : s.Ready kinds level (x.text ++ t)) :
    ∃ s', s.Reaches s' ∧ s'.Ready (kinds ++ x.kinds) level t := by
  cases x with
  | null => exact h.plainWord isWord_null hends.endsScalar
  | bool b => exact h.plainWord (isWord_bool b) hends.endsScalar
  | number a => exact h.plainWord a.isWord_text hends.endsScalar
  | string pieces =>
    obtain ⟨s₁, hreach, h₁, -⟩ := h.quotedString (by simpa [Form.strings] using hlines)
    exact ⟨s₁, hreach, h₁⟩
  | emptyArray gap =>
    simp only [Form.text, between, List.cons_append, List.append_assoc, List.nil_append] at h
    obtain ⟨s₁, hreach₁, h₁, -⟩ := h.openFlow (.inl ⟨rfl, rfl⟩)
    obtain ⟨s₂, hreach₂, h₂⟩ := h₁.skipGap.closeFlow (.inl ⟨rfl, rfl⟩)
    exact ⟨s₂, hreach₁.trans hreach₂, by simpa [Form.kinds] using h₂⟩
  | array items =>
    simp only [Form.text, between, List.cons_append, List.append_assoc, List.nil_append] at h
    obtain ⟨s₁, hreach₁, h₁, -⟩ := h.openFlow (.inl ⟨rfl, rfl⟩)
    obtain ⟨s₂, hreach₂, h₂⟩ :=
      items.scans hlines (Ends.mark (by decide) t) h₁
    obtain ⟨s₃, hreach₃, h₃⟩ := h₂.closeFlow (.inl ⟨rfl, rfl⟩)
    exact ⟨s₃, (hreach₁.trans hreach₂).trans hreach₃, by simpa [Form.kinds] using h₃⟩
  | emptyObject gap =>
    simp only [Form.text, between, List.cons_append, List.append_assoc, List.nil_append] at h
    obtain ⟨s₁, hreach₁, h₁, -⟩ := h.openFlow (.inr ⟨rfl, rfl⟩)
    obtain ⟨s₂, hreach₂, h₂⟩ := h₁.skipGap.closeFlow (.inr ⟨rfl, rfl⟩)
    exact ⟨s₂, hreach₁.trans hreach₂, by simpa [Form.kinds] using h₂⟩
  | object members =>
    simp only [Form.text, between, List.cons_append, List.append_assoc, List.nil_append] at h
    obtain ⟨s₁, hreach₁, h₁, hallowed⟩ := h.openFlow (.inr ⟨rfl, rfl⟩)
    obtain ⟨s₂, hreach₂, h₂⟩ :=
      members.scans hlines (Ends.mark (by decide) t) hallowed h₁
    obtain ⟨s₃, hreach₃, h₃⟩ := h₂.closeFlow (.inr ⟨rfl, rfl⟩)
    exact ⟨s₃, (hreach₁.trans hreach₂).trans hreach₃, by simpa [Form.kinds] using h₃⟩

theorem Items.scans
    (items : Items)
    {s : ScanState}
    {kinds : List TokenKind}
    {level : Nat}
    {t : Text}
    (hlines : items.strings.any hasMarkedLine = false)
    (hends : Ends (level + 1) t)
    (h : s.Ready kinds (level + 1) (items.text ++ t)) :
    ∃ s', s.Reaches s' ∧ s'.Ready (kinds ++ items.kinds) (level + 1) t := by
  cases items with
  | last before x after =>
    simp only [Items.text, List.append_assoc] at h
    obtain ⟨s₁, hreach, h₁⟩ := x.scans hlines hends.gap h.skipGap
    exact ⟨s₁, hreach, h₁.skipGap⟩
  | more before x after items =>
    simp only [Items.text, List.append_assoc, List.cons_append] at h
    rw [Items.strings, List.any_append, Bool.or_eq_false_iff] at hlines
    obtain ⟨hx, hitems⟩ := hlines
    obtain ⟨s₁, hreach₁, h₁⟩ := x.scans hx (Ends.mark (by decide) _).gap h.skipGap
    obtain ⟨s₂, hreach₂, h₂, -⟩ := h₁.skipGap.comma
    obtain ⟨s₃, hreach₃, h₃⟩ := items.scans hitems hends h₂
    exact ⟨s₃, (hreach₁.trans hreach₂).trans hreach₃, by simpa [Items.kinds] using h₃⟩

theorem Members.scans
    (members : Members)
    {s : ScanState}
    {kinds : List TokenKind}
    {level : Nat}
    {t : Text}
    (hlines : members.strings.any hasMarkedLine = false)
    (hends : Ends (level + 1) t)
    (hallowed : s.keyAllowed = true)
    (h : s.Ready kinds (level + 1) (members.text ++ t)) :
    ∃ s', s.Reaches s' ∧ s'.Ready (kinds ++ members.kinds) (level + 1) t := by
  cases members with
  | last label x after =>
    simp only [Members.text, List.append_assoc] at h
    rw [Members.strings, List.any_cons, Bool.or_eq_false_iff] at hlines
    obtain ⟨hlabel, hx⟩ := hlines
    obtain ⟨s₁, hreach₁, h₁⟩ := label.scans hlabel hallowed h
    obtain ⟨s₂, hreach₂, h₂⟩ := x.scans hx hends.gap h₁
    exact ⟨s₂, hreach₁.trans hreach₂, by simpa [Members.kinds] using h₂.skipGap⟩
  | more label x after members =>
    simp only [Members.text, List.append_assoc, List.cons_append] at h
    rw [Members.strings, List.any_cons, List.any_append, Bool.or_eq_false_iff,
      Bool.or_eq_false_iff] at hlines
    obtain ⟨hlabel, hx, hmembers⟩ := hlines
    obtain ⟨s₁, hreach₁, h₁⟩ := label.scans hlabel hallowed h
    obtain ⟨s₂, hreach₂, h₂⟩ := x.scans hx (Ends.mark (by decide) _).gap h₁
    obtain ⟨s₃, hreach₃, h₃, hkey⟩ := h₂.skipGap.comma
    obtain ⟨s₄, hreach₄, h₄⟩ := members.scans hmembers hends hkey h₃
    exact ⟨s₄, ((hreach₁.trans hreach₂).trans hreach₃).trans hreach₄,
      by simpa [Members.kinds] using h₄⟩

end

/-! ### Marked lines -/

theorem Label.breaksOff
    (label : Label)
    (hmarked : hasMarkedLine label.name = true)
    (h : s.Ready kinds (level + 1) (label.text ++ t)) :
    s.BreaksOff := by
  simp only [Label.text, List.append_assoc, List.cons_append] at h
  exact h.skipGap.breaksOff_quotedString hmarked

mutual

/-- The scanner breaks off within a form that has a string with a marked line. -/
theorem Form.breaksOff
    (x : Form)
    {s : ScanState}
    {kinds : List TokenKind}
    {level : Nat}
    {t : Text}
    (hmarked : x.strings.any hasMarkedLine = true)
    (h : s.Ready kinds level (x.text ++ t)) :
    s.BreaksOff := by
  cases x with
  | null | bool | number | emptyArray | emptyObject => cases hmarked
  | string pieces => exact h.breaksOff_quotedString (by simpa [Form.strings] using hmarked)
  | array items =>
    simp only [Form.text, between, List.cons_append, List.append_assoc, List.nil_append] at h
    obtain ⟨s₁, hreach, h₁, -⟩ := h.openFlow (.inl ⟨rfl, rfl⟩)
    exact hreach.breaksOff (items.breaksOff hmarked h₁)
  | object members =>
    simp only [Form.text, between, List.cons_append, List.append_assoc, List.nil_append] at h
    obtain ⟨s₁, hreach, h₁, hallowed⟩ := h.openFlow (.inr ⟨rfl, rfl⟩)
    exact hreach.breaksOff (members.breaksOff hmarked hallowed h₁)

theorem Items.breaksOff
    (items : Items)
    {s : ScanState}
    {kinds : List TokenKind}
    {level : Nat}
    {t : Text}
    (hmarked : items.strings.any hasMarkedLine = true)
    (h : s.Ready kinds (level + 1) (items.text ++ t)) :
    s.BreaksOff := by
  cases items with
  | last before x after =>
    simp only [Items.text, List.append_assoc] at h
    exact x.breaksOff hmarked h.skipGap
  | more before x after items =>
    simp only [Items.text, List.append_assoc, List.cons_append] at h
    rw [Items.strings, List.any_append] at hmarked
    cases hlines : x.strings.any hasMarkedLine with
    | true => exact x.breaksOff hlines h.skipGap
    | false =>
      obtain ⟨s₁, hreach₁, h₁⟩ := x.scans hlines (Ends.mark (by decide) _).gap h.skipGap
      obtain ⟨s₂, hreach₂, h₂, -⟩ := h₁.skipGap.comma
      rw [hlines, Bool.false_or] at hmarked
      exact (hreach₁.trans hreach₂).breaksOff (items.breaksOff hmarked h₂)

theorem Members.breaksOff
    (members : Members)
    {s : ScanState}
    {kinds : List TokenKind}
    {level : Nat}
    {t : Text}
    (hmarked : members.strings.any hasMarkedLine = true)
    (hallowed : s.keyAllowed = true)
    (h : s.Ready kinds (level + 1) (members.text ++ t)) :
    s.BreaksOff := by
  cases members with
  | last label x after =>
    simp only [Members.text, List.append_assoc] at h
    rw [Members.strings, List.any_cons] at hmarked
    cases hname : hasMarkedLine label.name with
    | true => exact label.breaksOff hname h
    | false =>
      obtain ⟨s₁, hreach, h₁⟩ := label.scans hname hallowed h
      rw [hname, Bool.false_or] at hmarked
      exact hreach.breaksOff (x.breaksOff hmarked h₁)
  | more label x after members =>
    simp only [Members.text, List.append_assoc, List.cons_append] at h
    rw [Members.strings, List.any_cons, List.any_append] at hmarked
    cases hname : hasMarkedLine label.name with
    | true => exact label.breaksOff hname h
    | false =>
      obtain ⟨s₁, hreach₁, h₁⟩ := label.scans hname hallowed h
      cases hlines : x.strings.any hasMarkedLine with
      | true => exact hreach₁.breaksOff (x.breaksOff hlines h₁)
      | false =>
        obtain ⟨s₂, hreach₂, h₂⟩ := x.scans hlines (Ends.mark (by decide) _).gap h₁
        obtain ⟨s₃, hreach₃, h₃, hkey⟩ := h₂.skipGap.comma
        rw [hname, hlines, Bool.false_or, Bool.false_or] at hmarked
        exact ((hreach₁.trans hreach₂).trans hreach₃).breaksOff (members.breaksOff hmarked hkey h₃)

end

end Scanning

/-! ## Whole texts -/

/-- A form starts with a code point of ASCII. -/
theorem Form.exists_text_eq
    (x : Form) :
    ∃ c rest, x.text = c :: rest ∧ c.val < 0x80 := by
  cases x with
  | null => exact ⟨'n', _, rfl, by decide⟩
  | bool b =>
    cases b
    · exact ⟨'f', _, rfl, by decide⟩
    · exact ⟨'t', _, rfl, by decide⟩
  | number a =>
    obtain ⟨c, rest, htext, hc⟩ := a.exists_text_eq
    refine ⟨c, rest, htext, ?_⟩
    rcases hc with hdigit | rfl
    · simp only [CodePoint.isAsciiDigit, CodePoint.within, Bool.and_eq_true,
        decide_eq_true_eq] at hdigit
      omega
    · decide
  | string pieces => exact ⟨'"', _, rfl, by decide⟩
  | emptyArray gap => exact ⟨'[', _, rfl, by decide⟩
  | array items => exact ⟨'[', _, rfl, by decide⟩
  | emptyObject gap => exact ⟨0x7B, _, rfl, by decide⟩
  | object members => exact ⟨0x7B, _, rfl, by decide⟩

namespace Source

variable (x : Source)

/-- A JSON text does not start with a byte order mark. -/
theorem head_text : ∀ c ∈ (untabbed x.text).head?, c ≠ 0xFEFF := by
  have hascii : ∀ c ∈ x.text.head?, c.val < 0x80 := by
    cases hbefore : x.before.text with
    | nil =>
      obtain ⟨c, rest, htext, hc⟩ := x.form.exists_text_eq
      simp [text, hbefore, htext, hc]
    | cons c rest =>
      have hspace := List.all_eq_true.1 x.before.isBlank c (hbefore ▸ List.mem_cons_self)
      simp only [text, hbefore, List.cons_append, List.head?_cons]
      rintro d ⟨⟩
      simp only [isSpace, Bool.or_eq_true, beq_iff_eq] at hspace
      rcases hspace with ((rfl | rfl) | rfl) | rfl <;> decide
  intro c hc
  rw [untabbed, Text.replacePoint, List.head?_map] at hc
  obtain ⟨d, hd, rfl⟩ := Option.map_eq_some_iff.1 hc
  split
  · decide
  · rintro rfl
    exact absurd (hascii _ hd) (by decide)

/-- The scanner starts in front of a JSON text. -/
theorem ready_start :
    (ScanState.start true (untabbed x.text)).Ready [] 0
      (x.before.text ++ (x.form.text ++ x.after.text)) :=
  ⟨rfl, by simp, rfl, rfl, rfl, rfl, rfl, by simp [ScanState.start], rfl, Nat.lt_succ_self _⟩

/-- A text of allowed code points is scanned from its start. -/
theorem ofText_eq
    (hallowed : ∀ c ∈ x.text, isAllowed c = true) :
    TokenStream.ofText true (untabbed x.text) =
      TokenStream.scan (ScanState.start true (untabbed x.text)) ((untabbed x.text).length + 2)
        (ScanState.start true (untabbed x.text)) := by
  have hall : (untabbed x.text).all isAllowed = true := by
    refine List.all_eq_true.2 fun c hc => ?_
    obtain ⟨d, hd, rfl⟩ := List.mem_map.1 hc
    split
    · decide
    · exact hallowed d hd
  have hmark : (ScanState.start true (untabbed x.text)).cursor.isAt 0xFEFF = false := by
    refine Bool.eq_false_iff.2 fun hat => ?_
    exact x.head_text 0xFEFF (beq_iff_eq.1 hat) rfl
  simp only [TokenStream.ofText, hall, hmark, if_true, Bool.false_eq_true, if_false]

theorem ends_after : Ends 0 x.after.text := by
  have hcore := core_gap_append x.after []
  rw [List.append_nil] at hcore
  exact .inl hcore

/-- A JSON text without marked lines has the tokens of its form. -/
theorem kinds_ofText
    (hallowed : ∀ c ∈ x.text, isAllowed c = true)
    (hlines : x.strings.any hasMarkedLine = false) :
    (TokenStream.ofText true (untabbed x.text)).tokens.map Token.kind =
      x.form.kinds ++ [.streamEnd] := by
  obtain ⟨s', ⟨n, hn, hscan⟩, h'⟩ := x.form.scans hlines x.ends_after x.ready_start.skipGap
  -- one step for each token, one for the end of the stream, and one to see it
  have hlength : (untabbed x.text).length + 2 = (untabbed x.text).length - n + 2 + n := by
    have hle : s'.cursor.rest.length + n ≤ (untabbed x.text).length := hn
    omega
  obtain ⟨before', heq⟩ :=
    hscan (ScanState.start true (untabbed x.text)) ((untabbed x.text).length - n + 2)
  have hafter := x.ends_after.resolve_right fun h => h.1 rfl
  rw [x.ofText_eq hallowed, hlength, heq, h'.scan_end hafter, List.nil_append]

/-- The tokens of a JSON text with a marked line break off. -/
theorem ofText_breaksOff
    (hallowed : ∀ c ∈ x.text, isAllowed c = true)
    (hmarked : x.strings.any hasMarkedLine = true) :
    (TokenStream.ofText true (untabbed x.text)).problem = .malformed ∧
      ∀ token ∈ (TokenStream.ofText true (untabbed x.text)).tokens, token.kind ≠ .streamEnd := by
  obtain ⟨n, hn, hbreaks⟩ := x.form.breaksOff hmarked x.ready_start.skipGap
  have hlength : (untabbed x.text).length + 2 = (untabbed x.text).length - n + 1 + n + 1 := by
    have hle : n ≤ (untabbed x.text).length := hn
    omega
  rw [x.ofText_eq hallowed, hlength]
  exact hbreaks _ _

end Source

end Json

end Workflow
