import Mathlib.Data.List.DropRight
import Workflow.Document.Scalar

/-!
# Numerals of JSON

A plain scalar whose tag says nothing is a floating-point number all the same when it is written
like a number of JSON, and then the numeral is read without asking whether it denotes a number.
The grammar below takes such a text apart into a sign, a whole part, a fraction and an exponent;
what the recognizer accepts has these parts, and what has these parts is read.
-/

namespace Workflow

namespace Text

/-- A run of code points of a class is taken up to the first code point outside of it. -/
theorem span_append
    {p : CodePoint → Bool} {t rest : Text} (ht : ∀ c ∈ t, p c = true)
    (hrest : ∀ c ∈ rest.head?, p c = false) :
    (t ++ rest).takeWhile p = t ∧ (t ++ rest).dropWhile p = rest := by
  rw [List.takeWhile_append_of_pos ht, List.dropWhile_append_of_pos ht]
  cases rest with
  | nil => exact ⟨List.append_nil t, rfl⟩
  | cons c rest =>
      have hc := hrest c rfl
      rw [List.takeWhile_cons_of_neg (by simp [hc]), List.dropWhile_cons_of_neg (by simp [hc])]
      exact ⟨List.append_nil t, rfl⟩

end Text

namespace CodePoint

/-- No decimal digit is a blank. -/
theorem not_isBlank_of_isDecimal
    {c : CodePoint}
    (h : c.isDecimal) :
    c.isBlank = false := by
  obtain ⟨n, hn⟩ := Option.isSome_iff_exists.1 h
  obtain ⟨z, hfind, -⟩ := Option.map_eq_some_iff.1 hn
  have hin := List.find?_some hfind
  have hmem := List.mem_of_find?_eq_some hfind
  -- the blanks lie below, between and above the blocks of digits, never inside one
  have hgaps : ∀ z ∈ decimalZeros,
      z = 0x30 ∨ 0xA0 < z ∧ z + 9 < 0x1680 ∨ 0x1680 < z ∧ z + 9 < 0x2000 ∨ 0x3000 < z := by
    decide
  have hgap := hgaps z hmem
  simp only [within, Bool.and_eq_true, decide_eq_true_eq] at hin
  simp only [isBlank, within, Bool.or_eq_false_iff, Bool.and_eq_false_iff, decide_eq_false_iff_not,
    beq_eq_false_iff_ne, ne_eq, Fin.ext_iff]
  omega

theorem isDecimal_of_within
    {c : CodePoint}
    (h : c.within 0x30 0x39 = true) :
    c.isDecimal = true := by
  simp [isDecimal, decimalValue?, decimalZeros, h]

/-- The signs, the point and the marks of an exponent. -/
def marks : Text := ['-', '+', '.', 'e', 'E']

/-- A mark is neither a digit nor a blank. -/
theorem of_mem_marks
    {c : CodePoint}
    (h : c ∈ marks) :
    c.isDecimal = false ∧ c.isBlank = false := by
  have hall : (marks.all fun c => !c.isDecimal && !c.isBlank) = true := by decide
  have hc := List.all_eq_true.1 hall c h
  simpa using hc

end CodePoint

namespace Text

theorem trim_eq_self
    {t : Text}
    (h : ∀ c ∈ t, c.isBlank = false) :
    t.trim = t := by
  have hfront : t.dropWhile CodePoint.isBlank = t :=
    List.dropWhile_eq_self_iff.2 fun hl => by simp [h _ (List.getElem_mem hl)]
  have hback : t.rdropWhile CodePoint.isBlank = t :=
    List.rdropWhile_eq_self_iff.2 fun hl => by simp [h _ (List.getLast_mem hl)]
  rw [trim, hfront]
  exact hback

/-- A non-empty run of decimal digits. -/
def IsDecimals (t : Text) : Prop := t ≠ [] ∧ ∀ c ∈ t, c.isDecimal

end Text

namespace Numeral

/-! ## The grammar -/

/-- Nothing, or a point with digits behind it. -/
inductive IsFraction : Text → Prop where
  | absent : IsFraction []
  | digits {t : Text} (h : t.IsDecimals) : IsFraction ('.' :: t)

/-- Nothing, or a mark with digits behind it, which may have a sign. -/
inductive IsExponent : Text → Prop where
  | absent : IsExponent []
  | digits {mark : CodePoint} {t : Text} (hmark : mark = 'e' ∨ mark = 'E')
      (h : (Markup.dropSign t).IsDecimals) : IsExponent (mark :: t)

/-- The parts of a numeral without its sign. -/
inductive IsUnsigned : Text → Prop where
  | parts {whole fraction exponent : Text} (hwhole : whole.IsDecimals)
      (hfraction : IsFraction fraction) (hexponent : IsExponent exponent) :
      IsUnsigned (whole ++ (fraction ++ exponent))

/-! ## What the recognizer accepts -/

/-- A text without the sign that JSON allows in front of a number. -/
def unsigned : Text → Text
  | c :: rest => if c == '-' then rest else c :: rest
  | [] => []

/-- Behind the digits in front of a point, which start with a zero only if they are just a zero. -/
def afterWhole : Text → Option Text
  | [] => none
  | c :: rest =>
    if c == '0' then some rest
    else if c.within 0x31 0x39 then some (rest.dropWhile CodePoint.isDecimal)
    else none

/-- Behind a point and its digits, if there is one. -/
def afterFraction : Text → Option Text
  | c :: rest => if c == '.' then Markup.spanDecimals rest else some (c :: rest)
  | [] => some []

/-- Behind an exponent, if there is one. -/
def afterExponent : Text → Option Text
  | c :: rest =>
    if c == 'e' || c == 'E' then Markup.spanDecimals (Markup.dropSign rest) else some (c :: rest)
  | [] => some []

/-- The recognizer takes one part off after the other and must come to the end. -/
theorem looksJsonNumber_eq
    (t : Text) :
    Markup.looksJsonNumber t =
      (((afterWhole (unsigned t)).bind afterFraction).bind afterExponent == some []) := by
  cases t <;> rfl

/-- The recognizer of digits takes a non-empty run of them. -/
theorem exists_of_spanDecimals
    {t rest : Text}
    (h : Markup.spanDecimals t = some rest) :
    ∃ ds : Text, ds.IsDecimals ∧ t = ds ++ rest := by
  have hsplit := List.prefix_iff_eq_append.1 (List.takeWhile_prefix (l := t) CodePoint.isDecimal)
  simp only [Markup.spanDecimals] at h
  split at h
  · cases h
  case h_2 hne =>
    rw [Option.some.inj h] at hsplit
    exact ⟨_, ⟨hne, fun c hc => List.mem_takeWhile_imp hc⟩, hsplit.symm⟩

/-- What is taken off in front of a point is a run of digits. -/
theorem exists_of_afterWhole
    {t rest : Text}
    (h : afterWhole t = some rest) :
    ∃ ds : Text, ds.IsDecimals ∧ t = ds ++ rest := by
  cases t with
  | nil => cases h
  | cons c tail =>
    simp only [afterWhole, beq_iff_eq] at h
    split at h
    case isTrue hzero =>
      subst hzero
      exact ⟨['0'], by simp [Text.IsDecimals]; decide, by simpa using h⟩
    case isFalse =>
      split at h
      case isFalse => cases h
      case isTrue hdigit =>
        have hc : c.isDecimal = true := by
          refine CodePoint.isDecimal_of_within ?_
          simp only [CodePoint.within, Bool.and_eq_true, decide_eq_true_eq] at hdigit ⊢
          omega
        refine ⟨c :: tail.takeWhile CodePoint.isDecimal, ⟨by simp, ?_⟩, ?_⟩
        · intro d hd
          rcases List.mem_cons.1 hd with rfl | hd
          · exact hc
          · exact List.mem_takeWhile_imp hd
        · rw [← Option.some.inj h, List.cons_append, List.takeWhile_append_dropWhile]

theorem exists_of_afterFraction
    {t rest : Text}
    (h : afterFraction t = some rest) :
    ∃ fraction, IsFraction fraction ∧ t = fraction ++ rest := by
  cases t with
  | nil => exact ⟨[], .absent, by simpa [afterFraction] using h⟩
  | cons c tail =>
    simp only [afterFraction, beq_iff_eq] at h
    split at h
    case isTrue hpoint =>
      subst hpoint
      obtain ⟨ds, hds, rfl⟩ := exists_of_spanDecimals h
      exact ⟨'.' :: ds, .digits hds, rfl⟩
    case isFalse => exact ⟨[], .absent, by simpa using h⟩

theorem isExponent_of_afterExponent
    {t : Text}
    (h : afterExponent t = some []) :
    IsExponent t := by
  cases t with
  | nil => exact .absent
  | cons c tail =>
    simp only [afterExponent, Bool.or_eq_true, beq_iff_eq] at h
    split at h
    case isTrue hmark =>
      obtain ⟨ds, hds, heq⟩ := exists_of_spanDecimals h
      rw [List.append_nil] at heq
      exact .digits hmark (heq ▸ hds)
    case isFalse => cases h

/-- What is written like a number of JSON is an unsigned numeral, perhaps with a minus in front. -/
theorem isUnsigned_of_looksJsonNumber
    {t : Text}
    (h : Markup.looksJsonNumber t = true) :
    IsUnsigned (unsigned t) := by
  rw [looksJsonNumber_eq, beq_iff_eq] at h
  simp only [Option.bind_eq_some_iff] at h
  obtain ⟨_, ⟨_, hwhole, hfraction⟩, hexponent⟩ := h
  obtain ⟨whole, hdigits, hparts⟩ := exists_of_afterWhole hwhole
  obtain ⟨fraction, hfr, rfl⟩ := exists_of_afterFraction hfraction
  rw [hparts]
  exact .parts hdigits hfr (isExponent_of_afterExponent hexponent)

/-! ## What is read -/

/-- Digits are read up to the first code point that is none. -/
theorem spanDecimal_append
    {ds rest : Text}
    (hds : ds.IsDecimals)
    (hrest : ∀ c ∈ rest.head?, c.isDecimal = false) :
    ∃ d values, spanDecimal (ds ++ rest) = (d :: values, rest) := by
  obtain ⟨hne, hall⟩ := hds
  obtain ⟨htake, hdrop⟩ := Text.span_append hall hrest
  cases ds with
  | nil => exact absurd rfl hne
  | cons c tail =>
    obtain ⟨d, hd⟩ := Option.isSome_iff_exists.1 (hall c (by simp))
    refine ⟨d, tail.filterMap CodePoint.decimalValue?, ?_⟩
    rw [spanDecimal, htake, hdrop, List.filterMap_cons, hd]

theorem splitSign_snd
    (t : Text) :
    (splitSign t).2 = Markup.dropSign t := by
  cases t with
  | nil => rfl
  | cons c rest =>
    simp only [splitSign, Markup.dropSign, Bool.or_eq_true, beq_iff_eq]
    grind

theorem isSome_exponent?
    {t : Text}
    (h : IsExponent t) :
    (exponent? t).isSome = true := by
  cases h with
  | absent => rfl
  | @digits mark tail hmark hds =>
    have hlower : mark.lowerAscii = 'e' := by rcases hmark with rfl | rfl <;> decide
    obtain ⟨d, values, hread⟩ := @spanDecimal_append _ [] hds (by simp)
    rw [List.append_nil, ← splitSign_snd] at hread
    simp [exponent?, hlower, hread]

theorem head_of_isExponent
    {t : Text}
    (h : IsExponent t) :
    ∀ c ∈ t.head?, c.isDecimal = false ∧ c ≠ '.' := by
  cases h with
  | absent => simp
  | digits hmark _ =>
    rintro c ⟨⟩
    rcases hmark with rfl | rfl
    · exact ⟨(CodePoint.of_mem_marks (by decide)).1, by decide⟩
    · exact ⟨(CodePoint.of_mem_marks (by decide)).1, by decide⟩

theorem isSome_positional?
    {t : Text}
    (negative : Bool)
    (h : IsUnsigned t) :
    (positional? negative t).isSome = true := by
  cases h with
  | @parts whole fraction exponent hwhole hfraction hexponent =>
    have hhead := head_of_isExponent hexponent
    obtain ⟨e, he⟩ := Option.isSome_iff_exists.1 (isSome_exponent? hexponent)
    cases hfraction with
    | absent =>
      obtain ⟨d, values, hread⟩ := spanDecimal_append hwhole fun c hc => (hhead c hc).1
      rw [List.nil_append, positional?, hread]
      cases exponent with
      | nil => simp [he]
      | cons c tail => simp [he, (hhead c rfl).2]
    | @digits ds hds =>
      have hpoint : ∀ c ∈ (('.' : CodePoint) :: (ds ++ exponent)).head?, c.isDecimal = false := by
        rintro c ⟨⟩
        exact (CodePoint.of_mem_marks (by decide)).1
      obtain ⟨d, values, hread⟩ := spanDecimal_append hwhole hpoint
      obtain ⟨_, _, hfraction⟩ := spanDecimal_append hds fun c hc => (hhead c hc).1
      rw [List.cons_append, positional?, hread]
      simp [hfraction, he]

/-- A code point of a text stands behind its minus, or is that minus. -/
theorem mem_unsigned
    {c : CodePoint}
    {t : Text}
    (h : c ∈ t) :
    c = '-' ∨ c ∈ unsigned t := by
  cases t with
  | nil => cases h
  | cons d rest =>
    by_cases hminus : d = '-'
    · rcases List.mem_cons.1 h with rfl | hc
      · exact .inl hminus
      · exact .inr (by simpa [unsigned, hminus] using hc)
    · exact .inr (by simpa [unsigned, hminus] using h)

theorem mem_dropSign
    {c : CodePoint}
    {t : Text}
    (h : c ∈ t) :
    c ∈ CodePoint.marks ∨ c ∈ Markup.dropSign t := by
  cases t with
  | nil => cases h
  | cons d rest =>
    by_cases hsign : d = '-' ∨ d = '+'
    · rcases List.mem_cons.1 h with rfl | hc
      · rcases hsign with rfl | rfl <;> exact .inl (by decide)
      · exact .inr (by simpa [Markup.dropSign, hsign] using hc)
    · exact .inr (by simpa [Markup.dropSign, hsign] using h)

theorem digit_or_mark_of_isUnsigned
    {t : Text}
    (h : IsUnsigned t) :
    ∀ c ∈ t, c.isDecimal = true ∨ c ∈ CodePoint.marks := by
  cases h with
  | @parts whole fraction exponent hwhole hfraction hexponent =>
    intro c hc
    simp only [List.mem_append] at hc
    rcases hc with hc | hc | hc
    · exact .inl (hwhole.2 c hc)
    · cases hfraction with
      | absent => cases hc
      | digits hds =>
        rcases List.mem_cons.1 hc with rfl | hc
        · exact .inr (by decide)
        · exact .inl (hds.2 c hc)
    · cases hexponent with
      | absent => cases hc
      | @digits mark tail hmark hds =>
        rcases List.mem_cons.1 hc with rfl | hc
        · rcases hmark with rfl | rfl <;> exact .inr (by decide)
        · rcases mem_dropSign hc with hsign | hc
          · exact .inr hsign
          · exact .inl (hds.2 c hc)

theorem head_of_isUnsigned
    {c : CodePoint}
    {t : Text}
    (h : IsUnsigned (c :: t)) :
    c.isDecimal = true := by
  generalize heq : c :: t = numeral at h
  cases h with
  | @parts whole fraction exponent hwhole _ _ =>
    obtain ⟨hne, hall⟩ := hwhole
    cases whole with
    | nil => exact absurd rfl hne
    | cons d ds =>
      rw [(List.cons.inj heq).1]
      exact hall d (by simp)

/-- The reader takes the sign of a number of JSON off, and no other. -/
theorem splitSign_snd_of_isUnsigned
    {t : Text}
    (h : IsUnsigned (unsigned t)) :
    (splitSign t).2 = unsigned t := by
  cases t with
  | nil => rfl
  | cons c rest =>
    by_cases hminus : c = '-'
    · simp [splitSign, unsigned, hminus]
    · have hunsigned : unsigned (c :: rest) = c :: rest := by simp [unsigned, hminus]
      have hplus : c ≠ '+' := by
        rintro rfl
        have hdecimal := head_of_isUnsigned (hunsigned ▸ h)
        rw [(CodePoint.of_mem_marks (by decide)).1] at hdecimal
        cases hdecimal
      simp [splitSign, hunsigned, hminus, hplus]

/-- What is written like a number of JSON denotes a floating-point number. -/
theorem exists_float_of_looksJsonNumber
    {t : Text}
    (h : Markup.looksJsonNumber t = true) :
    ∃ x, float t = .ok x := by
  have hunsigned := isUnsigned_of_looksJsonNumber h
  have hblank : ∀ c ∈ t, c.isBlank = false := by
    intro c hc
    rcases mem_unsigned hc with rfl | hc
    · decide
    · rcases digit_or_mark_of_isUnsigned hunsigned c hc with hdigit | hmark
      · exact CodePoint.not_isBlank_of_isDecimal hdigit
      · exact (CodePoint.of_mem_marks hmark).2
  -- the words for infinity and for no number are read before digits are looked for
  have hread : (float? t).isSome = true := by
    simp only [float?, Text.trim_eq_self hblank, splitSign_snd_of_isUnsigned hunsigned]
    split
    · rfl
    · split
      · rfl
      · exact isSome_positional? _ hunsigned
  obtain ⟨x, hx⟩ := Option.isSome_iff_exists.1 hread
  exact ⟨x, by rw [float, hx]⟩

end Numeral

end Workflow
