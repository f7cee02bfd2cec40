import Workflow.Proofs.JsonForms
import Workflow.Proofs.JsonNumerals

/-!
# Words and numbers of JSON as plain scalars

The words and numbers of JSON have no quotes, so they are read as plain scalars and judged by their
text.  The judgement agrees with JSON: the words get the tags of truth values and null, an integer
gets the tag of integers, and any other number either the tag of floating-point numbers or none at
all; in the latter case it is recognized as a number of JSON.  Both ways lead to the same nearest
floating-point number, once with the sign read and once with the sign put on afterwards.
-/

namespace Workflow

namespace CodePoint

/-- The digits of ASCII. -/
def asciiDigits : Text := "0123456789"

theorem isAsciiDigit_iff
    {c : CodePoint} :
    c.isAsciiDigit = true ↔ c ∈ asciiDigits := by
  have hdigits : asciiDigits = (List.range 10).map fun d => ofNatD (d + 0x30) := by decide
  simp only [hdigits, List.mem_map, List.mem_range, isAsciiDigit, within, Bool.and_eq_true,
    decide_eq_true_eq]
  constructor
  · rintro ⟨hlo, hhi⟩
    refine ⟨c.val - 0x30, by omega, Fin.ext ?_⟩
    have hval : c.val - 0x30 + 0x30 = c.val := by omega
    simp [ofNatD, hval]
  · rintro ⟨d, hd, rfl⟩
    have hlt : d + 0x30 < 0x110000 := by omega
    simp only [ofNatD, hlt, dif_pos]
    omega

theorem decimalValue?_of_isAsciiDigit
    {c : CodePoint}
    (h : c.isAsciiDigit = true) :
    c.decimalValue? = some (c.val - 0x30) := by
  rw [isAsciiDigit] at h
  simp [decimalValue?, decimalZeros, h]

theorem ne_sign_of_isAsciiDigit
    {c : CodePoint}
    (h : c.isAsciiDigit = true) :
    c ≠ '-' ∧ c ≠ '+' := by
  constructor
  · rintro rfl
    revert h
    decide
  · rintro rfl
    revert h
    decide

/-- What holds of the digits and of the marks of a number holds of all that numbers are made of. -/
theorem of_numeral
    (p : CodePoint → Bool)
    (hall : (asciiDigits ++ marks).all p = true)
    {c : CodePoint}
    (h : c.isAsciiDigit = true ∨ c ∈ marks) :
    p c = true := by
  refine List.all_eq_true.1 hall c (List.mem_append.2 ?_)
  rwa [← isAsciiDigit_iff]

theorem not_isBlank_of_numeral
    {c : CodePoint}
    (h : c.isAsciiDigit = true ∨ c ∈ marks) :
    c.isBlank = false := by
  rcases h with hdigit | hmark
  · exact not_isBlank_of_isDecimal (isDecimal_of_within hdigit)
  · exact (of_mem_marks hmark).2

end CodePoint

namespace Binary64

theorem magnitude_ofCode
    {code : Nat}
    (negative : Bool)
    (h : code ≤ infinityCode) :
    (ofCode negative code).isNegative = negative ∧ (ofCode negative code).magnitude = code := by
  have hinf : infinityCode < Nat.pow 2 63 := by decide
  have htwo : Nat.pow 2 63 + Nat.pow 2 63 = 2 ^ 64 := by decide
  cases negative with
  | false =>
    have hcode : (ofCode false code).code = code := by
      simp only [ofCode, Binary64.code, Bool.false_eq_true, if_false, UInt64.toNat_ofNat']
      exact Nat.mod_eq_of_lt (by omega)
    simp only [isNegative, magnitude, hcode]
    exact ⟨by simpa using Nat.lt_of_le_of_lt h hinf, Nat.mod_eq_of_lt (by omega)⟩
  | true =>
    have hcode : (ofCode true code).code = Nat.pow 2 63 + code := by
      simp only [ofCode, Binary64.code, if_true, UInt64.toNat_ofNat']
      exact Nat.mod_eq_of_lt (by omega)
    simp only [isNegative, magnitude, hcode]
    refine ⟨by simp, ?_⟩
    rw [Nat.add_mod_left]
    exact Nat.mod_eq_of_lt (by omega)

theorem negate_ofCode
    {code : Nat}
    (h : code ≤ infinityCode) :
    (ofCode false code).negate = ofCode true code := by
  obtain ⟨hsign, hmagnitude⟩ := magnitude_ofCode false h
  rw [negate, hsign, hmagnitude, Bool.not_false]

/-- The sign of a rounded quotient is put on at the end. -/
theorem exists_ofRatio_eq
    (num den : Nat) :
    ∃ code ≤ infinityCode, ∀ negative, ofRatio negative num den = ofCode negative code := by
  simp only [ofRatio, infinity]
  split
  · exact ⟨0, Nat.zero_le _, fun _ => rfl⟩
  · -- only the comparison with infinity matters, not how the code was found
    generalize (if _ < Nat.pow 2 52 then _ else _ : Nat) = code
    split
    · exact ⟨infinityCode, le_rfl, fun _ => rfl⟩
    case isFalse hcode => exact ⟨code, (Nat.lt_of_not_le hcode).le, fun _ => rfl⟩

theorem exists_ofDecimal_eq
    (n : Nat)
    (k : Int) :
    ∃ code ≤ infinityCode, ∀ negative, ofDecimal negative n k = ofCode negative code := by
  simp only [ofDecimal]
  split
  · exact ⟨0, Nat.zero_le _, fun _ => rfl⟩
  split
  · exact ⟨infinityCode, le_rfl, fun _ => rfl⟩
  split
  · exact ⟨0, Nat.zero_le _, fun _ => rfl⟩
  split
  · exact exists_ofRatio_eq _ _
  · exact exists_ofRatio_eq _ _

/-- Rounding is symmetric, so a sign may as well be put on afterwards. -/
theorem negate_ofDecimal
    (n : Nat)
    (k : Int) :
    (ofDecimal false n k).negate = ofDecimal true n k := by
  obtain ⟨code, hle, hcode⟩ := exists_ofDecimal_eq n k
  rw [hcode, hcode, negate_ofCode hle]

end Binary64

namespace Json

open CodePoint

/-! ## Digits -/

namespace Digits

variable (d : Digits)

theorem ne_nil : d.text ≠ [] := by
  have h := d.isRun
  simp only [Markup.isRun, Bool.and_eq_true, Bool.not_eq_true'] at h
  exact fun hnil => by simp [hnil] at h

theorem isAsciiDigit_of_mem
    {c : CodePoint}
    (h : c ∈ d.text) :
    c.isAsciiDigit = true := by
  have hrun := d.isRun
  simp only [Markup.isRun, Bool.and_eq_true] at hrun
  exact List.all_eq_true.1 hrun.2 c h

theorem isDecimal_of_mem
    {c : CodePoint}
    (h : c ∈ d.text) :
    c.isDecimal = true :=
  isDecimal_of_within (d.isAsciiDigit_of_mem h)

theorem filterMap_decimalValue? : d.text.filterMap decimalValue? = d.values := by
  rw [List.filterMap_eq_map_iff_forall_eq_some.2
    fun c hc => decimalValue?_of_isAsciiDigit (d.isAsciiDigit_of_mem hc), values]

section Span

variable {rest : Text} (h : ∀ c ∈ rest.head?, c.isDecimal = false)
include h

theorem span_append :
    (d.text ++ rest).takeWhile isDecimal = d.text ∧
      (d.text ++ rest).dropWhile isDecimal = rest :=
  Text.span_append (fun _ hc => d.isDecimal_of_mem hc) h

/-- Digits are read up to the first code point that is none. -/
theorem spanDecimal_append : Numeral.spanDecimal (d.text ++ rest) = (d.values, rest) := by
  obtain ⟨htake, hdrop⟩ := d.span_append h
  rw [Numeral.spanDecimal, htake, hdrop, filterMap_decimalValue?]

theorem spanDecimals_append : Markup.spanDecimals (d.text ++ rest) = some rest := by
  rw [Markup.spanDecimals, (d.span_append h).1]
  split
  case h_1 hnil => exact absurd hnil d.ne_nil
  case h_2 => rw [List.drop_left]

end Span

theorem values_ne_nil : d.values ≠ [] := by simp [values, d.ne_nil]

/-- Digits have no sign in front. -/
theorem splitSign_append
    (rest : Text) :
    Numeral.splitSign (d.text ++ rest) = (false, d.text ++ rest) := by
  cases hdigits : d.text with
  | nil => exact absurd hdigits d.ne_nil
  | cons c tail =>
    have hdigit := d.isAsciiDigit_of_mem (hdigits ▸ List.mem_cons_self)
    simp [Numeral.splitSign, ne_sign_of_isAsciiDigit hdigit]

theorem digitIn?_of_mem
    {c : CodePoint}
    (h : c ∈ d.text) :
    Numeral.digitIn? 10 c = some (c.val - 0x30) := by
  have hdigit := d.isAsciiDigit_of_mem h
  have hlt : c.val - 0x30 < 10 := by
    simp only [isAsciiDigit, within, Bool.and_eq_true, decide_eq_true_eq] at hdigit
    omega
  simp [Numeral.digitIn?, decimalValue?_of_isAsciiDigit hdigit, hlt]

theorem digitsIn?_text : Numeral.digitsIn? 10 d.text = some d.values := by
  have hvalues : ∀ t : Text, (∀ c ∈ t, Numeral.digitIn? 10 c = some (c.val - 0x30)) →
      t.mapM (Numeral.digitIn? 10) = some (t.map fun c => c.val - 0x30) := by
    intro t ht
    induction t with
    | nil => rfl
    | cons c rest ih =>
      rw [List.mapM_cons, ht c List.mem_cons_self, ih fun e he => ht e (List.mem_cons_of_mem _ he)]
      rfl
  exact hvalues d.text fun c hc => d.digitIn?_of_mem hc

theorem map_lower : d.text.map CodePoint.lower = d.text := by
  have hall : (asciiDigits.all fun c => c.lower == c) = true := by decide +kernel
  have hlower : ∀ c ∈ d.text, c.lower = id c := fun c hc => by
    simpa using List.all_eq_true.1 hall c (isAsciiDigit_iff.1 (d.isAsciiDigit_of_mem hc))
  rw [List.map_congr_left hlower, List.map_id]

/-- Digits are read as an integer unless they are too many. -/
theorem integer_text
    (h : d.text.length ≤ Numeral.maxDigits) :
    Numeral.integer 10 d.text = .ok (d.toNat : Int) := by
  have htrim : d.text.trim = d.text := Text.trim_eq_self fun c hc =>
    not_isBlank_of_isDecimal (d.isDecimal_of_mem hc)
  have hsplit := d.splitSign_append []
  rw [List.append_nil] at hsplit
  have hbase : Numeral.dropBaseMark 10 d.text = d.text := by
    simp only [Numeral.dropBaseMark, Numeral.baseLetter?]
    split
    case h_1 heq => simp [heq]
    case h_2 => rfl
  have hlength : ¬ Numeral.maxDigits < d.values.length := by simpa [values] using h
  have hread : Numeral.integer? 10 d.text = some (d.toNat : Int) := by
    simp only [Numeral.integer?, htrim, hsplit, hbase, d.digitsIn?_text]
    split
    case h_1 hnone => cases hnone
    case h_2 hnil => exact absurd (Option.some.inj hnil) d.values_ne_nil
    case h_3 heq =>
      rw [← Option.some.inj heq]
      simp [hlength, toNat]
  rw [Numeral.integer, hread]

end Digits

/-! ## The text of a number -/

/-- An exponent starts with its mark. -/
theorem Amount.head_exponentText
    (e : Option Exponent) :
    ∀ c ∈ (exponentText e).head?, c = 'e' ∨ c = 'E' := by
  cases e with
  | none => simp [exponentText]
  | some e =>
    rintro c ⟨⟩
    exact e.isMark

/-- Behind the whole part comes a point or the mark of an exponent. -/
theorem Amount.head_rest
    (f : Option Digits)
    (e : Option Exponent) :
    ∀ c ∈ (fractionText f ++ exponentText e).head?, c ∈ marks := by
  cases f with
  | none =>
    intro c hc
    rcases head_exponentText e c hc with rfl | rfl <;> decide
  | some d =>
    rintro c ⟨⟩
    decide

namespace Exponent

variable (e : Exponent)

theorem mem_text
    {c : CodePoint}
    (h : c ∈ e.text) :
    c.isAsciiDigit = true ∨ c ∈ marks := by
  simp only [text, List.mem_cons, List.mem_append, Option.mem_toList] at h
  rcases h with rfl | hsign | hdigit
  · rcases e.isMark with hmark | hmark <;> rw [hmark] <;> exact .inr (by decide)
  · rcases e.isSign c hsign with rfl | rfl <;> exact .inr (by decide)
  · exact .inl (e.digits.isAsciiDigit_of_mem hdigit)

/-- The sign of an exponent is taken off its digits. -/
theorem splitSign_tail :
    Numeral.splitSign (e.sign.toList ++ e.digits.text) =
      (decide (e.sign = some ('-' : CodePoint)), e.digits.text) := by
  cases hsign : e.sign with
  | some c => rcases e.isSign c hsign with rfl | rfl <;> rfl
  | none => simpa using e.digits.splitSign_append []

/-- An exponent with a small mark. -/
def lowered : Exponent := { e with mark := 'e', isMark := .inl rfl }

theorem map_lower : e.text.map CodePoint.lower = e.lowered.text := by
  have hmark : e.mark.lower = 'e' := by rcases e.isMark with h | h <;> rw [h] <;> decide +kernel
  have hsign : e.sign.toList.map CodePoint.lower = e.sign.toList := by
    cases hsign : e.sign with
    | none => rfl
    | some c => rcases e.isSign c hsign with rfl | rfl <;> decide +kernel
  simp [text, lowered, hmark, hsign, e.digits.map_lower]

theorem exponent?_text : Numeral.exponent? e.text = some e.toInt := by
  have hlower : e.mark.lowerAscii = 'e' := by rcases e.isMark with h | h <;> rw [h] <;> decide
  have hdigits := @Digits.spanDecimal_append e.digits [] (by simp)
  rw [List.append_nil] at hdigits
  cases hvalues : e.digits.values with
  | nil => exact absurd hvalues e.digits.values_ne_nil
  | cons d ds =>
    simp only [Numeral.exponent?, text, hlower, if_true, e.splitSign_tail, hdigits, hvalues]
    simp [toInt, Digits.toNat, hvalues]

end Exponent

namespace Amount

variable (a : Amount)

theorem mem_body
    {c : CodePoint}
    (h : c ∈ a.body) :
    c.isAsciiDigit = true ∨ c ∈ marks := by
  simp only [body, List.mem_append] at h
  rcases h with hwhole | hfraction | hexponent
  · exact .inl (a.whole.isAsciiDigit_of_mem hwhole)
  · cases hf : a.fraction with
    | none => simp [hf, fractionText] at hfraction
    | some d =>
      simp only [hf, fractionText, List.mem_cons] at hfraction
      rcases hfraction with rfl | hdigit
      · exact .inr (by decide)
      · exact .inl (d.isAsciiDigit_of_mem hdigit)
  · cases he : a.exponent with
    | none => simp [he, exponentText] at hexponent
    | some e => exact e.mem_text (by simpa [he, exponentText] using hexponent)

theorem mem_text
    {c : CodePoint}
    (h : c ∈ a.text) :
    c.isAsciiDigit = true ∨ c ∈ marks := by
  simp only [text, List.mem_append] at h
  rcases h with hsign | hbody
  · cases hminus : a.minus with
    | false => simp [signText, hminus] at hsign
    | true =>
      simp only [signText, hminus, if_true, List.mem_singleton] at hsign
      exact .inr (hsign ▸ by decide)
  · exact a.mem_body hbody

/-- A number without its sign starts with a digit. -/
theorem exists_body_eq : ∃ c rest, a.body = c :: rest ∧ c.isAsciiDigit = true := by
  cases hwhole : a.whole.text with
  | nil => exact absurd hwhole a.whole.ne_nil
  | cons c rest =>
    refine ⟨c, _, by rw [body, hwhole, List.cons_append], ?_⟩
    exact a.whole.isAsciiDigit_of_mem (hwhole ▸ List.mem_cons_self)

theorem exists_text_eq :
    ∃ c rest, a.text = c :: rest ∧ (c.isAsciiDigit = true ∨ c = '-') := by
  cases hminus : a.minus with
  | false =>
    obtain ⟨c, rest, hbody, hdigit⟩ := a.exists_body_eq
    exact ⟨c, rest, by simp [text, signText, hminus, hbody], .inl hdigit⟩
  | true => exact ⟨'-', a.body, by simp [text, signText, hminus], .inr rfl⟩

theorem splitSign_body : Numeral.splitSign a.body = (false, a.body) :=
  a.whole.splitSign_append _

theorem splitSign_text : Numeral.splitSign a.text = (a.minus, a.body) := by
  cases hminus : a.minus with
  | false => simpa [text, signText, hminus] using a.splitSign_body
  | true => simp [text, signText, hminus, Numeral.splitSign]

theorem dropSign_text : Markup.dropSign a.text = a.body := by
  rw [← Numeral.splitSign_snd, a.splitSign_text]

theorem trim_text : a.text.trim = a.text :=
  Text.trim_eq_self fun _ h => not_isBlank_of_numeral (a.mem_text h)

theorem trim_body : a.body.trim = a.body :=
  Text.trim_eq_self fun _ h => not_isBlank_of_numeral (a.mem_body h)

/-! ## Floating-point numbers -/

theorem exponent?_exponentText : Numeral.exponent? (exponentText a.exponent) = some a.power := by
  cases he : a.exponent with
  | none => simp [exponentText, power, he, Numeral.exponent?]
  | some e => simp [exponentText, power, he, e.exponent?_text]

theorem head_rest_not_isDecimal :
    ∀ c ∈ (fractionText a.fraction ++ exponentText a.exponent).head?, c.isDecimal = false :=
  fun c hc => (CodePoint.of_mem_marks (head_rest _ _ c hc)).1

theorem head_exponentText_not_isDecimal :
    ∀ c ∈ (exponentText a.exponent).head?, c.isDecimal = false := by
  intro c hc
  rcases head_exponentText a.exponent c hc with rfl | rfl
  · exact (CodePoint.of_mem_marks (by decide)).1
  · exact (CodePoint.of_mem_marks (by decide)).1

/-- A number without its sign is read as its digits and its power of ten. -/
theorem positional?_body
    (negative : Bool) :
    Numeral.positional? negative a.body = some (a.rounded negative) := by
  have hne := a.whole.values_ne_nil
  rw [rounded, Numeral.positional?, body, a.whole.spanDecimal_append a.head_rest_not_isDecimal]
  cases hf : a.fraction with
  | none =>
    have hexponent := a.exponent?_exponentText
    cases htail : exponentText a.exponent with
    | nil =>
      rw [htail] at hexponent
      simp [fractionText, fractionValues, hf, hexponent, hne]
    | cons c rest =>
      have hmark : c ≠ '.' := by
        rcases head_exponentText a.exponent c (by simp [htail]) with rfl | rfl <;> decide
      rw [htail] at hexponent
      simp [fractionText, fractionValues, hf, hexponent, hmark, hne]
  | some d =>
    simp [fractionText, fractionValues, hf,
      d.spanDecimal_append a.head_exponentText_not_isDecimal, a.exponent?_exponentText, hne]

/-- A number without its sign starts with a digit, so it is not a word that starts otherwise. -/
theorem lowerAscii_body_ne
    {word : Text}
    (h : word.head?.any isAsciiDigit = false) :
    a.body.lowerAscii ≠ word := by
  obtain ⟨c, rest, hbody, hdigit⟩ := a.exists_body_eq
  have hcapital : c.within 0x41 0x5A = false := by
    simp only [isAsciiDigit, within, Bool.and_eq_true, decide_eq_true_eq] at hdigit
    simp only [within, Bool.and_eq_false_iff, decide_eq_false_iff_not]
    omega
  rintro rfl
  simp [hbody, Text.lowerAscii, lowerAscii, hcapital, hdigit] at h

theorem float?_of_splitSign
    {t : Text}
    {negative : Bool}
    (htrim : t.trim = t)
    (hsplit : Numeral.splitSign t = (negative, a.body)) :
    Numeral.float? t = some (a.rounded negative) := by
  have hinf : ¬ (a.body.lowerAscii = "inf" ∨ a.body.lowerAscii = "infinity") := by
    rintro (h | h)
    · exact a.lowerAscii_body_ne (by decide) h
    · exact a.lowerAscii_body_ne (by decide) h
  have hnan : a.body.lowerAscii ≠ "nan" := a.lowerAscii_body_ne (by decide)
  simp only [Numeral.float?, htrim, hsplit, if_neg hinf, if_neg hnan, a.positional?_body]

theorem float_text : Numeral.float a.text = .ok a.toFloat := by
  rw [Numeral.float, a.float?_of_splitSign a.trim_text a.splitSign_text, toFloat]

theorem float_body : Numeral.float a.body = .ok (a.rounded false) := by
  rw [Numeral.float, a.float?_of_splitSign a.trim_body a.splitSign_body]

/-! ## Tags -/

/-- A number is no word for a truth value or for null: it starts with a digit or a minus. -/
theorem text_notMem_words : a.text ∉ Markup.truthWords ++ Markup.nullWords := by
  intro hmem
  have hall : ((Markup.truthWords ++ Markup.nullWords).all fun word =>
      word.head?.all fun c : CodePoint => !c.isAsciiDigit && c != '-') = true := by decide
  obtain ⟨c, rest, htext, hc⟩ := a.exists_text_eq
  have hword := List.all_eq_true.1 hall a.text hmem
  rcases hc with hdigit | hminus
  · simp [htext, hdigit] at hword
  · simp [htext, hminus] at hword

theorem impliedTag_text :
    Markup.impliedTag a.text =
      if Markup.looksFloat a.text then .float
      else if Markup.looksInt a.text then .int
      else .other := by
  obtain ⟨htruth, hnull⟩ := not_or.1 (mt List.mem_append.2 a.text_notMem_words)
  simp [Markup.impliedTag, htruth, hnull]

end Amount

end Json

namespace Markup

theorem mem_of_mem_dropSign
    {c : CodePoint}
    {t : Text}
    (h : c ∈ dropSign t) :
    c ∈ t := by
  cases t with
  | nil => exact h
  | cons d rest =>
    simp only [dropSign] at h
    split at h
    · exact List.mem_cons_of_mem _ h
    · exact h

/-- Without a point nothing looks like a floating-point number. -/
theorem looksFloat_eq_false
    {t : Text}
    (h : ('.' : CodePoint) ∉ t) :
    looksFloat t = false := by
  have hbody : ('.' : CodePoint) ∉ dropSign t := fun hmem => h (mem_of_mem_dropSign hmem)
  have htail : ((dropSign t).dropWhile fun c => c != ('.' : CodePoint)) = [] := by
    refine List.dropWhile_eq_nil_iff.2 fun c hc => ?_
    simp only [bne_iff_ne, ne_eq]
    rintro rfl
    exact hbody hc
  have hinf : ∀ word : Text, ('.' : CodePoint) ∈ word → dropSign t ≠ word :=
    fun word hword heq => hbody (heq ▸ hword)
  have hnan : ∀ word : Text, ('.' : CodePoint) ∈ word → t ≠ word :=
    fun word hword heq => h (heq ▸ hword)
  simp only [looksFloat, htail, Bool.false_or, beq_eq_false_iff_ne.2 (hinf ".inf" (by decide)),
    beq_eq_false_iff_ne.2 (hinf ".Inf" (by decide)),
    beq_eq_false_iff_ne.2 (hinf ".INF" (by decide)),
    beq_eq_false_iff_ne.2 (hnan ".nan" (by decide)),
    beq_eq_false_iff_ne.2 (hnan ".NaN" (by decide)),
    beq_eq_false_iff_ne.2 (hnan ".NAN" (by decide)), Bool.or_false]
  split
  case h_1 p _ _ =>
    have hpoint : p ≠ '.' := by
      rintro rfl
      exact h List.mem_cons_self
    simp [hpoint]
  case h_2 => rfl

/-- A text without a colon is no number in base sixty. -/
theorem isSexagesimal_eq_false
    {t : Text}
    (first : Text → Bool)
    (h : (':' : CodePoint) ∉ t) :
    isSexagesimal first t = false := by
  have hsplit : Text.splitOn ':' t = [t] := by
    induction t with
    | nil => rfl
    | cons c rest ih =>
      obtain ⟨hc, hrest⟩ := not_or.1 (mt List.mem_cons.2 h)
      rw [Text.splitOn, if_neg (Ne.symm hc), ih hrest]
  rw [isSexagesimal, hsplit]

/-- A point or the mark of an exponent keeps a text without the letters of bases and without colons
from being an integer: it is neither an octal nor a decimal digit. -/
theorem looksInt_eq_false
    {t : Text}
    {mark : CodePoint}
    (hmark : mark ∈ (['.', 'e', 'E'] : Text))
    (hmem : mark ∈ dropSign t)
    (hletters : ∀ c ∈ (['b', 'x', ':'] : Text), c ∉ dropSign t) :
    looksInt t = false := by
  have hall : ((['.', 'e', 'E'] : Text).all fun m => m != '0' &&
      !(m.within 0x30 0x37 || m == '_') && !m.within 0x31 0x39 && !isSpacedDigit m) = true := by
    decide
  have hclass := List.all_eq_true.1 hall mark hmark
  simp only [Bool.and_eq_true, bne_iff_ne, Bool.not_eq_true', and_assoc] at hclass
  obtain ⟨hzero, hoctal, hlead, hspaced⟩ := hclass
  have hrest : ∀ {c : CodePoint} {rest : Text}, mark ≠ c → dropSign t = c :: rest → mark ∈ rest :=
    fun hne heq => (List.mem_cons.1 (heq ▸ hmem)).resolve_left hne
  have hbase : ∀ base : Text, (∃ c ∈ base, c ∈ (['b', 'x', ':'] : Text)) →
      base.isPrefixOf (dropSign t) = false := by
    rintro base ⟨c, hc, hletter⟩
    refine Bool.eq_false_iff.2 fun hpre => hletters c hletter ?_
    exact (List.isPrefixOf_iff_prefix.1 hpre).subset hc
  have hoct : ((Text.ofString "0").isPrefixOf (dropSign t) && isRun (fun c =>
      c.within 0x30 0x37 || c == '_') ((dropSign t).drop "0".length)) = false := by
    refine Bool.eq_false_iff.2 fun hboth => ?_
    obtain ⟨hpre, hrun⟩ := Bool.and_eq_true_iff.1 hboth
    obtain ⟨rest, heq⟩ := List.isPrefixOf_iff_prefix.1 hpre
    have hin : mark ∈ rest := hrest hzero heq.symm
    rw [← heq] at hrun
    have hdigit := List.all_eq_true.1 (Bool.and_eq_true_iff.1 hrun).2 mark hin
    rw [hoctal] at hdigit
    cases hdigit
  have hten : isPlainDecimal (dropSign t) = false := by
    refine Bool.eq_false_iff.2 fun hplain => ?_
    cases hbody : dropSign t with
    | nil => simp [hbody] at hmem
    | cons c rest =>
      rw [hbody, isPlainDecimal, Bool.and_eq_true] at hplain
      have hne : mark ≠ c := by
        rintro rfl
        rw [hlead] at hplain
        cases hplain.1
      have hdigit := List.all_eq_true.1 hplain.2 mark (hrest hne hbody)
      rw [hspaced] at hdigit
      cases hdigit
  have honly : dropSign t ≠ ("0" : Text) := by
    intro heq
    rw [heq] at hmem
    exact hzero (List.mem_singleton.1 hmem)
  have hcolon := isSexagesimal_eq_false isPlainDecimal (hletters ':' (by decide))
  simp only [looksInt, hoct, hten, hcolon, beq_eq_false_iff_ne.2 honly,
    hbase "0b" ⟨'b', by decide⟩, hbase "0x" ⟨'x', by decide⟩, Bool.false_and, Bool.or_false]

end Markup

namespace Text

/-- Away from the two letters that need more than one step, letters are lowered one by one. -/
theorem lower_eq_map
    {t : Text}
    (h : ∀ c ∈ t, c ≠ 0x130 ∧ c ≠ 0x3A3) :
    t.lower = t.map CodePoint.lower := by
  have hfrom : ∀ behind, t.lowerFrom behind = t.map CodePoint.lower := by
    induction t with
    | nil => exact fun _ => rfl
    | cons c rest ih =>
      intro behind
      obtain ⟨hdotted, hsigma⟩ := h c List.mem_cons_self
      simp [lowerFrom, hdotted, hsigma, ih fun d hd => h d (List.mem_cons_of_mem _ hd)]
  exact hfrom false

end Text

namespace Json

namespace Whole

variable (w : Whole)

/-- A whole part is a zero or a plain decimal number. -/
theorem eq_zero_or_isPlainDecimal :
    w.text = [('0' : CodePoint)] ∨ Markup.isPlainDecimal w.text = true ∧ w.text.head? ≠ some ('0' : CodePoint) := by
  cases hwhole : w.text with
  | nil => exact absurd hwhole w.ne_nil
  | cons c rest =>
    have hdigit : ∀ d ∈ c :: rest, d.isAsciiDigit = true := fun d hd =>
      w.isAsciiDigit_of_mem (hwhole ▸ hd)
    by_cases hzero : c = '0'
    · have hlength := w.leads (by rw [hwhole, hzero]; rfl)
      rw [hwhole, List.length_cons, Nat.add_eq_right, List.length_eq_zero_iff] at hlength
      exact .inl (by rw [hzero, hlength])
    · refine .inr ⟨?_, by simpa using hzero⟩
      rw [Markup.isPlainDecimal, Bool.and_eq_true]
      constructor
      · have hfirst := hdigit c List.mem_cons_self
        have hval : c.val ≠ 0x30 := fun h => hzero (Fin.ext h)
        simp only [CodePoint.isAsciiDigit, CodePoint.within, Bool.and_eq_true,
          decide_eq_true_eq] at hfirst ⊢
        omega
      · refine List.all_eq_true.2 fun d hd => ?_
        simp [Markup.isSpacedDigit, hdigit d (List.mem_cons_of_mem _ hd)]

end Whole

namespace Amount

variable {a : Amount}

/-! ## Integers -/

theorem body_of_isInteger
    (h : a.isInteger = true) :
    a.body = a.whole.text := by
  simp only [isInteger, Bool.and_eq_true, Option.isNone_iff_eq_none] at h
  simp [body, h.1, h.2, fractionText, exponentText]

theorem impliedTag_of_isInteger
    (h : a.isInteger = true) :
    Markup.impliedTag a.text = .int := by
  have hpoint : ('.' : CodePoint) ∉ a.text := by
    intro hmem
    rw [text, body_of_isInteger h, List.mem_append] at hmem
    rcases hmem with hsign | hwhole
    · cases hminus : a.minus with
      | false => simp [signText, hminus] at hsign
      | true => revert hsign; simp [signText, hminus]; decide
    · have hdigit := a.whole.isAsciiDigit_of_mem hwhole
      revert hdigit
      decide
  have hint : Markup.looksInt a.text = true := by
    rcases a.whole.eq_zero_or_isPlainDecimal with hzero | ⟨hplain, -⟩
    · simp [Markup.looksInt, a.dropSign_text, body_of_isInteger h, hzero, Text.ofString]
    · simp [Markup.looksInt, a.dropSign_text, body_of_isInteger h, hplain]
  simp [a.impliedTag_text, Markup.looksFloat_eq_false hpoint, hint]

theorem dropSeparators_text : Markup.dropSeparators a.text = a.text := by
  refine List.filter_eq_self.2 fun c hc => ?_
  exact CodePoint.of_numeral (· != '_') (by decide) (a.mem_text hc)

/-- An integer is read as it stands, for it has no zero in front of other digits. -/
theorem integerOf_of_isInteger
    (h : a.isInteger = true)
    (hdigits : a.WithinDigits) :
    Markup.integerOf a.text = .ok a.toInt := by
  have hsigned : Markup.signed a.text = .ok (a.minus, a.whole.text) := by
    obtain ⟨_, _, htext, -⟩ := a.exists_text_eq
    have hsplit := a.splitSign_text
    rw [body_of_isInteger h, htext] at hsplit
    rw [htext, Markup.signed, hsplit]
    simp
  have hten := a.whole.integer_text (hdigits h)
  rw [Markup.integerOf, dropSeparators_text, hsigned]
  rcases a.whole.eq_zero_or_isPlainDecimal with hzero | ⟨hplain, hhead⟩
  · have hvalue : a.whole.toNat = 0 := by
      simp [Digits.toNat, Digits.values, hzero, Text.valueOf]
      decide
    simp [hzero, hvalue, toInt, bind, Except.bind, pure, Except.pure, Text.ofString]
  · have hprefix : ∀ base : Text, base.head? = some ('0' : CodePoint) → base.isPrefixOf a.whole.text = false := by
      intro base hbase
      refine Bool.eq_false_iff.2 fun hpre => hhead ?_
      obtain ⟨rest, heq⟩ := List.isPrefixOf_iff_prefix.1 hpre
      rw [← heq]
      cases base with
      | nil => cases hbase
      | cons c tail => simpa using hbase
    have hcolon : (':' : CodePoint) ∉ a.whole.text := by
      intro hmem
      have hdigit := a.whole.isAsciiDigit_of_mem hmem
      revert hdigit
      decide
    have honly : (a.whole.text == ("0" : Text)) = false := by
      refine beq_eq_false_iff_ne.2 fun heq => hhead ?_
      rw [heq]
      rfl
    cases hwhole : a.whole.text with
    | nil => exact absurd hwhole a.whole.ne_nil
    | cons c rest =>
      have hc : c ≠ '0' := fun hc => hhead (by rw [hwhole, hc]; rfl)
      rw [hwhole] at hten hcolon honly hprefix
      rw [← List.contains_iff_mem, Bool.not_eq_true] at hcolon
      simp only [bind, Except.bind, pure, Except.pure, honly, hprefix "0b" rfl, hprefix "0x" rfl,
        beq_eq_false_iff_ne.2 hc, hcolon, hten, toInt, Bool.false_eq_true, if_false]

/-! ## Other numbers -/

/-- A number that is no integer has a point or the mark of an exponent. -/
theorem exists_mark
    (h : a.isInteger = false) :
    ∃ mark ∈ (['.', 'e', 'E'] : Text), mark ∈ a.body := by
  cases hf : a.fraction with
  | some d => exact ⟨'.', by decide, by simp [body, hf, fractionText]⟩
  | none =>
    cases he : a.exponent with
    | none => simp [isInteger, hf, he] at h
    | some e =>
      refine ⟨e.mark, ?_, by simp [body, he, exponentText, Exponent.text]⟩
      rcases e.isMark with hmark | hmark <;> rw [hmark] <;> decide

/-- The tag of a number that is no integer is the one of floating-point numbers, unless its exponent
has no sign. -/
theorem impliedTag_of_real
    (h : a.isInteger = false) :
    Markup.impliedTag a.text = .float ∨ Markup.impliedTag a.text = .other := by
  obtain ⟨mark, hmark, hmem⟩ := exists_mark h
  have hint : Markup.looksInt a.text = false := by
    refine Markup.looksInt_eq_false hmark (a.dropSign_text ▸ hmem) fun c hc hbody => ?_
    rw [a.dropSign_text] at hbody
    have hall := CodePoint.of_numeral (fun d => !(['b', 'x', ':'] : Text).contains d) (by decide)
      (a.mem_body hbody)
    simp only [Bool.not_eq_true', ← Bool.not_eq_true, List.contains_iff_mem] at hall
    exact hall hc
  rw [a.impliedTag_text, hint]
  cases Markup.looksFloat a.text
  · exact .inr rfl
  · exact .inl rfl

variable (a)

theorem afterWhole_body :
    Numeral.afterWhole a.body = some (fractionText a.fraction ++ exponentText a.exponent) := by
  rcases a.whole.eq_zero_or_isPlainDecimal with hzero | ⟨hplain, -⟩
  · simp [body, hzero, Numeral.afterWhole]
  · have hdrop := (a.whole.span_append a.head_rest_not_isDecimal).2
    cases hwhole : a.whole.text with
    | nil => exact absurd hwhole a.whole.ne_nil
    | cons c rest =>
      have hdecimal := a.whole.isDecimal_of_mem (hwhole ▸ List.mem_cons_self)
      rw [hwhole, Markup.isPlainDecimal, Bool.and_eq_true] at hplain
      have hzero : c ≠ '0' := by
        rintro rfl
        cases hplain.1
      rw [hwhole, List.cons_append, List.dropWhile_cons, if_pos hdecimal] at hdrop
      simp [body, hwhole, Numeral.afterWhole, hzero, hplain.1, hdrop]

theorem afterFraction_rest :
    Numeral.afterFraction (fractionText a.fraction ++ exponentText a.exponent) =
      some (exponentText a.exponent) := by
  cases hf : a.fraction with
  | some d =>
    simp [fractionText, Numeral.afterFraction,
      d.spanDecimals_append a.head_exponentText_not_isDecimal]
  | none =>
    rw [fractionText, List.nil_append]
    cases he : exponentText a.exponent with
    | nil => rfl
    | cons c rest =>
      have hpoint : c ≠ '.' := by
        rcases head_exponentText a.exponent c (by simp [he]) with rfl | rfl <;> decide
      simp [Numeral.afterFraction, hpoint]

theorem afterExponent_text : Numeral.afterExponent (exponentText a.exponent) = some [] := by
  cases he : a.exponent with
  | none => rfl
  | some e =>
    have hdigits := @Digits.spanDecimals_append e.digits [] (by simp)
    rw [List.append_nil] at hdigits
    simp [exponentText, Exponent.text, Numeral.afterExponent, e.isMark, ← Numeral.splitSign_snd,
      e.splitSign_tail, hdigits]

/-- A number is recognized as a number of JSON. -/
theorem looksJsonNumber_text : Markup.looksJsonNumber a.text = true := by
  have hunsigned : Numeral.unsigned a.text = a.body := by
    cases hminus : a.minus with
    | true => simp [text, signText, hminus, Numeral.unsigned]
    | false =>
      obtain ⟨c, rest, hbody, hdigit⟩ := a.exists_body_eq
      simp [text, signText, hminus, hbody, Numeral.unsigned,
        (CodePoint.ne_sign_of_isAsciiDigit hdigit).1]
  rw [Numeral.looksJsonNumber_eq, hunsigned, a.afterWhole_body, Option.bind_some,
    a.afterFraction_rest, Option.bind_some, a.afterExponent_text]
  rfl

/-- The number with a small mark in front of its exponent. -/
def lowered : Amount :=
  { a with exponent := a.exponent.map Exponent.lowered }

theorem rounded_lowered
    (negative : Bool) :
    a.lowered.rounded negative = a.rounded negative := by
  have hpower : a.lowered.power = a.power := by
    simp only [power, lowered, Option.map_map]
    rfl
  rw [rounded, rounded, hpower]
  rfl

theorem lower_text : a.text.lower = a.lowered.text := by
  have hsimple : ∀ c ∈ a.text, c ≠ 0x130 ∧ c ≠ 0x3A3 := by
    intro c hc
    have hne := CodePoint.of_numeral (fun d => d != 0x130 && d != 0x3A3) (by decide) (a.mem_text hc)
    simpa using hne
  have hsign : a.signText.map CodePoint.lower = a.lowered.signText := by
    cases hminus : a.minus with
    | false => simp [signText, lowered, hminus]
    | true => simp [signText, lowered, hminus]; decide +kernel
  have hfraction : (fractionText a.fraction).map CodePoint.lower = fractionText a.fraction := by
    cases a.fraction with
    | none => rfl
    | some d =>
      have hpoint : CodePoint.lower '.' = '.' := by decide +kernel
      rw [fractionText, List.map_cons, d.map_lower, hpoint]
  have hexponent : (exponentText a.exponent).map CodePoint.lower =
      exponentText a.lowered.exponent := by
    cases he : a.exponent with
    | none => simp [lowered, he, exponentText]
    | some e => simp [lowered, he, exponentText, e.map_lower]
  rw [Text.lower_eq_map hsimple, text, body, List.map_append, List.map_append, List.map_append,
    hsign, a.whole.map_lower, hfraction, hexponent]
  rfl

/-- A number with the tag of floating-point numbers is read without its sign. -/
theorem floatOf_text : Markup.floatOf a.text = .ok a.toFloat := by
  have hsigned : Markup.signed a.lowered.text = .ok (a.minus, a.lowered.body) := by
    obtain ⟨_, _, htext, -⟩ := a.lowered.exists_text_eq
    have hsplit := a.lowered.splitSign_text
    rw [htext] at hsplit
    rw [htext, Markup.signed, hsplit]
    · rfl
    · simp
  have hword : ∀ word : Text, word.head? = some ('.' : CodePoint) →
      (a.lowered.body == word) = false := by
    intro word hhead
    refine beq_eq_false_iff_ne.2 fun heq => ?_
    obtain ⟨c, rest, hbody, hdigit⟩ := a.lowered.exists_body_eq
    rw [← heq, hbody] at hhead
    rw [Option.some.inj hhead] at hdigit
    revert hdigit
    decide
  have hcolon : a.lowered.body.contains (':' : CodePoint) = false := by
    refine Bool.eq_false_iff.2 fun hmem => ?_
    have hne := CodePoint.of_numeral (· != ':') (by decide)
      (a.lowered.mem_body (List.contains_iff_mem.1 hmem))
    simp at hne
  have hvalue : (if a.minus then (a.lowered.rounded false).negate else a.lowered.rounded false) =
      a.toFloat := by
    rw [a.rounded_lowered, toFloat]
    cases a.minus with
    | false => rw [if_neg Bool.false_ne_true]
    | true => rw [if_pos rfl, rounded, rounded, Binary64.negate_ofDecimal]
  rw [Markup.floatOf, a.dropSeparators_text, a.lower_text, hsigned]
  simp only [bind, Except.bind, pure, Except.pure, hword ".inf" rfl, hword ".nan" rfl, hcolon,
    a.lowered.float_body, Bool.false_eq_true, if_false, hvalue]

/-- A number of JSON is read as its value, whatever tag its text gets. -/
theorem scalarTree_text
    (hdigits : a.WithinDigits)
    (span : Span) :
    ∃ n, Markup.scalarTree span (Markup.impliedTag a.text) a.text .plain = .ok (.number span n) ∧
      n.toValue = a.value := by
  cases hint : a.isInteger with
  | true =>
    refine ⟨.int a.toInt, ?_, by simp [value, hint, Number.toValue]⟩
    simp [impliedTag_of_isInteger hint, Markup.scalarTree, integerOf_of_isInteger hint hdigits,
      Except.map]
  | false =>
    refine ⟨.float a.toFloat, ?_, by simp [value, hint, Number.toValue]⟩
    rcases impliedTag_of_real hint with htag | htag
    · simp [htag, Markup.scalarTree, a.floatOf_text, Except.map]
    · simp [htag, Markup.scalarTree, a.looksJsonNumber_text, a.float_text, Except.map]

end Amount

end Json

end Workflow
