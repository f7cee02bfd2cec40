import Workflow.Proofs.JsonScalars
import Workflow.Proofs.TypedNumbers

/-!
# Pieces of text and written numbers

Cutting a text at a separator and putting pieces together again are the operations on lists of these
names.  The decimal notation of a number is a run of digits, and what is read from it is the number.
-/

namespace Workflow

namespace Text

theorem splitOn_eq_splitOn
    (sep : CodePoint) (t : Text) :
    splitOn sep t = List.splitOn sep t := by
  rw [List.splitOn_eq_splitOnP]
  induction t with
  | nil => rfl
  | cons c t ih =>
      rw [splitOn, ih, List.splitOnP_cons_eq_if_modifyHead]
      by_cases hc : c = sep
      · rw [if_pos hc, if_pos (beq_iff_eq.mpr hc)]
      · rw [if_neg hc, if_neg fun h => hc (beq_iff_eq.mp h)]
        cases hpieces : List.splitOnP (· == sep) t with
        | nil => exact absurd hpieces (List.splitOnP_ne_nil _ t)
        | cons piece pieces => rfl

theorem joinWith_eq_intercalate
    (sep : Text) (pieces : List Text) :
    joinWith sep pieces = sep.intercalate pieces := by
  fun_induction joinWith sep pieces with
  | case1 => rfl
  | case2 piece => simp
  | case3 piece pieces hpieces ih =>
      cases pieces with
      | nil => exact absurd rfl hpieces
      | cons next pieces => rw [ih, List.intercalate_cons_cons]

/-- A text without the separator is one piece. -/
theorem splitOn_of_notMem
    {sep : CodePoint} {t : Text} (h : sep ∉ t) :
    splitOn sep t = [t] := by
  have hsplit : List.splitOn sep ([sep].intercalate [t]) = [t] :=
    List.splitOn_intercalate sep (by simpa using h) (List.cons_ne_nil _ _)
  rw [splitOn_eq_splitOn]
  simpa using hsplit

/-- A separator ends a piece and starts the next one. -/
theorem splitOn_append_cons
    (sep : CodePoint) (t u : Text) :
    splitOn sep (t ++ sep :: u) = splitOn sep t ++ splitOn sep u := by
  simp only [splitOn_eq_splitOn, List.splitOn_eq_splitOnP]
  exact List.splitOnP_append_cons t u (beq_self_eq_true sep)

/-- The separator is in none of the pieces. -/
theorem notMem_of_mem_splitOn
    {sep : CodePoint} {t piece : Text} (h : piece ∈ splitOn sep t) :
    sep ∉ piece := by
  fun_induction splitOn sep t generalizing piece with
  | case1 =>
      rw [List.mem_singleton.mp h]
      exact List.not_mem_nil
  | case2 t ih =>
      rcases List.mem_cons.mp h with rfl | h
      · exact List.not_mem_nil
      · exact ih h
  | case3 c t hc hpieces ih =>
      rw [List.mem_singleton.mp h]
      simpa using Ne.symm hc
  | case4 c t hc first pieces hpieces ih =>
      rw [hpieces] at ih
      rcases List.mem_cons.mp h with rfl | h
      · exact List.not_mem_cons_of_ne_of_not_mem (Ne.symm hc) (ih List.mem_cons_self)
      · exact ih (List.mem_cons_of_mem _ h)

/-- The pieces of a text, put together, are the text. -/
theorem joinWith_splitOn
    (sep : CodePoint) (t : Text) :
    joinWith [sep] (splitOn sep t) = t := by
  rw [joinWith_eq_intercalate, splitOn_eq_splitOn, List.intercalate_splitOn]

/-! ## Decimal notation -/

theorem isAsciiDigit_of_mem_ofNat
    {n : Nat} {c : CodePoint} (h : c ∈ ofNat n) :
    c.isAsciiDigit = true := by
  obtain ⟨d, hd, rfl⟩ := List.mem_map.mp h
  have hdigit := Nat.isDigit_of_mem_toDigits (by decide) (by decide) hd
  rw [Char.isDigit_iff_toNat] at hdigit
  rw [CodePoint.isAsciiDigit, CodePoint.within, Bool.and_eq_true, decide_eq_true_eq,
    decide_eq_true_eq]
  exact hdigit

theorem of_mem_ofInt
    {n : Int} {c : CodePoint} (h : c ∈ ofInt n) :
    c = ('-' : Char) ∨ c.isAsciiDigit = true := by
  cases n with
  | ofNat n => exact Or.inr (isAsciiDigit_of_mem_ofNat h)
  | negSucc n =>
      rcases List.mem_cons.mp h with rfl | h
      · exact Or.inl rfl
      · exact Or.inr (isAsciiDigit_of_mem_ofNat h)

/-- The digits of a number in decimal notation. -/
def digitsOf (n : Nat) : Json.Digits where
  text := ofNat n
  isRun := by
    have hne : ofNat n ≠ [] := fun h => Nat.toDigits_ne_nil (List.map_eq_nil_iff.mp h)
    rw [Markup.isRun, Bool.and_eq_true, Bool.not_eq_true', List.isEmpty_eq_false_iff,
      List.all_eq_true]
    exact ⟨hne, fun c hc => isAsciiDigit_of_mem_ofNat hc⟩

theorem toNat_digitsOf
    (n : Nat) :
    (digitsOf n).toNat = n := by
  have hfold : (digitsOf n).toNat = Nat.ofDigitChars 10 (Nat.toDigits 10 n) 0 := by
    simp only [Json.Digits.toNat, Json.Digits.values, digitsOf, ofNat, valueOf, List.map_map,
      List.foldl_map, Nat.ofDigitChars, Nat.mul_comm 10]
    rfl
  rw [hfold, Nat.ofDigitChars_toDigits (by decide) (by decide)]

theorem isDecimals_ofNat
    (n : Nat) :
    (ofNat n).IsDecimals :=
  ⟨(digitsOf n).ne_nil, fun _ hc => (digitsOf n).isDecimal_of_mem hc⟩

end Text

/-- The decimal notation of a number denotes it. -/
theorem Numeral.position?_ofNat
    (n : Nat) :
    position? (Text.ofNat n) = some n := by
  obtain ⟨hne, hdecimals⟩ := Text.isDecimals_ofNat n
  have hdigits : ∀ c ∈ Text.ofNat n, c.isDigit = true := fun c hc =>
    (Bool.or_eq_true _ _).mpr (Or.inl (hdecimals c hc))
  have hvalues : (Text.ofNat n).mapM CodePoint.decimalValue? = some (Text.digitsOf n).values := by
    rw [← digitsIn?_of_isDigit hdigits]
    exact (Text.digitsOf n).digitsIn?_text
  rw [position?, if_neg (by simpa using hne), hvalues, Option.map_some]
  exact congrArg some (Text.toNat_digitsOf n)

/-- A number is read from its decimal notation. -/
theorem Numeral.integer_ofNat
    {n : Nat} (h : (Text.ofNat n).length ≤ maxDigits) :
    integer 10 (Text.ofNat n) = .ok (n : Int) := by
  have hread := (Text.digitsOf n).integer_text h
  rwa [Text.toNat_digitsOf] at hread

end Workflow
