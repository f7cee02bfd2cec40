import Mathlib.Data.List.Chain
import Workflow.Text.Units

/-!
# Joined surrogate pairs

A text has more than one spelling in 16-bit units only through surrogates: a high surrogate with a
low one directly behind it has the same units as the one code point that the pair stands for.  A
text without such neighbours is read back from its units, so it is determined by them.  Joining the
pairs of a text from the left keeps its units and leaves no such neighbours, whatever surrogates
stand alone or overlap; so it finds the only text of that kind.
-/

namespace Workflow

namespace CodePoint

/-- A high surrogate and a low one. -/
def Halves (high low : CodePoint) : Prop :=
  high.isHighSurrogate = true ∧ low.isLowSurrogate = true

theorem val_of_isHighSurrogate
    {c : CodePoint} (h : c.isHighSurrogate = true) :
    0xD800 ≤ c.val ∧ c.val ≤ 0xDBFF := by
  simpa [isHighSurrogate, within] using h

theorem val_of_isLowSurrogate
    {c : CodePoint} (h : c.isLowSurrogate = true) :
    0xDC00 ≤ c.val ∧ c.val ≤ 0xDFFF := by
  simpa [isLowSurrogate, within] using h

/-- What a pair stands for lies behind all code points of one unit. -/
theorem val_ofPair
    {high low : CodePoint} (h : Halves high low) :
    (ofPair high low).val = 0x10000 + (high.val - 0xD800) * 0x400 + (low.val - 0xDC00) := by
  have hhigh := val_of_isHighSurrogate h.1
  have hlow := val_of_isLowSurrogate h.2
  rw [ofPair, ofNatD, dif_pos (by omega)]

theorem units_of_lt
    {c : CodePoint} (h : c.val < 0x10000) :
    c.units = [c.val] := by
  rw [units, if_pos h]

/-- A pair has the units of its halves. -/
theorem units_ofPair
    {high low : CodePoint} (h : Halves high low) :
    (ofPair high low).units = high.units ++ low.units := by
  have hhigh := val_of_isHighSurrogate h.1
  have hlow := val_of_isLowSurrogate h.2
  rw [units_of_lt (show high.val < 0x10000 by omega), units_of_lt (show low.val < 0x10000 by omega),
    units, val_ofPair h, if_neg (by omega), List.singleton_append]
  simp only [List.cons.injEq, and_true]
  omega

theorem not_isLowSurrogate_ofPair
    {high low : CodePoint} (h : Halves high low) :
    (ofPair high low).isLowSurrogate = false := by
  have hval := val_ofPair h
  rw [isLowSurrogate, within, Bool.and_eq_false_iff]
  right
  rw [decide_eq_false_iff_not]
  omega

end CodePoint

namespace Text

open CodePoint

/-- No high surrogate stands directly in front of a low one. -/
def Joined (t : Text) : Prop := t.IsChain fun c d => ¬ Halves c d

/-- Whether a 16-bit unit is the first half of a pair. -/
def isHighUnit (u : Nat) : Bool := decide (0xD800 ≤ u) && decide (u ≤ 0xDBFF)

/-- Whether a 16-bit unit is the second half of a pair. -/
def isLowUnit (u : Nat) : Bool := decide (0xDC00 ≤ u) && decide (u ≤ 0xDFFF)

/-- The code point of a unit that stands for itself; a number beyond 16 bits is no unit. -/
def ofUnit? (u : Nat) : Option CodePoint := if u < 0x10000 then some (ofNatD u) else none

/-- Reads 16-bit units from the left: the two halves of a pair are one code point, and any other
unit stands for itself. -/
def ofUnits? : List Nat → Option Text
  | [] => some []
  | [u] => (ofUnit? u).map fun c => [c]
  | u :: v :: rest =>
    if isHighUnit u && isLowUnit v then
      (ofUnits? rest).map
        (ofNatD (0x10000 + (u - 0xD800) * 0x400 + (v - 0xDC00)) :: ·)
    else (ofUnit? u).bind fun c => (ofUnits? (v :: rest)).map (c :: ·)

@[simp] theorem units_nil :
    units [] = [] := by
  rfl

theorem units_cons
    (c : CodePoint) (t : Text) :
    units (c :: t) = c.units ++ t.units := by
  rfl

/-! ## Joining -/

/-- Joining pairs changes no unit. -/
theorem units_joinPairs
    (t : Text) :
    t.joinPairs.units = t.units := by
  fun_induction joinPairs t with
  | case1 high low rest hpair ih =>
      rw [Bool.and_eq_true] at hpair
      rw [units_cons, ih, units_ofPair hpair, units_cons, units_cons, List.append_assoc]
  | case2 high low rest hpair ih =>
      rw [units_cons, ih, units_cons high]
  | case3 t hshort => rfl

/-- Where a joined text starts with a low surrogate, the text itself did. -/
theorem head?_joinPairs
    {t : Text} {d : CodePoint} (hd : d ∈ t.joinPairs.head?) (hlow : d.isLowSurrogate = true) :
    d ∈ t.head? := by
  fun_induction joinPairs t with
  | case1 high low rest hpair ih =>
      rw [Bool.and_eq_true] at hpair
      have heq : ofPair high low = d := Option.some.inj hd
      rw [← heq, not_isLowSurrogate_ofPair hpair] at hlow
      cases hlow
  | case2 high low rest hpair ih => exact hd
  | case3 t hshort => exact hd

/-- Joining leaves no high surrogate in front of a low one. -/
theorem joined_joinPairs
    (t : Text) :
    t.joinPairs.Joined := by
  fun_induction joinPairs t with
  | case1 high low rest hpair ih =>
      rw [Bool.and_eq_true] at hpair
      refine List.isChain_cons.mpr ⟨fun d hd hhalves => ?_, ih⟩
      have hval := val_ofPair hpair
      have hhigh := val_of_isHighSurrogate hhalves.1
      omega
  | case2 high low rest hpair ih =>
      refine List.isChain_cons.mpr ⟨fun d hd hhalves => ?_, ih⟩
      -- the next code point is the one that did not fit
      cases head?_joinPairs hd hhalves.2
      exact hpair ((Bool.and_eq_true _ _).mpr hhalves)
  | case3 t hshort =>
      match t, hshort with
      | [], _ => exact List.IsChain.nil
      | [c], _ => exact List.IsChain.singleton c
      | high :: low :: rest, hshort => exact absurd rfl (hshort high low rest)

/-! ## Reading back -/

theorem ofUnit?_val
    {c : CodePoint} (hc : c.val < 0x10000) :
    ofUnit? c.val = some c := by
  rw [ofUnit?, if_pos hc, ofNatD, dif_pos c.isLt]

/-- A code point of one unit is read by itself, unless a pair starts with it. -/
theorem ofUnits?_cons
    {c : CodePoint} {us : List Nat} (hc : c.val < 0x10000)
    (h : ∀ v ∈ us.head?, (isHighUnit c.val && isLowUnit v) = false) :
    ofUnits? (c.val :: us) = (ofUnits? us).map (c :: ·) := by
  cases us with
  | nil => simp only [ofUnits?, ofUnit?_val hc, Option.map_some]
  | cons v us =>
      rw [ofUnits?, h v rfl, if_neg Bool.false_ne_true, ofUnit?_val hc, Option.bind_some]

/-- The two units of a code point are read as this code point. -/
theorem ofUnits?_units_append
    {c : CodePoint} (hc : 0x10000 ≤ c.val) (us : List Nat) :
    ofUnits? (c.units ++ us) = (ofUnits? us).map (c :: ·) := by
  have hlt := c.isLt
  have hhigh : isHighUnit (0xD800 + (c.val - 0x10000) / 0x400) = true := by
    rw [isHighUnit, Bool.and_eq_true, decide_eq_true_eq, decide_eq_true_eq]
    omega
  have hlow : isLowUnit (0xDC00 + (c.val - 0x10000) % 0x400) = true := by
    rw [isLowUnit, Bool.and_eq_true, decide_eq_true_eq, decide_eq_true_eq]
    omega
  have hpoint : ofNatD (0x10000 + (0xD800 + (c.val - 0x10000) / 0x400 - 0xD800) * 0x400 +
      (0xDC00 + (c.val - 0x10000) % 0x400 - 0xDC00)) = c := by
    rw [ofNatD, dif_pos (by omega)]
    exact Fin.ext (by dsimp only; omega)
  rw [CodePoint.units, if_neg (Nat.not_lt.mpr hc), List.cons_append, List.cons_append, List.nil_append,
    ofUnits?, hhigh, hlow, Bool.and_self, if_pos rfl, hpoint]

/-- The units of a text start with a low surrogate only if the text does. -/
theorem head?_units
    {t : Text} {v : Nat} (hv : v ∈ t.units.head?) (hlow : isLowUnit v = true) :
    ∃ d ∈ t.head?, d.isLowSurrogate = true := by
  cases t with
  | nil => cases hv
  | cons d t =>
      refine ⟨d, rfl, ?_⟩
      rw [units_cons, CodePoint.units] at hv
      split at hv
      · cases hv
        exact hlow
      · have heq : 0xD800 + (d.val - 0x10000) / 0x400 = v := Option.some.inj hv
        have hlt := d.isLt
        rw [isLowUnit, Bool.and_eq_true, decide_eq_true_eq, decide_eq_true_eq] at hlow
        omega

/-- A joined text is read back from its units. -/
theorem ofUnits?_units
    {t : Text} (h : t.Joined) :
    ofUnits? t.units = some t := by
  induction t with
  | nil => rfl
  | cons c t ih =>
      obtain ⟨hnext, hrest⟩ := List.isChain_cons.mp h
      rw [units_cons]
      rcases Nat.lt_or_ge c.val 0x10000 with hc | hc
      · rw [units_of_lt hc, List.singleton_append, ofUnits?_cons hc ?_, ih hrest, Option.map_some]
        intro v hv
        rw [Bool.and_eq_false_iff, ← Bool.not_eq_true, ← Bool.not_eq_true, ← not_and_or]
        rintro ⟨hhigh, hlow⟩
        obtain ⟨d, hd, hd'⟩ := head?_units hv hlow
        exact hnext d hd ⟨hhigh, hd'⟩
      · rw [ofUnits?_units_append hc, ih hrest, Option.map_some]

/-- Among the texts with the same units there is only one joined text. -/
theorem Joined.eq_of_units_eq
    {t u : Text} (ht : t.Joined) (hu : u.Joined) (h : t.units = u.units) :
    t = u := by
  have hread := ofUnits?_units ht
  rw [h, ofUnits?_units hu] at hread
  exact (Option.some.inj hread).symm

/-- Joining the surrogate pairs of a text is reading its 16-bit units, which never fails.  The result
is the only text with these units in which no high surrogate stands directly in front of a low one.
So joining twice is joining once, and a text stays as it is exactly if it has no such neighbours. -/
theorem joinPairs_canonical
    (t : Text) :
    ofUnits? t.units = some t.joinPairs ∧
      (∀ u : Text, u = t.joinPairs ↔ u.units = t.units ∧ u.Joined) ∧
      t.joinPairs.joinPairs = t.joinPairs ∧
      (t.joinPairs = t ↔ t.Joined) := by
  have hunits := units_joinPairs t
  have hjoined := joined_joinPairs t
  refine ⟨?_, fun u => ⟨?_, ?_⟩, ?_, ?_, ?_⟩
  · rw [← hunits]
    exact ofUnits?_units hjoined
  · rintro rfl
    exact ⟨hunits, hjoined⟩
  · rintro ⟨hu, hujoined⟩
    exact hujoined.eq_of_units_eq hjoined (hu.trans hunits.symm)
  · exact (joined_joinPairs _).eq_of_units_eq hjoined (units_joinPairs _)
  · intro heq
    rw [← heq]
    exact hjoined
  · intro ht
    exact hjoined.eq_of_units_eq ht hunits

/-- Pairs are found from the left; halves that are left over stay. -/
example :
    joinPairs [0xD83D, 0xD83D, 0xDE00, 0xDE00, 0x1F600, 0xD83D] =
      [0xD83D, 0x1F600, 0xDE00, 0x1F600, 0xD83D] := by
  decide

end Text

end Workflow
