import Mathlib.Data.List.Basic
import Workflow.Document.Lines

/-!
# Positions and offsets

The lines of a text start at increasing offsets, the first one at its beginning.  So every offset
lies on exactly one line, and going to its position and back leads to the same offset.  Positions
that belong to no offset are taken to the nearest end of their line, or of the text, which keeps
their order.
-/

namespace Workflow

/-- From line to line, and from left to right in a line. -/
instance : LT Position :=
  ⟨fun p q => p.line < q.line ∨ p.line = q.line ∧ p.character < q.character⟩

/-- The same order, with equal positions. -/
instance : LE Position :=
  ⟨fun p q => p.line < q.line ∨ p.line = q.line ∧ p.character ≤ q.character⟩

namespace Text

/-! ## Lines -/

/-- A line end is read before the next line starts, and inside of the text. -/
theorem lineStartsFrom_bounds
    (offset : Nat) (t : Text) :
    ∀ s ∈ lineStartsFrom offset t, offset < s ∧ s ≤ offset + t.length := by
  fun_induction lineStartsFrom offset t with
  | case1 offset => nofun
  | case2 offset c hend => simp
  | case3 offset c hend => nofun
  | case4 offset c d rest hboth ih =>
      intro s hs
      rw [List.length_cons, List.length_cons]
      rcases List.mem_cons.mp hs with rfl | hs
      · omega
      · have hbounds := ih s hs
        omega
  | case5 offset c d rest hboth hend ih =>
      intro s hs
      rw [List.length_cons]
      rcases List.mem_cons.mp hs with rfl | hs
      · omega
      · have hbounds := ih s hs
        omega
  | case6 offset c d rest hboth hend ih =>
      intro s hs
      have hbounds := ih s hs
      rw [List.length_cons]
      omega

theorem lineStartsFrom_pairwise
    (offset : Nat) (t : Text) :
    (lineStartsFrom offset t).Pairwise (· < ·) := by
  fun_induction lineStartsFrom offset t with
  | case1 offset => exact List.Pairwise.nil
  | case2 offset c hend => exact List.pairwise_singleton _ _
  | case3 offset c hend => exact List.Pairwise.nil
  | case4 offset c d rest hboth ih =>
      exact List.pairwise_cons.mpr ⟨fun s hs => (lineStartsFrom_bounds _ _ s hs).1, ih⟩
  | case5 offset c d rest hboth hend ih =>
      exact List.pairwise_cons.mpr ⟨fun s hs => (lineStartsFrom_bounds _ _ s hs).1, ih⟩
  | case6 offset c d rest hboth hend ih => exact ih

variable (t : Text)

/-- Lines start one after the other. -/
theorem lineStarts_pairwise :
    t.lineStarts.Pairwise (· < ·) :=
  List.pairwise_cons.mpr
    ⟨fun s hs => (lineStartsFrom_bounds 0 t s hs).1, lineStartsFrom_pairwise 0 t⟩

/-- Lines start inside of the text. -/
theorem le_length_of_mem_lineStarts
    {s : Nat} (hs : s ∈ t.lineStarts) :
    s ≤ t.length := by
  rcases List.mem_cons.mp hs with rfl | hs
  · exact Nat.zero_le _
  · have hbounds := lineStartsFrom_bounds 0 t s hs
    omega

variable {t} {i j s u : Nat}

theorem lineStarts_lt
    (hs : t.lineStarts[i]? = some s) (hu : t.lineStarts[j]? = some u) (hij : i < j) :
    s < u := by
  obtain ⟨hi, rfl⟩ := List.getElem?_eq_some_iff.mp hs
  obtain ⟨hj, rfl⟩ := List.getElem?_eq_some_iff.mp hu
  exact List.pairwise_iff_getElem.mp t.lineStarts_pairwise i j hi hj hij

/-- The start of the line after a line, or the end of the text. -/
def lineStop (t : Text) (i : Nat) : Nat := (t.lineStarts[i + 1]?).getD t.length

theorem lineStop_le_length :
    t.lineStop i ≤ t.length := by
  rw [lineStop]
  cases hnext : t.lineStarts[i + 1]? with
  | none => exact Nat.le_refl _
  | some next => exact t.le_length_of_mem_lineStarts (List.mem_of_getElem? hnext)

/-- A line ends before a later one starts. -/
theorem lineStop_le
    (hu : t.lineStarts[j]? = some u) (hij : i < j) :
    t.lineStop i ≤ u := by
  obtain ⟨hj, -⟩ := List.getElem?_eq_some_iff.mp hu
  have hnext := List.getElem?_eq_getElem (Nat.lt_of_le_of_lt hij hj)
  rw [lineStop, hnext, Option.getD_some]
  rcases Nat.eq_or_lt_of_le (show i + 1 ≤ j from hij) with rfl | hlt
  · rw [hnext, Option.some.injEq] at hu
    exact Nat.le_of_eq hu
  · exact Nat.le_of_lt (lineStarts_lt hnext hu hlt)

theorem le_lineStop
    (hs : t.lineStarts[i]? = some s) :
    s ≤ t.lineStop i := by
  rw [lineStop]
  cases hnext : t.lineStarts[i + 1]? with
  | none => exact t.le_length_of_mem_lineStarts (List.mem_of_getElem? hs)
  | some next => exact Nat.le_of_lt (lineStarts_lt hs hnext (Nat.lt_succ_self i))

/-! ## From offsets to positions -/

/-- The offset lies on the line with this number and start. -/
structure OnLine (t : Text) (o i s : Nat) : Prop where
  starts : t.lineStarts[i]? = some s
  le : s ≤ o
  before : ∀ next, t.lineStarts[i + 1]? = some next → o < next

/-- Among increasing numbers, those up to a bound stand in front, and the last one of them is the
only one at or below the bound whose successor is beyond it. -/
theorem filter_le_of_pairwise
    {starts : List Nat} (hstarts : starts.Pairwise (· < ·)) (o : Nat) :
    (∀ s ∈ starts, o < s) ∧ starts.filter (fun s => decide (s ≤ o)) = [] ∨
      ∃ i s, starts[i]? = some s ∧ s ≤ o ∧ (∀ next, starts[i + 1]? = some next → o < next) ∧
        (starts.filter fun s => decide (s ≤ o)).length = i + 1 ∧
        (starts.filter fun s => decide (s ≤ o)).getLast? = some s := by
  induction starts with
  | nil => exact Or.inl ⟨nofun, rfl⟩
  | cons s rest ih =>
      obtain ⟨hfirst, hrest⟩ := List.pairwise_cons.mp hstarts
      rcases Nat.lt_or_ge o s with hlt | hle
      · have hbeyond : ∀ u ∈ s :: rest, o < u := by
          intro u hu
          rcases List.mem_cons.mp hu with rfl | hu
          · exact hlt
          · exact Nat.lt_trans hlt (hfirst u hu)
        refine Or.inl ⟨hbeyond, List.filter_eq_nil_iff.mpr fun u hu => ?_⟩
        rw [decide_eq_true_eq]
        exact Nat.not_le_of_lt (hbeyond u hu)
      · right
        have hfilter : (s :: rest).filter (fun s => decide (s ≤ o)) =
            s :: rest.filter fun s => decide (s ≤ o) :=
          List.filter_cons_of_pos (decide_eq_true hle)
        rw [hfilter]
        rcases ih hrest with ⟨hbeyond, hnil⟩ | ⟨i, u, hu, hule, hnext, hlength, hlast⟩
        · refine ⟨0, s, rfl, hle, fun next hnext => ?_, ?_, ?_⟩
          · exact hbeyond next (List.mem_of_getElem? hnext)
          · rw [hnil]
            rfl
          · rw [hnil]
            rfl
        · refine ⟨i + 1, u, hu, hule, hnext, ?_, ?_⟩
          · rw [List.length_cons, hlength]
          · rw [List.getLast?_cons, hlast]
            rfl

/-- The position of an offset is its line, with the distance from the start of the line. -/
theorem exists_onLine
    (t : Text) (offset : Int) :
    ∃ i s, t.OnLine (t.clamp offset) i s ∧
      t.positionAt offset = ⟨i, ((t.clamp offset - s : Nat) : Int)⟩ := by
  rcases filter_le_of_pairwise t.lineStarts_pairwise (t.clamp offset) with
    ⟨hbeyond, -⟩ | ⟨i, s, hs, hle, hnext, hlength, hlast⟩
  · exact absurd (hbeyond 0 List.mem_cons_self) (Nat.not_lt_zero _)
  · refine ⟨i, s, ⟨hs, hle, hnext⟩, ?_⟩
    rw [positionAt, hlength, hlast]
    simp only [Option.getD_some, Position.mk.injEq]
    omega

/-- An offset further on lies on the same line or on a later one. -/
theorem OnLine.le_of_lt
    {a b : Nat} (ha : t.OnLine a i s) (hb : t.OnLine b j u) (hab : a < b) :
    i ≤ j := by
  rcases Nat.lt_or_ge j i with hji | hij
  · -- the line of `b` would stop in front of the line of `a`
    have hstop := lineStop_le ha.starts hji
    rw [lineStop] at hstop
    cases hnext : t.lineStarts[j + 1]? with
    | none =>
        obtain ⟨hi, -⟩ := List.getElem?_eq_some_iff.mp ha.starts
        rw [List.getElem?_eq_none_iff] at hnext
        omega
    | some next =>
        have hbefore := hb.before next hnext
        have hle := ha.le
        rw [hnext, Option.getD_some] at hstop
        omega
  · exact hij

/-- In a text, the position of an offset further on is further on. -/
theorem positionAt_lt
    {a b : Int} (ha : 0 ≤ a) (hab : a < b) (hb : b ≤ t.length) :
    t.positionAt a < t.positionAt b := by
  obtain ⟨i, s, hs, hpa⟩ := t.exists_onLine a
  obtain ⟨j, u, hu, hpb⟩ := t.exists_onLine b
  have hlt : t.clamp a < t.clamp b := by
    unfold clamp
    omega
  rw [hpa, hpb]
  rcases Nat.eq_or_lt_of_le (hs.le_of_lt hu hlt) with rfl | hij
  · have hsame : s = u := Option.some.inj (hs.starts.symm.trans hu.starts)
    have hle := hs.le
    exact Or.inr ⟨rfl, by dsimp only; omega⟩
  · exact Or.inl (by dsimp only; omega)

/-! ## From positions to offsets -/

theorem offsetAt_of_negative
    {p : Position} (h : p.line < 0) :
    t.offsetAt p = 0 := if_pos h

theorem offsetAt_of_beyond
    {p : Position} (h : 0 ≤ p.line) (hnone : t.lineStarts[p.line.toNat]? = none) :
    t.offsetAt p = t.length := by
  rw [offsetAt, if_neg (Int.not_lt.mpr h)]
  simp only [hnone]

theorem offsetAt_of_line
    {p : Position} (h : 0 ≤ p.line) (hs : t.lineStarts[p.line.toNat]? = some s) :
    t.offsetAt p =
      (max (s : Int) (min ((s : Int) + p.character) (t.lineStop p.line.toNat : Int))).toNat := by
  rw [offsetAt, if_neg (Int.not_lt.mpr h)]
  simp only [hs]
  rfl

/-- A position leads into its line, or to an end of the text. -/
theorem offsetAt_le_length
    (t : Text) (p : Position) :
    t.offsetAt p ≤ t.length := by
  rcases Int.lt_or_le p.line 0 with h | h
  · rw [offsetAt_of_negative h]
    exact Nat.zero_le _
  · cases hs : t.lineStarts[p.line.toNat]? with
    | none => exact Nat.le_of_eq (offsetAt_of_beyond h hs)
    | some s =>
        have hstart := le_lineStop hs
        have hstop := @lineStop_le_length t p.line.toNat
        rw [offsetAt_of_line h hs]
        omega

/-- Positions further on lead to offsets that are not further back. -/
theorem offsetAt_mono
    {p q : Position} (hpq : p ≤ q) :
    t.offsetAt p ≤ t.offsetAt q := by
  rcases Int.lt_or_le p.line 0 with hp | hp
  · rw [offsetAt_of_negative hp]
    exact Nat.zero_le _
  · have hq : 0 ≤ q.line := by
      rcases hpq with hlt | ⟨heq, -⟩ <;> omega
    cases hu : t.lineStarts[q.line.toNat]? with
    | none =>
        rw [offsetAt_of_beyond hq hu]
        exact t.offsetAt_le_length p
    | some u =>
        obtain ⟨hj, -⟩ := List.getElem?_eq_some_iff.mp hu
        have hi : p.line.toNat < t.lineStarts.length := by
          rcases hpq with hlt | ⟨heq, -⟩ <;> omega
        obtain ⟨s, hs⟩ : ∃ s, t.lineStarts[p.line.toNat]? = some s :=
          ⟨_, List.getElem?_eq_getElem hi⟩
        rw [offsetAt_of_line hp hs, offsetAt_of_line hq hu]
        rcases hpq with hlt | ⟨heq, hle⟩
        · have hstop := lineStop_le (i := p.line.toNat) hu (by omega)
          have hstart := le_lineStop hs
          omega
        · rw [heq] at hs
          rw [heq]
          have hsame := Option.some.inj (hs.symm.trans hu)
          omega

/-- The position of an offset leads back to the offset. -/
theorem offsetAt_positionAt
    (t : Text) (offset : Int) :
    t.offsetAt (t.positionAt offset) = t.clamp offset := by
  obtain ⟨i, s, hs, hposition⟩ := t.exists_onLine offset
  have hstop : t.clamp offset ≤ t.lineStop i := by
    rw [lineStop]
    cases hnext : t.lineStarts[i + 1]? with
    | none =>
        rw [Option.getD_none, clamp]
        omega
    | some next => exact Nat.le_of_lt (hs.before next hnext)
  have hle := hs.le
  rw [hposition, offsetAt_of_line (Int.natCast_nonneg i) hs.starts]
  dsimp only [Int.toNat_natCast]
  omega

end Text

end Workflow
