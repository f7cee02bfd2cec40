import Workflow.Markup.Plain

/-!
# Lexemes of flow text

What the cursor reads between two marks of flow text, its strings apart: blanks and plain words.
Both are read to their end and no further, except that a plain word takes the blanks behind it along.

Lines, columns and positions do not matter here.  A lemma says what is left of the text behind the
cursor, and what was read.
-/

namespace Workflow

namespace Markup

/-! ## Blanks -/

/-- A blank of flow text: a space or a line break. -/
def isGap (c : CodePoint) : Bool := c == ' ' || isBreak c

theorem dropWhile_dropWhile
    {α : Type}
    {p q : α → Bool}
    (h : ∀ a, p a = true → q a = true)
    (l : List α) :
    (l.dropWhile p).dropWhile q = l.dropWhile q := by
  induction l with
  | nil => rfl
  | cons a l ih =>
    cases hp : p a with
    | false => rw [List.dropWhile_cons_of_neg (by simp [hp])]
    | true => rw [List.dropWhile_cons_of_pos hp, ih, List.dropWhile_cons_of_pos (h a hp)]

theorem drop_length_takeWhile
    {α : Type}
    (p : α → Bool)
    (l : List α) :
    l.drop (l.takeWhile p).length = l.dropWhile p := by
  have hdrop := List.prefix_iff_eq_append.1 (List.takeWhile_prefix (l := l) p)
  exact List.append_cancel_left (hdrop.trans List.takeWhile_append_dropWhile.symm)

/-- Blanks are passed over up to what is none. -/
theorem dropWhile_eq_self_of_head
    {α : Type}
    {p : α → Bool}
    {l : List α}
    (h : ∀ a ∈ l.head?, p a = false) :
    l.dropWhile p = l := by
  cases l with
  | nil => rfl
  | cons a l => rw [List.dropWhile_cons_of_neg (by simp [h a rfl])]

/-- No document marker starts with a text. -/
def NoMarker (t : Text) : Prop := ∀ c ∈ t.head?, c ≠ '-' ∧ c ≠ '.'

namespace Cursor

variable {c : Cursor}

@[simp]
theorem rest_next
    (c : Cursor) :
    c.next.rest = c.rest.tail := by
  unfold next
  split
  case h_1 hnil => rw [hnil, List.tail_nil]
  case h_2 hcons =>
    rw [hcons, List.tail_cons]
    split
    · rfl
    · split <;> rfl

@[simp]
theorem rest_skip
    (c : Cursor)
    (n : Nat) :
    (c.skip n).rest = c.rest.drop n := by
  induction n generalizing c with
  | zero => rfl
  | succ n ih => rw [skip, ih, rest_next, List.drop_tail]

@[simp]
theorem rest_skipWhile
    (c : Cursor)
    (p : CodePoint → Bool) :
    (c.skipWhile p).rest = c.rest.dropWhile p := by
  rw [skipWhile, rest_skip, run]
  exact drop_length_takeWhile _ _

/-- A line break is passed over, and it is a blank. -/
theorem rest_lineBreak
    (h : c.isIn isBreak = true) :
    c.lineBreak.2.rest.dropWhile isGap = c.rest.dropWhile isGap ∧
      c.lineBreak.2.rest.length < c.rest.length := by
  cases hrest : c.rest with
  | nil => simp [isIn, peek, hrest] at h
  | cons x t =>
    have hx : isBreak x = true := by simpa [isIn, peek, hrest] using h
    have hgap : isGap x = true := by simp [isGap, hx]
    rw [List.dropWhile_cons_of_pos hgap]
    simp only [lineBreak, hrest]
    split
    case isTrue hpair =>
      simp only [Bool.and_eq_true, beq_iff_eq] at hpair
      obtain ⟨-, hfeed⟩ := hpair
      cases t with
      | nil => cases hfeed
      | cons y t =>
        have hy : isGap y = true := by
          rw [Option.some.inj hfeed]
          decide
        rw [rest_skip, hrest, List.dropWhile_cons_of_pos hy]
        refine ⟨rfl, ?_⟩
        rw [List.drop_succ_cons, List.drop_succ_cons, List.drop_zero, List.length_cons,
          List.length_cons]
        omega
    case isFalse =>
      split
      · rw [rest_next, hrest]
        exact ⟨rfl, by simp⟩
      case isFalse hplain =>
        have hrare : (x == 0x2028 || x == 0x2029) = true := by
          simp only [isBreak] at hx
          simp only [Bool.not_eq_true] at hplain
          simpa [hplain] using hx
        rw [if_pos hrare, rest_next, hrest]
        exact ⟨rfl, by simp⟩

theorem isGap_of_space
    (x : CodePoint)
    (h : (x == ' ') = true) :
    isGap x = true := by
  rw [isGap, h, Bool.true_or]

/-- Spaces are blanks. -/
theorem dropWhile_skipSpaces
    (c : Cursor) :
    c.skipSpaces.rest.dropWhile isGap = c.rest.dropWhile isGap := by
  rw [skipSpaces, rest_skipWhile, dropWhile_dropWhile isGap_of_space]

theorem length_skipSpaces_le
    (c : Cursor) :
    c.skipSpaces.rest.length ≤ c.rest.length := by
  rw [skipSpaces, rest_skipWhile]
  exact (List.dropWhile_suffix _).length_le

/-- Behind spaces that no line break follows all blanks are passed over. -/
theorem rest_skipSpaces
    (h : c.skipSpaces.isIn isBreak = false) :
    c.skipSpaces.rest = c.rest.dropWhile isGap := by
  rw [← dropWhile_skipSpaces]
  refine (dropWhile_eq_self_of_head fun x hx => ?_).symm
  have hspace : (x == ' ') = false := by
    have hhead := List.head?_dropWhile_not (fun x => x == (' ' : CodePoint)) c.rest
    rw [← rest_skipWhile] at hhead
    rw [skipSpaces] at hx
    rw [Option.mem_def.1 hx] at hhead
    exact hhead
  simp only [isIn, peek, Option.mem_def.1 hx] at h
  simpa [isGap, hspace] using h

theorem atMarker_eq_false
    (h : NoMarker (c.rest.dropWhile isGap)) :
    c.atMarker = false := by
  have hprefix : ∀ mark : Text, (∃ x ∈ (['-', '.'] : Text), mark.head? = some x) →
      mark.isPrefixOf c.rest = false := by
    rintro mark ⟨x, hx, hmark⟩
    refine Bool.eq_false_iff.2 fun hpre => ?_
    obtain ⟨t, ht⟩ := List.isPrefixOf_iff_prefix.1 hpre
    have hhead : c.rest.head? = some x := by
      rw [← ht]
      cases mark with
      | nil => cases hmark
      | cons y mark => simpa using hmark
    have hall : ((['-', '.'] : Text).all fun y => !isGap y) = true := by decide
    have hnot : isGap x = false := by simpa using List.all_eq_true.1 hall x hx
    have hself : c.rest.dropWhile isGap = c.rest :=
      dropWhile_eq_self_of_head fun y hy => by
        rw [hhead] at hy
        rw [← Option.some.inj hy, hnot]
    rw [hself] at h
    have hne := h x hhead
    simp [hne] at hx
  simp [atMarker, hprefix "---" ⟨'-', by decide, rfl⟩, hprefix "..." ⟨'.', by decide, rfl⟩]

theorem rest_of_isIn
    {x : CodePoint}
    (h : c.isAt x = true) :
    ∃ t, c.rest = x :: t := by
  cases hrest : c.rest with
  | nil => simp [isAt, peek, hrest] at h
  | cons y t => exact ⟨t, by simpa [isAt, peek, hrest] using h⟩

end Cursor

/-! ## Plain words -/

/-- The blanks behind a word are passed over once its line was left. -/
theorem plainBreaks_eq
    (fuel : Nat)
    {c : Cursor}
    (hfuel : c.rest.length < fuel)
    (hmarker : NoMarker (c.rest.dropWhile isGap)) :
    ∃ b c', plainBreaks fuel c = (some b, c') ∧ c'.rest = c.rest.dropWhile isGap := by
  induction fuel generalizing c with
  | zero => omega
  | succ fuel ih =>
    rw [plainBreaks]
    split
    case isTrue hspace =>
      obtain ⟨t, ht⟩ := Cursor.rest_of_isIn hspace
      have hdrop : c.next.rest.dropWhile isGap = c.rest.dropWhile isGap := by
        rw [Cursor.rest_next, ht, List.dropWhile_cons_of_pos (by decide), List.tail_cons]
      have hlt : c.next.rest.length < fuel := by
        rw [Cursor.rest_next, ht, List.tail_cons]
        rw [ht, List.length_cons] at hfuel
        omega
      obtain ⟨b, c', heq, hrest⟩ := ih hlt (hdrop ▸ hmarker)
      exact ⟨b, c', heq, hrest.trans hdrop⟩
    case isFalse hspace =>
      split
      case isTrue hbreak =>
        obtain ⟨hdrop, hlt⟩ := Cursor.rest_lineBreak hbreak
        obtain ⟨b, c', heq, hrest⟩ := ih (c := c.lineBreak.2) (by omega) (hdrop ▸ hmarker)
        refine ⟨c.lineBreak.1 ++ b, c', ?_, hrest.trans hdrop⟩
        simp only [Cursor.atMarker_eq_false (hdrop ▸ hmarker), heq, Bool.false_eq_true, if_false]
      case isFalse hbreak =>
        refine ⟨[], c, rfl, (dropWhile_eq_self_of_head fun x hx => ?_).symm⟩
        simp only [Cursor.isAt, Cursor.isIn, Cursor.peek, Option.mem_def.1 hx] at hspace hbreak
        simpa [isGap] using ⟨by simpa using hspace, by simpa using hbreak⟩

/-- The blanks behind a word are passed over. -/
theorem plainGap_eq
    (bound : Nat)
    {c : Cursor}
    (hbound : c.rest.length < bound)
    (hmarker : NoMarker (c.rest.dropWhile isGap)) :
    ∃ gap c' left, plainGap bound c = (gap, c', left) ∧ c'.rest = c.rest.dropWhile isGap := by
  have hskip : c.skip (c.run (· == ' ')).length = c.skipSpaces := rfl
  rw [← c.dropWhile_skipSpaces] at hmarker ⊢
  simp only [plainGap, hskip]
  split
  case isTrue hbreak =>
    obtain ⟨hline, hlt⟩ := Cursor.rest_lineBreak hbreak
    have hle := c.length_skipSpaces_le
    obtain ⟨b, c', heq, hafter⟩ :=
      plainBreaks_eq bound (c := c.skipSpaces.lineBreak.2) (by omega) (hline ▸ hmarker)
    simp only [Cursor.atMarker_eq_false (hline ▸ hmarker), heq, Bool.false_eq_true, if_false]
    exact ⟨_, c', true, rfl, hafter.trans hline⟩
  case isFalse hbreak =>
    refine ⟨_, c.skipSpaces, false, rfl, ?_⟩
    rw [Cursor.dropWhile_skipSpaces, Cursor.rest_skipSpaces (by simpa using hbreak)]

/-- A code point that plain words of JSON are made of. -/
def isBare (c : CodePoint) : Bool :=
  c.isAsciiDigit || c.isAsciiLetter || c == '-' || c == '+' || c == '.'

/-- The blanks and the marks that stand around plain words, or end them. -/
def boundaries : Text :=
  [' ', '\t', '\n', '\r', 0x85, 0x2028, 0x2029, ':', ',', '?', '[', ']', '\x7b', '\x7d', '#']

theorem notMem_boundaries_of_isBare
    {c : CodePoint}
    (h : isBare c = true) :
    c ∉ boundaries := by
  have hall : (boundaries.all fun c => !isBare c) = true := by decide
  intro hmem
  have hnot := List.all_eq_true.1 hall c hmem
  rw [h] at hnot
  cases hnot

/-- No code point of a plain word is a blank, starts a comment, or ends the word. -/
theorem classes_of_isBare
    {c : CodePoint}
    (h : isBare c = true) :
    isSpaceOrTab c = false ∧ isBreak c = false ∧ c ≠ ':' ∧ isFlowMark c = false ∧ c ≠ '#' := by
  have hne := notMem_boundaries_of_isBare h
  simp only [boundaries, List.mem_cons, List.not_mem_nil, or_false, not_or] at hne
  simp [isSpaceOrTab, isBreak, isFlowMark, oneOf, Text.ofString, hne]

/-- A plain word of JSON: it starts with a digit or a letter, or with a minus in front of a digit. -/
structure IsWord (w : Text) : Prop where
  bare : ∀ c ∈ w, isBare c = true
  starts : ∃ c rest, w = c :: rest ∧ ((c.isAsciiDigit || c.isAsciiLetter) = true ∨
    c = '-' ∧ ∃ d ∈ rest.head?, d.isAsciiDigit = true)

theorem IsWord.tab_notMem
    {w : Text}
    (h : IsWord w) :
    ('\t' : CodePoint) ∉ w := by
  intro hmem
  have hbare := h.bare _ hmem
  revert hbare
  decide

theorem isWord_of_isAsciiLetter
    {w : Text}
    (hne : w ≠ [])
    (hw : w.all CodePoint.isAsciiLetter = true) :
    IsWord w := by
  have hletter := List.all_eq_true.1 hw
  refine ⟨fun c hc => by simp [isBare, hletter c hc], ?_⟩
  cases w with
  | nil => exact absurd rfl hne
  | cons c rest => exact ⟨c, rest, rfl, .inl (by simp [hletter c List.mem_cons_self])⟩

/-- What follows a plain word and ends it: the end of the text, a blank, or a mark of a flow
collection, the latter only within one. -/
def EndsWord (inFlow : Bool) (t : Text) : Prop :=
  ∀ c ∈ t.head?, isGap c = true ∨ inFlow = true ∧ c ∈ ([',', ']', 0x7D] : Text)

theorem plainWordLength_append
    {inFlow : Bool}
    {w t : Text}
    (hw : ∀ c ∈ w, isBare c = true)
    (ht : EndsWord inFlow t) :
    plainWordLength inFlow (w ++ t) = w.length := by
  induction w with
  | nil =>
    cases t with
    | nil => rfl
    | cons c t =>
      rw [List.nil_append, plainWordLength]
      rcases ht c rfl with hgap | ⟨hflow, hmark⟩
      · simp only [isGap, Bool.or_eq_true] at hgap
        rcases hgap with hspace | hbreak
        · simp [isSpaceOrTab, hspace]
        · simp [hbreak]
      · have hall : (([',', ']', 0x7D] : Text).all isFlowMark) = true := by decide
        simp [hflow, List.all_eq_true.1 hall c hmark]
  | cons c w ih =>
    obtain ⟨hblank, hbreak, hcolon, hmark, -⟩ := classes_of_isBare (hw c List.mem_cons_self)
    have hrest := ih fun d hd => hw d (List.mem_cons_of_mem _ hd)
    simp [plainWordLength, hblank, hbreak, hcolon, hmark, hrest]

/-- What follows a plain word leaves nothing of a plain scalar behind its blanks. -/
def EndsScalar (inFlow : Bool) (t : Text) : Prop :=
  t.dropWhile isGap = [] ∨
    inFlow = true ∧ ∃ mark rest, mark ∈ ([',', ']', 0x7D] : Text) ∧ t.dropWhile isGap = mark :: rest

theorem head_of_mem_flowEnds
    {c : CodePoint}
    (h : c ∈ ([',', ']', 0x7D] : Text)) :
    isGap c = false ∧ c ≠ '-' ∧ c ≠ '.' ∧ c ≠ '#' := by
  have hall : (([',', ']', 0x7D] : Text).all fun c =>
      !isGap c && c != '-' && c != '.' && c != '#') = true := by decide
  simpa [and_assoc] using List.all_eq_true.1 hall c h

namespace EndsScalar

variable {inFlow : Bool} {t : Text}

theorem of_head
    (h : EndsScalar inFlow t) :
    ∀ c ∈ (t.dropWhile isGap).head?, inFlow = true ∧ c ∈ ([',', ']', 0x7D] : Text) := by
  intro c hc
  rcases h with hnil | ⟨hflow, mark, rest, hmark, heq⟩
  · rw [hnil] at hc
    cases hc
  · rw [heq] at hc
    cases hc
    exact ⟨hflow, hmark⟩

theorem noMarker
    (h : EndsScalar inFlow t) :
    NoMarker (t.dropWhile isGap) := fun c hc =>
  ⟨(head_of_mem_flowEnds (h.of_head c hc).2).2.1, (head_of_mem_flowEnds (h.of_head c hc).2).2.2.1⟩

theorem endsWord_dropWhile
    (h : EndsScalar inFlow t) :
    EndsWord inFlow (t.dropWhile isGap) :=
  fun c hc => .inr (h.of_head c hc)

theorem endsWord
    (h : EndsScalar inFlow t) :
    EndsWord inFlow t := by
  intro c hc
  cases hgap : isGap c with
  | true => exact .inl rfl
  | false =>
    have hself : t.dropWhile isGap = t := dropWhile_eq_self_of_head fun d hd => by
      rw [Option.mem_def.1 hc] at hd
      rw [← Option.some.inj hd, hgap]
    exact .inr (h.of_head c (hself.symm ▸ hc))

end EndsScalar

/-- Behind a plain word and the blanks after it there is no other word. -/
theorem plainWords_of_endsWord
    {inFlow : Bool}
    {indent : Int}
    {bound fuel : Nat}
    {scan : PlainScan}
    (gap : Text)
    (h : EndsWord inFlow scan.cursor.rest) :
    plainWords inFlow indent bound fuel scan gap = scan := by
  cases fuel with
  | zero => rfl
  | succ fuel =>
    have hlength := plainWordLength_append (w := []) (by simp) h
    rw [List.nil_append, List.length_nil] at hlength
    rw [plainWords, hlength]
    split <;> rfl

/-- A plain word is read to its end, and the blanks behind it are passed over. -/
theorem plain_eq
    {inFlow : Bool}
    {bound : Nat}
    {c : Cursor}
    {w t : Text}
    (hrest : c.rest = w ++ t)
    (hne : w ≠ [])
    (hw : ∀ c ∈ w, isBare c = true)
    (ht : EndsScalar inFlow t)
    (hbound : c.rest.length < bound) :
    (plain inFlow (-1) bound c).text = w ∧
      (plain inFlow (-1) bound c).cursor.rest = t.dropWhile isGap := by
  obtain ⟨fuel, rfl⟩ : ∃ fuel, bound = fuel + 1 := ⟨bound - 1, by omega⟩
  have hlength := plainWordLength_append hw ht.endsWord
  have hafter : (c.skip w.length).rest = t := by rw [Cursor.rest_skip, hrest, List.drop_left]
  obtain ⟨gap, c', left, hgap, hgaprest⟩ := plainGap_eq (fuel + 1) (c := c.skip w.length)
    (by rw [hafter]; rw [hrest, List.length_append] at hbound; omega) (hafter ▸ ht.noMarker)
  rw [hafter] at hgaprest
  have hhash : c.isAt '#' = false := by
    cases w with
    | nil => exact absurd rfl hne
    | cons x w =>
      have hx := (classes_of_isBare (hw x List.mem_cons_self)).2.2.2.2
      simp [Cursor.isAt, Cursor.peek, hrest, hx]
  have hwords : plain inFlow (-1) (fuel + 1) c = ⟨w, (c.skip w.length).index, c', left⟩ := by
    obtain ⟨n, hn⟩ : ∃ n, w.length = n + 1 :=
      Nat.exists_eq_succ_of_ne_zero fun h => hne (List.length_eq_zero_iff.1 h)
    rw [plain, plainWords]
    simp only [hhash, hrest, hlength, hn, Bool.false_eq_true, if_false]
    rw [← hn, hgap, List.take_left]
    simp only [List.nil_append]
    split
    · rfl
    · exact plainWords_of_endsWord _ (hgaprest ▸ ht.endsWord_dropWhile)
  rw [hwords]
  exact ⟨rfl, hgaprest⟩

end Markup

end Workflow
