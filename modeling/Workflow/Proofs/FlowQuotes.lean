import Mathlib.Data.List.Chain
import Mathlib.Data.List.TakeWhile
import Mathlib.Tactic.SplitIfs
import Workflow.Markup.Quoted
import Workflow.Proofs.FlowLexemes
import Workflow.Proofs.JsonForms

/-!
# Quoted strings of flow text

A string of JSON is read as a double-quoted scalar.  Its escapes have the same meaning there, but
what stands between them is folded: JSON allows three line breaks between quotes that are not
control characters, and the scanner takes them, with the spaces around them, for the end of a line.

`foldedUnits` says what a string denotes with its lines folded.  It is what the pieces of the string
stand for as long as there is no next-line character and no space beside one of the two separators.
A document marker at the start of a line makes a string malformed.
-/

namespace Workflow

namespace Markup

/-! ## Escapes -/

theorem hexValue?_lt
    {c : CodePoint}
    {n : Nat}
    (h : c.hexValue? = some n) :
    n < 16 := by
  simp only [CodePoint.hexValue?, CodePoint.isAsciiDigit, CodePoint.within, Bool.and_eq_true,
    decide_eq_true_eq] at h
  split_ifs at h with hdigit hcapital hsmall
  all_goals
    have := Option.some.inj h
    omega

/-- The one-letter escapes of JSON are read with their meaning. -/
theorem escapeLetter?_of_escape?
    {letter meaning : CodePoint}
    (h : Json.escape? letter = some meaning) :
    escapeLetter? letter = some meaning := by
  simp only [Json.escape?] at h
  split_ifs at h with hself hb hf hn hr ht
  · rw [← Option.some.inj h]
    rcases hself with rfl | rfl | rfl <;> decide
  all_goals
    subst letter
    rw [← h]
    decide

/-- Four hexadecimal digits name the same unit here and in JSON: there are code points enough. -/
theorem hexNumber?_of_unit?
    {k : Cursor}
    {a b c d meaning : CodePoint}
    {t : Text}
    (hrest : k.rest = a :: b :: c :: d :: t)
    (h : Json.unit? [a, b, c, d] = some meaning) :
    hexNumber? k 4 = some meaning.val := by
  simp only [Json.unit?, Option.map_eq_some_iff] at h
  obtain ⟨values, hvalues, hmeaning⟩ := h
  have hlt : Text.valueOf 16 values < 0x110000 := by
    simp only [List.mapM_cons, List.mapM_nil, Option.pure_def, Option.bind_eq_bind,
      Option.bind_eq_some_iff, Option.some.injEq] at hvalues
    obtain ⟨p, hp, _, ⟨q, hq, _, ⟨r, hr, _, ⟨s, hs, _, rfl, rfl⟩, rfl⟩, rfl⟩, rfl⟩ := hvalues
    have hp := hexValue?_lt hp
    have hq := hexValue?_lt hq
    have hr := hexValue?_lt hr
    have hs := hexValue?_lt hs
    simp only [Text.valueOf, List.foldl_cons, List.foldl_nil]
    omega
  have hdigits : k.rest.take 4 = [a, b, c, d] := by rw [hrest]; rfl
  simp only [hexNumber?, hdigits, hvalues, List.length_cons, List.length_nil, Option.map_some,
    if_true, ← hmeaning, CodePoint.ofNatD, hlt, dif_pos]

theorem escaped_letter
    {bound : Nat}
    {c : Cursor}
    {letter meaning : CodePoint}
    {t : Text}
    (hrest : c.rest = letter :: t)
    (h : Json.escape? letter = some meaning) :
    escaped bound c = .ok ([meaning], c.next) := by
  simp [escaped, Cursor.peek, hrest, escapeLetter?_of_escape? h]

theorem escaped_unit
    {bound : Nat}
    {k : Cursor}
    {a b c d meaning : CodePoint}
    {t : Text}
    (hrest : k.rest = ('u' : CodePoint) :: a :: b :: c :: d :: t)
    (h : Json.unit? [a, b, c, d] = some meaning) :
    escaped bound k = .ok ([meaning], k.next.skip 4) := by
  have hnext : k.next.rest = a :: b :: c :: d :: t := by rw [Cursor.rest_next, hrest, List.tail_cons]
  have hletter : escapeLetter? 'u' = none := by decide
  have hwidth : escapeWidth? 'u' = some 4 := by decide
  simp [escaped, Cursor.peek, hrest, hletter, hwidth, hexNumber?_of_unit? hnext h, meaning.isLt]

/-! ## Quoted strings -/

/-- What stands behind a run of ordinary code points between double quotes and belongs to the same
word: an apostrophe or an escape. -/
def wordStep (bound : Nat) (c : Cursor) : Except Problem (Option (Text × Cursor)) :=
  if c.isAt '\'' then .ok (some (['\''], c.next))
  else if c.isAt '\\' then (escaped bound c.next).map some
  else .ok none

theorem quotedWord_succ
    (bound fuel : Nat)
    (c : Cursor) :
    quotedWord true bound (fuel + 1) c =
      match wordStep bound (c.skip (c.run isOrdinary).length) with
      | .error e => .error e
      | .ok none => .ok (c.run isOrdinary, c.skip (c.run isOrdinary).length)
      | .ok (some (piece, d)) =>
        match quotedWord true bound fuel d with
        | .error e => .error e
        | .ok (more, d) => .ok (c.run isOrdinary ++ piece ++ more, d) :=
  rfl

section Word

variable {bound fuel : Nat} {c : Cursor} {x : CodePoint} {t : Text}

/-- A reading with one more code point in front. -/
def withFront (x : CodePoint) (p : Text × Cursor) : Text × Cursor := (x :: p.1, p.2)

theorem quotedWord_of_isOrdinary
    (hrest : c.rest = x :: t)
    (hx : isOrdinary x = true) :
    quotedWord true bound (fuel + 1) c =
      (quotedWord true bound (fuel + 1) c.next).map (withFront x) := by
  have hrun : c.run isOrdinary = x :: c.next.run isOrdinary := by
    rw [Cursor.run, Cursor.run, Cursor.rest_next, hrest, List.tail_cons,
      List.takeWhile_cons_of_pos hx]
  rw [quotedWord_succ, quotedWord_succ, hrun, List.length_cons, Cursor.skip]
  cases wordStep bound (c.next.skip (c.next.run isOrdinary).length) with
  | error e => rfl
  | ok step =>
    cases step with
    | none => rfl
    | some step =>
      obtain ⟨piece, d⟩ := step
      cases hmore : quotedWord true bound fuel d <;> simp [hmore, Except.map, withFront]

/-- What is not ordinary ends the run in front of it. -/
theorem run_of_not_isOrdinary
    (hrest : c.rest = x :: t)
    (hx : isOrdinary x = false) :
    c.run isOrdinary = [] := by
  rw [Cursor.run, hrest, List.takeWhile_cons_of_neg (by simp [hx])]

theorem quotedWord_of_wordStep
    {d : Cursor}
    (hrun : c.run isOrdinary = [])
    (hstep : wordStep bound c = .ok (some ([x], d))) :
    quotedWord true bound (fuel + 1) c = (quotedWord true bound fuel d).map (withFront x) := by
  rw [quotedWord_succ, hrun, List.length_nil, Cursor.skip, hstep]
  cases hmore : quotedWord true bound fuel d <;> simp [hmore, Except.map, withFront]

/-- An escape stands for one code point of its word. -/
theorem quotedWord_of_escaped
    {d : Cursor}
    (hrest : c.rest = ('\\' : CodePoint) :: t)
    (h : escaped bound c.next = .ok ([x], d)) :
    quotedWord true bound (fuel + 1) c = (quotedWord true bound fuel d).map (withFront x) := by
  have hne : ('\\' : CodePoint) ≠ '\'' := by decide
  refine quotedWord_of_wordStep (run_of_not_isOrdinary hrest (by decide)) ?_
  simp [wordStep, Cursor.isAt, Cursor.peek, hrest, hne, h, Except.map]

/-- A word ends in front of what is neither ordinary nor an apostrophe nor a backslash. -/
theorem quotedWord_of_end
    (hrest : c.rest = x :: t)
    (hx : isOrdinary x = false)
    (hne : x ≠ '\'' ∧ x ≠ '\\') :
    quotedWord true bound fuel c = .ok ([], c) := by
  cases fuel with
  | zero => rfl
  | succ fuel =>
    have hrun := run_of_not_isOrdinary hrest hx
    have hstep : wordStep bound c = .ok none := by
      simp [wordStep, Cursor.isAt, Cursor.peek, hrest, hne]
    rw [quotedWord_succ, hrun, List.length_nil, Cursor.skip, hstep]

end Word

end Markup

namespace Json

open Markup (isBreak isGap isSpaceOrTab)

/-! ## Folding -/

namespace Piece

/-- A piece that stands for itself and is of a class. -/
def isPlain (q : CodePoint → Bool) : Piece → Bool
  | plain c _ => q c
  | _ => false

/-- A space between quotes. -/
def isSpace : Piece → Bool := isPlain (· == ' ')

/-- A line break between quotes; it is none of the feeds, which are control characters. -/
def isBreak : Piece → Bool := isPlain Markup.isBreak

/-- A blank between quotes: a space or a line break. -/
def isGap : Piece → Bool := isPlain Markup.isGap

theorem of_isPlain
    {q : CodePoint → Bool}
    {p : Piece}
    (h : p.isPlain q = true) :
    p.text = [p.meaning] ∧ q p.meaning = true ∧ 0x20 ≤ p.meaning.val := by
  cases p with
  | plain c hc => exact ⟨rfl, h, hc.1⟩
  | escape => cases h
  | unit => cases h

theorem isPlain_eq_of_isSpace
    {q : CodePoint → Bool}
    {p : Piece}
    (h : p.isSpace = true) :
    p.isPlain q = q ' ' := by
  cases p with
  | plain c _ => exact congrArg q (beq_iff_eq.1 h)
  | escape => cases h
  | unit => cases h

/-- A piece other than a space does not start with a blank of its line. -/
theorem exists_text_eq
    (p : Piece)
    (h : p.isSpace = false) :
    ∃ x rest, p.text = x :: rest ∧ isSpaceOrTab x = false := by
  cases p with
  | plain x hx =>
    have htab : x ≠ '\t' := by
      rintro rfl
      exact absurd hx.1 (by decide)
    have hspace : (x == ' ') = false := h
    exact ⟨x, [], rfl, by simp [isSpaceOrTab, hspace, htab]⟩
  | escape letter _ _ => exact ⟨'\\', [letter], rfl, by decide⟩
  | unit a b x d _ _ => exact ⟨'\\', ['u', a, b, x, d], rfl, by decide⟩

/-- Three line breaks are no control characters. -/
theorem meaning_of_isBreak
    {p : Piece}
    (h : p.isBreak = true) :
    p.meaning = 0x85 ∨ p.meaning = 0x2028 ∨ p.meaning = 0x2029 := by
  obtain ⟨-, hbreak, hle⟩ := of_isPlain h
  simp only [Markup.isBreak, Bool.or_eq_true, beq_iff_eq] at hbreak
  rcases hbreak with (((heq | heq) | heq) | heq) | heq
  · rw [heq] at hle
    exact absurd hle (by decide)
  · rw [heq] at hle
    exact absurd hle (by decide)
  · exact .inl heq
  · exact .inr (.inl heq)
  · exact .inr (.inr heq)

theorem isGap_eq
    (p : Piece) :
    p.isGap = (p.isSpace || p.isBreak) := by
  cases p <;> rfl

/-- Behind a word there is a blank, or nothing. -/
theorem isGap_of_head
    (pieces : List Piece) :
    ∀ p ∈ (pieces.dropWhile fun p => !p.isGap).head?, p.isGap = true := by
  intro p hp
  have hnot := List.head?_dropWhile_not (fun p : Piece => !p.isGap) pieces
  rw [Option.mem_def.1 hp] at hnot
  simpa using hnot

end Piece

/-- What stands for a line break that is kept: the two separators stand for themselves. -/
def keptBreak (c : CodePoint) : CodePoint := if c = 0x2028 ∨ c = 0x2029 then c else '\n'

/-- What stands for the line breaks in a stretch of blanks. -/
def keptBreaks (gap : Text) : Text := (gap.filter isBreak).map keptBreak

/-- What a stretch of blanks denotes: spaces alone stay, but beside a line break they go.  The first
line break goes as well, unless it is a separator, and leaves a space if there is no other. -/
def foldGap (gap : Text) : Text :=
  match keptBreaks gap with
  | [] => gap
  | b :: breaks => (if b ≠ '\n' then [b] else if breaks.isEmpty then [' '] else []) ++ breaks

/-- What pieces denote with their lines folded, behind a stretch of blanks. -/
def foldFrom (gap : Text) : List Piece → Text
  | [] => foldGap gap
  | p :: pieces =>
    if p.isGap then foldFrom (gap ++ [p.meaning]) pieces
    else foldGap gap ++ p.meaning :: foldFrom [] pieces

/-- The code points for which the pieces of a string stand, with its lines folded. -/
def foldedUnits (pieces : List Piece) : Text := foldFrom [] pieces

/-- The text that a string denotes with its lines folded. -/
def foldedValue (pieces : List Piece) : Text := (foldedUnits pieces).joinPairs

/-- A document marker stands in front of the rest of a string. -/
def atMarker (pieces : List Piece) : Bool :=
  (Markup.Cursor.start (piecesText pieces ++ [('"' : CodePoint)])).atMarker

/-- A line of a string starts with a document marker. -/
def hasMarkedLine : List Piece → Bool
  | [] => false
  | p :: pieces => p.isBreak && atMarker pieces || hasMarkedLine pieces

/-- A line that starts among the blanks in front starts with a document marker. -/
def hasMarkedGap : List Piece → Bool
  | [] => false
  | p :: pieces => p.isGap && (p.isBreak && atMarker pieces || hasMarkedGap pieces)

/-- A string without a next-line character and without a space beside a separator. -/
structure KeepsLines (pieces : List Piece) : Prop where
  noNextLine : ∀ p ∈ pieces, p.text ≠ [(0x85 : CodePoint)]
  apart : pieces.IsChain fun p q => p.isGap = true → q.isGap = true → p.isSpace = q.isSpace

theorem keptBreaks_cons
    {c : CodePoint}
    (h : isBreak c = true)
    (gap : Text) :
    keptBreaks (c :: gap) = keptBreak c :: keptBreaks gap := by
  rw [keptBreaks, List.filter_cons_of_pos h]
  rfl

theorem foldGap_of_nil
    {gap : Text}
    (h : keptBreaks gap = []) :
    foldGap gap = gap := by
  rw [foldGap, h]

theorem foldGap_of_cons
    {gap breaks : Text}
    {b : CodePoint}
    (h : keptBreaks gap = b :: breaks) :
    foldGap gap = (if b ≠ '\n' then [b] else if breaks.isEmpty then [' '] else []) ++ breaks := by
  rw [foldGap, h]

/-- A marked line starts among the blanks in front, or behind them. -/
theorem hasMarkedLine_gap
    (pieces : List Piece) :
    hasMarkedLine pieces =
      (hasMarkedGap pieces || hasMarkedLine (pieces.dropWhile Piece.isGap)) := by
  induction pieces with
  | nil => rfl
  | cons p pieces ih =>
    cases hgap : p.isGap with
    | true =>
      rw [List.dropWhile_cons_of_pos hgap, hasMarkedLine, hasMarkedGap, hgap, Bool.true_and, ih,
        Bool.or_assoc]
    | false => rw [List.dropWhile_cons_of_neg (by simp [hgap]), hasMarkedGap, hgap]; rfl

/-- No line starts within a word. -/
theorem hasMarkedLine_word
    (pieces : List Piece) :
    hasMarkedLine pieces = hasMarkedLine (pieces.dropWhile fun p => !p.isGap) := by
  induction pieces with
  | nil => rfl
  | cons p pieces ih =>
    cases hgap : p.isGap with
    | true => rw [List.dropWhile_cons_of_neg (by simp [hgap])]
    | false =>
      have hbreak : p.isBreak = false := by
        rw [p.isGap_eq, Bool.or_eq_false_iff] at hgap
        exact hgap.2
      rw [List.dropWhile_cons_of_pos (by simp [hgap]), hasMarkedLine, hbreak, ih]
      rfl

/-- No line starts at a space. -/
theorem hasMarkedGap_spaces
    (pieces : List Piece) :
    hasMarkedGap pieces = hasMarkedGap (pieces.dropWhile Piece.isSpace) := by
  induction pieces with
  | nil => rfl
  | cons p pieces ih =>
    cases hspace : p.isSpace with
    | false => rw [List.dropWhile_cons_of_neg (by simp [hspace])]
    | true =>
      have hbreak : p.isBreak = false := by
        rw [Piece.isBreak, Piece.isPlain_eq_of_isSpace hspace]
        decide
      rw [List.dropWhile_cons_of_pos hspace, hasMarkedGap, p.isGap_eq, hspace, hbreak, ← ih]
      rfl

/-- Blanks are folded together. -/
theorem foldFrom_gap
    (gap : Text)
    (pieces : List Piece) :
    foldFrom gap pieces =
      foldGap (gap ++ piecesUnits (pieces.takeWhile Piece.isGap)) ++
        foldedUnits (pieces.dropWhile Piece.isGap) := by
  induction pieces generalizing gap with
  | nil => simp [foldFrom, foldedUnits, foldGap, keptBreaks, piecesUnits]
  | cons p pieces ih =>
    cases hgap : p.isGap with
    | true =>
      rw [foldFrom, if_pos hgap, ih, List.takeWhile_cons_of_pos hgap,
        List.dropWhile_cons_of_pos hgap, List.append_assoc]
      rfl
    | false =>
      have hneg : ¬p.isGap = true := by simp [hgap]
      rw [foldFrom, if_neg hneg, List.takeWhile_cons_of_neg hneg, List.dropWhile_cons_of_neg hneg,
        foldedUnits, foldFrom, if_neg hneg]
      simp [piecesUnits, foldGap, keptBreaks]

/-- Words are not folded. -/
theorem foldedUnits_word
    (pieces : List Piece) :
    foldedUnits pieces =
      piecesUnits (pieces.takeWhile fun p => !p.isGap) ++
        foldedUnits (pieces.dropWhile fun p => !p.isGap) := by
  induction pieces with
  | nil => rfl
  | cons p pieces ih =>
    cases hgap : p.isGap with
    | true =>
      rw [List.takeWhile_cons_of_neg (by simp [hgap]), List.dropWhile_cons_of_neg (by simp [hgap])]
      rfl
    | false =>
      rw [List.takeWhile_cons_of_pos (by simp [hgap]), List.dropWhile_cons_of_pos (by simp [hgap]),
        foldedUnits, foldFrom, if_neg (by simp [hgap])]
      exact congrArg (p.meaning :: ·) ih

/-! ### Strings whose lines are kept -/

section Kept

variable {gap pieces : List Piece}

/-- Next to each other there are only spaces or only separators. -/
theorem KeepsLines.isSpace_eq
    (h : KeepsLines gap)
    (hgap : ∀ p ∈ gap, p.isGap = true) :
    ∃ b, ∀ p ∈ gap, p.isSpace = b := by
  obtain ⟨-, happart⟩ := h
  induction gap with
  | nil => exact ⟨true, by simp⟩
  | cons p gap ih =>
    obtain ⟨b, hb⟩ := ih (fun q hq => hgap q (List.mem_cons_of_mem _ hq)) happart.tail
    refine ⟨p.isSpace, fun q hq => ?_⟩
    rcases List.mem_cons.1 hq with rfl | hq
    · rfl
    · cases gap with
      | nil => cases hq
      | cons r gap =>
        have hpr := (List.isChain_cons_cons.1 happart).1 (hgap p List.mem_cons_self)
          (hgap r (List.mem_cons_of_mem _ List.mem_cons_self))
        rw [hpr, hb r List.mem_cons_self, hb q hq]

/-- Such blanks are not changed by folding. -/
theorem KeepsLines.foldGap_eq
    (h : KeepsLines gap)
    (hgap : ∀ p ∈ gap, p.isGap = true) :
    foldGap (piecesUnits gap) = piecesUnits gap := by
  obtain ⟨b, hb⟩ := h.isSpace_eq hgap
  cases b with
  | true =>
    have hnone : (piecesUnits gap).filter isBreak = [] := by
      refine List.filter_eq_nil_iff.2 fun c hc => ?_
      obtain ⟨p, hp, rfl⟩ := List.mem_map.1 hc
      rw [beq_iff_eq.1 (Piece.of_isPlain (hb p hp)).2.1]
      decide
    rw [foldGap, keptBreaks, hnone]
    rfl
  | false =>
    have hseparator : ∀ c ∈ piecesUnits gap, c = 0x2028 ∨ c = 0x2029 := by
      intro c hc
      obtain ⟨p, hp, rfl⟩ := List.mem_map.1 hc
      have hbreak : p.isBreak = true := by simpa [p.isGap_eq, hb p hp] using hgap p hp
      exact (Piece.meaning_of_isBreak hbreak).resolve_left
        fun heq => h.noNextLine p hp (by rw [(Piece.of_isPlain hbreak).1, heq])
    have hall : (piecesUnits gap).filter isBreak = piecesUnits gap :=
      List.filter_eq_self.2 fun c hc => by rcases hseparator c hc with rfl | rfl <;> decide
    have hkept : (piecesUnits gap).map keptBreak = piecesUnits gap :=
      List.map_congr_left (fun c hc => if_pos (hseparator c hc)) |>.trans (List.map_id _)
    rw [foldGap, keptBreaks, hall, hkept]
    cases hunits : piecesUnits gap with
    | nil => rfl
    | cons c units =>
      have hne : c ≠ '\n' := by
        rcases hseparator c (hunits ▸ List.mem_cons_self) with rfl | rfl <;> decide
      simp [hne]

/-- The lines of a string without such places are not folded. -/
theorem KeepsLines.foldFrom_eq
    (hgap : ∀ p ∈ gap, p.isGap = true)
    (h : KeepsLines (gap ++ pieces)) :
    foldFrom (piecesUnits gap) pieces = piecesUnits gap ++ piecesUnits pieces := by
  induction pieces generalizing gap with
  | nil =>
    rw [List.append_nil] at h
    rw [foldFrom, h.foldGap_eq hgap]
    exact (List.append_nil _).symm
  | cons p pieces ih =>
    cases hp : p.isGap with
    | true =>
      have hunits : piecesUnits gap ++ [p.meaning] = piecesUnits (gap ++ [p]) :=
        (piecesUnits_append gap [p]).symm
      have hgap' : ∀ q ∈ gap ++ [p], q.isGap = true := by
        intro q hq
        rcases List.mem_append.1 hq with hq | hq
        · exact hgap q hq
        · rw [List.mem_singleton.1 hq, hp]
      rw [foldFrom, if_pos hp, hunits, ih hgap' (by rwa [List.append_assoc]), ← hunits,
        List.append_assoc]
      rfl
    | false =>
      have hfront : KeepsLines gap :=
        ⟨fun q hq => h.noNextLine q (List.mem_append_left _ hq), h.apart.left_of_append⟩
      have hback : KeepsLines ([] ++ pieces) :=
        ⟨fun q hq => h.noNextLine q (List.mem_append_right _ (List.mem_cons_of_mem _ hq)),
          h.apart.right_of_append.tail⟩
      have hrest : foldFrom [] pieces = piecesUnits pieces := ih (by simp) hback
      rw [foldFrom, if_neg (by simp [hp]), hfront.foldGap_eq hgap, hrest]
      rfl

/-- A string that keeps its lines denotes what it says. -/
theorem KeepsLines.foldedValue_eq
    (h : KeepsLines pieces) :
    foldedValue pieces = piecesValue pieces := by
  have hunits : foldFrom (piecesUnits []) pieces = piecesUnits pieces := KeepsLines.foldFrom_eq (by simp) h
  rw [foldedValue, piecesValue, ← hunits]
  rfl

end Kept

end Json

namespace Markup

open Json

/-! ## Reading a string -/

section Pieces

variable (bound fuel : Nat) {c : Cursor} {t : Text} {p : Piece} {pieces : List Piece}

/-- The pieces of a string, its closing quote, and a text behind it. -/
def closed (pieces : List Piece) (t : Text) : Text := piecesText pieces ++ ('"' : CodePoint) :: t

theorem closed_cons
    (p : Piece)
    (pieces : List Piece)
    (t : Text) :
    closed (p :: pieces) t = p.text ++ closed pieces t :=
  piecesText_cons_append p pieces _

/-- A piece other than a blank is read on its own, as the code point for which it stands. -/
theorem quotedWord_of_piece
    (hrest : c.rest = p.text ++ t)
    (hgap : p.isGap = false) :
    ∃ fuel' d, fuel ≤ fuel' ∧ d.rest = t ∧
      quotedWord true bound (fuel + 1) c =
        (quotedWord true bound fuel' d).map (withFront p.meaning) := by
  cases p with
  | plain x hx =>
    rw [Piece.text, List.singleton_append] at hrest
    have hnext : c.next.rest = t := by rw [Cursor.rest_next, hrest, List.tail_cons]
    by_cases hquote : x = '\''
    · have hrun := run_of_not_isOrdinary hrest (by rw [hquote]; decide)
      refine ⟨fuel, c.next, Nat.le_refl _, hnext, quotedWord_of_wordStep hrun ?_⟩
      simp [wordStep, Cursor.isAt, Cursor.peek, hrest, hquote, Piece.meaning]
    · have htab : x ≠ '\t' := by
        rintro rfl
        exact absurd hx.1 (by decide)
      have hordinary : isOrdinary x = true := by
        simp only [Piece.isGap, Piece.isPlain, isGap, Bool.or_eq_false_iff, beq_eq_false_iff_ne,
          ne_eq] at hgap
        simp [isOrdinary, isSpaceOrTab, hquote, hx.2.1, hx.2.2, hgap.1, hgap.2, htab]
      exact ⟨fuel + 1, c.next, Nat.le_succ _, hnext, quotedWord_of_isOrdinary hrest hordinary⟩
  | escape letter meaning hletter =>
    have hnext : c.next.rest = letter :: t := by rw [Cursor.rest_next, hrest]; rfl
    refine ⟨fuel, c.next.next, Nat.le_refl _, ?_, ?_⟩
    · rw [Cursor.rest_next, hnext, List.tail_cons]
    · exact quotedWord_of_escaped hrest (escaped_letter hnext hletter)
  | unit a b x d meaning hunit =>
    have hnext : c.next.rest = ('u' : CodePoint) :: a :: b :: x :: d :: t := by
      rw [Cursor.rest_next, hrest]
      rfl
    refine ⟨fuel, c.next.next.skip 4, Nat.le_refl _, ?_, ?_⟩
    · rw [Cursor.rest_skip, Cursor.rest_next, hnext]
      rfl
    · exact quotedWord_of_escaped hrest (escaped_unit hnext hunit)

/-- The pieces up to the next blank are one word. -/
theorem quotedWord_of_pieces
    (hrest : c.rest = closed pieces t)
    (hfuel : pieces.length < fuel) :
    ∃ d, d.rest = closed (pieces.dropWhile fun p => !p.isGap) t ∧
      quotedWord true bound fuel c =
        .ok (piecesUnits (pieces.takeWhile fun p => !p.isGap), d) := by
  induction pieces generalizing c fuel with
  | nil => exact ⟨c, hrest, quotedWord_of_end hrest (by decide) (by decide)⟩
  | cons p pieces ih =>
    have hcons := hrest.trans (closed_cons p pieces t)
    cases hgap : p.isGap with
    | true =>
      rw [List.dropWhile_cons_of_neg (by simp [hgap]), List.takeWhile_cons_of_neg (by simp [hgap])]
      obtain ⟨htext, hmeaning, -⟩ := Piece.of_isPlain hgap
      rw [htext] at hcons
      have hordinary : isOrdinary p.meaning = false := by
        simp only [isGap, Bool.or_eq_true, beq_iff_eq] at hmeaning
        rcases hmeaning with hspace | hbreak
        · rw [hspace]
          decide
        · simp [isOrdinary, hbreak]
      refine ⟨c, hrest, quotedWord_of_end hcons hordinary ⟨?_, ?_⟩⟩
      all_goals
        intro heq
        rw [heq] at hmeaning
        exact absurd hmeaning (by decide)
    | false =>
      rw [List.dropWhile_cons_of_pos (by simp [hgap]), List.takeWhile_cons_of_pos (by simp [hgap])]
      obtain ⟨fuel, rfl⟩ : ∃ n, fuel = n + 1 := ⟨fuel - 1, by omega⟩
      obtain ⟨fuel', d, hle, hd, hword⟩ := quotedWord_of_piece bound fuel hcons hgap
      rw [List.length_cons] at hfuel
      obtain ⟨e, he, hmore⟩ := ih fuel' hd (by omega)
      refine ⟨e, he, ?_⟩
      rw [hword, hmore]
      rfl

/-- Behind a stretch of spaces stands what is no space. -/
theorem span_spaces
    (pieces : List Piece)
    (t : Text) :
    (closed pieces t).takeWhile isSpaceOrTab = piecesUnits (pieces.takeWhile Piece.isSpace) ∧
      (closed pieces t).dropWhile isSpaceOrTab = closed (pieces.dropWhile Piece.isSpace) t := by
  induction pieces with
  | nil => exact ⟨rfl, rfl⟩
  | cons p pieces ih =>
    rw [closed_cons]
    cases hspace : p.isSpace with
    | true =>
      obtain ⟨htext, hmeaning, -⟩ := Piece.of_isPlain hspace
      rw [beq_iff_eq] at hmeaning
      rw [htext, hmeaning, List.takeWhile_cons_of_pos hspace, List.dropWhile_cons_of_pos hspace,
        List.singleton_append, List.takeWhile_cons_of_pos (by decide),
        List.dropWhile_cons_of_pos (by decide), ih.1, ih.2, ← hmeaning]
      exact ⟨rfl, rfl⟩
    | false =>
      obtain ⟨x, rest, htext, hblank⟩ := p.exists_text_eq hspace
      rw [List.takeWhile_cons_of_neg (by simp [hspace]), List.dropWhile_cons_of_neg (by simp [hspace]),
        closed_cons, htext, List.cons_append, List.takeWhile_cons_of_neg (by simp [hblank]),
        List.dropWhile_cons_of_neg (by simp [hblank])]
      exact ⟨rfl, rfl⟩

/-- Whether a line ends in front of the pieces of a string. -/
theorem head?_closed
    (pieces : List Piece)
    (t : Text) :
    ∃ x, (closed pieces t).head? = some x ∧ isBreak x = pieces.head?.any Piece.isBreak := by
  cases pieces with
  | nil => exact ⟨'"', rfl, by decide⟩
  | cons p pieces =>
    have hbackslash : isBreak '\\' = false := by decide
    rw [closed_cons]
    cases p with
    | plain x _ => exact ⟨x, rfl, rfl⟩
    | escape => exact ⟨'\\', rfl, hbackslash⟩
    | unit => exact ⟨'\\', rfl, hbackslash⟩

theorem isIn_isBreak
    (hrest : c.rest = closed pieces t) :
    c.isIn isBreak = pieces.head?.any Piece.isBreak := by
  obtain ⟨x, hx, hbreak⟩ := head?_closed pieces t
  rw [Cursor.isIn, Cursor.peek, hrest, hx, ← hbreak]
  rfl

/-- What stands behind the closing quote does not make a document marker. -/
theorem atMarker_closed
    (hrest : c.rest = closed pieces t) :
    c.atMarker = Json.atMarker pieces := by
  have hdashes : ("---" : Text) = [('-' : CodePoint), ('-' : CodePoint), ('-' : CodePoint)] := rfl
  have hpoints : ("..." : Text) = [('.' : CodePoint), ('.' : CodePoint), ('.' : CodePoint)] := rfl
  have hdash : (('-' : CodePoint) == ('"' : CodePoint)) = false := by decide
  have hpoint : (('.' : CodePoint) == ('"' : CodePoint)) = false := by decide
  simp only [Json.atMarker, Cursor.atMarker, Cursor.ahead, hrest, Cursor.start, closed, hdashes,
    hpoints]
  generalize piecesText pieces = u
  rcases u with _ | ⟨a, _ | ⟨b, _ | ⟨d, _ | ⟨e, u⟩⟩⟩⟩
  · simp [List.isPrefixOf, hdash, hpoint]
  · simp [List.isPrefixOf, hdash, hpoint]
  · simp [List.isPrefixOf, hdash, hpoint]
  · simp [List.isPrefixOf]
  · simp [List.isPrefixOf]

/-- The blanks in front of a word are spaces first. -/
theorem takeWhile_isGap
    (pieces : List Piece) :
    pieces.takeWhile Piece.isGap =
      pieces.takeWhile Piece.isSpace ++ (pieces.dropWhile Piece.isSpace).takeWhile Piece.isGap := by
  induction pieces with
  | nil => rfl
  | cons p pieces ih =>
    cases hspace : p.isSpace with
    | true =>
      have hgap : p.isGap = true := by rw [p.isGap_eq, hspace, Bool.true_or]
      rw [List.takeWhile_cons_of_pos hgap, List.takeWhile_cons_of_pos hspace,
        List.dropWhile_cons_of_pos hspace, ih, List.cons_append]
    | false =>
      rw [List.takeWhile_cons_of_neg (p := Piece.isSpace) (by simp [hspace]),
        List.dropWhile_cons_of_neg (by simp [hspace]), List.nil_append]

theorem dropWhile_isGap
    (pieces : List Piece) :
    pieces.dropWhile Piece.isGap = (pieces.dropWhile Piece.isSpace).dropWhile Piece.isGap :=
  (dropWhile_dropWhile (fun p hp => by rw [p.isGap_eq, hp, Bool.true_or]) pieces).symm

/-- Spaces leave no line break. -/
theorem keptBreaks_takeWhile_isGap
    (pieces : List Piece) :
    keptBreaks (piecesUnits (pieces.takeWhile Piece.isGap)) =
      keptBreaks (piecesUnits ((pieces.dropWhile Piece.isSpace).takeWhile Piece.isGap)) := by
  have hspaces : (piecesUnits (pieces.takeWhile Piece.isSpace)).filter isBreak = [] := by
    refine List.filter_eq_nil_iff.2 fun c hc => ?_
    obtain ⟨p, hp, rfl⟩ := List.mem_map.1 hc
    rw [beq_iff_eq.1 (Piece.of_isPlain (List.mem_takeWhile_imp hp)).2.1]
    decide
  rw [takeWhile_isGap, keptBreaks, piecesUnits_append, List.filter_append, hspaces, List.nil_append]
  rfl

/-- A line break between quotes is passed over. -/
theorem lineBreak_of_piece
    (hrest : c.rest = closed (p :: pieces) t)
    (hbreak : p.isBreak = true) :
    c.lineBreak = ([keptBreak p.meaning], c.next) ∧ c.next.rest = closed pieces t := by
  have hcons := hrest.trans (closed_cons p pieces t)
  rw [(Piece.of_isPlain hbreak).1] at hcons
  refine ⟨?_, by rw [Cursor.rest_next, hcons]; rfl⟩
  rw [Cursor.lineBreak, hcons]
  rcases Piece.meaning_of_isBreak hbreak with heq | heq | heq <;> rw [heq] <;> rfl

/-- Behind a line break all blanks go, and the line breaks among them stay; but no line may start
with a document marker. -/
theorem quotedBreaks_of_pieces
    (hrest : c.rest = closed pieces t)
    (hfuel : pieces.length < fuel) :
    ∃ d, d.rest = closed (pieces.dropWhile Piece.isGap) t ∧
      quotedBreaks fuel c =
        if atMarker pieces || hasMarkedGap pieces then .error .malformed
        else .ok (keptBreaks (piecesUnits (pieces.takeWhile Piece.isGap)), d) := by
  induction fuel generalizing c pieces with
  | zero => omega
  | succ fuel ih =>
    cases hmarker : atMarker pieces with
    | true =>
      exact ⟨Cursor.start (closed _ t), rfl, by rw [quotedBreaks, atMarker_closed hrest, hmarker]; rfl⟩
    | false =>
      have hspaces : (c.skipWhile isSpaceOrTab).rest = closed (pieces.dropWhile Piece.isSpace) t := by
        rw [Cursor.rest_skipWhile, hrest, (span_spaces pieces t).2]
      rw [quotedBreaks, atMarker_closed hrest, hmarker, keptBreaks_takeWhile_isGap, dropWhile_isGap,
        hasMarkedGap_spaces]
      simp only [Bool.false_eq_true, if_false, Bool.false_or]
      have hlength := (List.dropWhile_suffix (l := pieces) Piece.isSpace).length_le
      have hnospace := List.head?_dropWhile_not Piece.isSpace pieces
      generalize c.skipWhile isSpaceOrTab = c at hspaces
      generalize pieces.dropWhile Piece.isSpace = after at *
      cases after with
      | nil => exact ⟨c, hspaces, by rw [isIn_isBreak hspaces]; rfl⟩
      | cons p after =>
        have hspace : p.isSpace = false := hnospace
        rw [isIn_isBreak hspaces]
        cases hbreak : p.isBreak with
        | true =>
          have hgap : p.isGap = true := by rw [p.isGap_eq, hbreak, Bool.or_true]
          obtain ⟨hline, hrest⟩ := lineBreak_of_piece hspaces hbreak
          rw [List.length_cons] at hlength
          obtain ⟨d, hd, hmore⟩ := ih hrest (by omega)
          rw [List.dropWhile_cons_of_pos hgap, List.takeWhile_cons_of_pos hgap]
          refine ⟨d, hd, ?_⟩
          have hkept : keptBreaks (piecesUnits (p :: after.takeWhile Piece.isGap)) =
              keptBreak p.meaning :: keptBreaks (piecesUnits (after.takeWhile Piece.isGap)) :=
            keptBreaks_cons (Piece.of_isPlain hbreak).2.1 _
          simp only [List.head?_cons, Option.any_some, hbreak, if_true, hline, hmore, hasMarkedGap,
            hgap, hkept, Bool.true_and]
          cases atMarker after || hasMarkedGap after <;> rfl
        | false =>
          have hgap : p.isGap = false := by rw [p.isGap_eq, hspace, hbreak, Bool.or_false]
          rw [List.dropWhile_cons_of_neg (by simp [hgap]), List.takeWhile_cons_of_neg (by simp [hgap]),
            hasMarkedGap, hgap]
          exact ⟨c, hspaces, by simp [hbreak, piecesUnits, keptBreaks]⟩

/-- Blanks are folded. -/
theorem quotedBlanks_of_pieces
    (hrest : c.rest = closed pieces t)
    (hbound : pieces.length < bound) :
    ∃ d, d.rest = closed (pieces.dropWhile Piece.isGap) t ∧
      quotedBlanks bound c =
        if hasMarkedGap pieces then .error .malformed
        else .ok (foldGap (piecesUnits (pieces.takeWhile Piece.isGap)), d) := by
  have hrun : c.run isSpaceOrTab = piecesUnits (pieces.takeWhile Piece.isSpace) := by
    rw [Cursor.run, hrest, (span_spaces pieces t).1]
  have hspaces : (c.skipWhile isSpaceOrTab).rest = closed (pieces.dropWhile Piece.isSpace) t := by
    rw [Cursor.rest_skipWhile, hrest, (span_spaces pieces t).2]
  have hskip : c.skip (c.run isSpaceOrTab).length = c.skipWhile isSpaceOrTab := rfl
  have hall := takeWhile_isGap pieces
  have hkept := keptBreaks_takeWhile_isGap pieces
  have hlength := (List.dropWhile_suffix (l := pieces) Piece.isSpace).length_le
  have hnospace := List.head?_dropWhile_not Piece.isSpace pieces
  rw [quotedBlanks, hskip, hrun, dropWhile_isGap, hasMarkedGap_spaces]
  generalize c.skipWhile isSpaceOrTab = c at hspaces
  generalize pieces.dropWhile Piece.isSpace = after at *
  obtain ⟨x, hx, hxbreak⟩ := head?_closed after t
  have hpeek : c.peek = some x := by rw [Cursor.peek, hspaces, hx]
  simp only [hpeek, hxbreak]
  cases after with
  | nil =>
    rw [foldGap_of_nil hkept, hall]
    exact ⟨c, hspaces, by simp [hasMarkedGap]⟩
  | cons p after =>
    have hspace : p.isSpace = false := hnospace
    cases hbreak : p.isBreak with
    | true =>
      have hgap : p.isGap = true := by rw [p.isGap_eq, hbreak, Bool.or_true]
      obtain ⟨hline, hnext⟩ := lineBreak_of_piece hspaces hbreak
      rw [List.length_cons] at hlength
      obtain ⟨d, hd, hmore⟩ := quotedBreaks_of_pieces bound hnext (by omega)
      rw [List.takeWhile_cons_of_pos hgap] at hkept
      have hcons : keptBreaks (piecesUnits (pieces.takeWhile Piece.isGap)) =
          keptBreak p.meaning :: keptBreaks (piecesUnits (after.takeWhile Piece.isGap)) :=
        hkept.trans (keptBreaks_cons (Piece.of_isPlain hbreak).2.1 _)
      rw [List.dropWhile_cons_of_pos hgap, foldGap_of_cons hcons]
      refine ⟨d, hd, ?_⟩
      have hfeed : ("\n" : Text) = [('\n' : CodePoint)] := rfl
      simp only [List.head?_cons, Option.any_some, hbreak, if_true, hline, hmore, hfeed, bne_iff_ne,
        ne_eq, List.cons.injEq, and_true, hasMarkedGap, hgap, Bool.true_and]
      cases atMarker after || hasMarkedGap after <;> rfl
    | false =>
      have hgap : p.isGap = false := by rw [p.isGap_eq, hspace, hbreak, Bool.or_false]
      rw [List.takeWhile_cons_of_neg (by simp [hgap])] at hall hkept
      rw [List.dropWhile_cons_of_neg (by simp [hgap]), foldGap_of_nil hkept, hall, List.append_nil,
        hasMarkedGap, hgap]
      exact ⟨c, hspaces, by simp [hbreak]⟩

/-- Blanks and words follow each other up to the closing quote, unless a line starts with a document
marker. -/
theorem quotedRest_of_pieces
    (hrest : c.rest = closed pieces t)
    (hhead : ∀ p ∈ pieces.head?, p.isGap = true)
    (hfuel : pieces.length < fuel)
    (hbound : pieces.length < bound) :
    ∃ d, d.rest = t ∧
      quotedRest true bound fuel c =
        if hasMarkedLine pieces then .error .malformed else .ok (foldedUnits pieces, d) := by
  induction fuel generalizing pieces c with
  | zero => omega
  | succ fuel ih =>
    cases pieces with
    | nil =>
      have hquote : c.isAt '"' = true := by simp [Cursor.isAt, Cursor.peek, hrest, closed, piecesText]
      refine ⟨c.next, by rw [Cursor.rest_next, hrest]; rfl, ?_⟩
      simp [quotedRest, hquote, hasMarkedLine, foldedUnits, foldFrom, foldGap, keptBreaks]
    | cons p pieces =>
      have hgap := hhead p rfl
      have hquote : c.isAt '"' = false := by
        obtain ⟨htext, hmeaning, -⟩ := Piece.of_isPlain hgap
        have hne : p.meaning ≠ '"' := by
          intro heq
          rw [heq] at hmeaning
          exact absurd hmeaning (by decide)
        rw [closed_cons, htext] at hrest
        simp [Cursor.isAt, Cursor.peek, hrest, hne]
      obtain ⟨d, hd, hblanks⟩ := quotedBlanks_of_pieces bound hrest hbound
      have hfolded : foldedUnits (p :: pieces) =
          foldGap (piecesUnits ((p :: pieces).takeWhile Piece.isGap)) ++
            foldedUnits ((p :: pieces).dropWhile Piece.isGap) :=
        foldFrom_gap [] _
      rw [List.dropWhile_cons_of_pos hgap] at hd hfolded
      rw [hasMarkedLine_gap, List.dropWhile_cons_of_pos hgap]
      simp only [quotedRest, hquote, hblanks, if_true, Bool.false_eq_true, if_false]
      cases hasMarkedGap (p :: pieces) with
      | true => exact ⟨Cursor.start t, rfl, rfl⟩
      | false =>
        -- behind the blanks there is a word, and behind the word blanks or the quote
        have hlength := (List.dropWhile_suffix (l := pieces) Piece.isGap).length_le
        generalize pieces.dropWhile Piece.isGap = middle at hd hfolded hlength
        rw [List.length_cons] at hfuel hbound
        obtain ⟨e, he, hword⟩ := quotedWord_of_pieces bound bound hd (by omega)
        have hllength := (List.dropWhile_suffix (l := middle) fun q => !q.isGap).length_le
        have hlhead := Piece.isGap_of_head middle
        rw [foldedUnits_word middle] at hfolded
        rw [hasMarkedLine_word]
        generalize middle.dropWhile (fun q => !q.isGap) = last at he hllength hlhead hfolded
        obtain ⟨f, hf, hmore⟩ := ih he hlhead (by omega) (by omega)
        refine ⟨f, hf, ?_⟩
        simp only [hword, hmore, Bool.false_eq_true, if_false, Bool.false_or]
        cases hasMarkedLine last with
        | true => rfl
        | false => simp only [Bool.false_eq_true, if_false, hfolded, List.append_assoc]

theorem length_le_piecesText
    (pieces : List Piece) :
    pieces.length ≤ (piecesText pieces).length := by
  induction pieces with
  | nil => exact Nat.le_refl _
  | cons p pieces ih =>
    have htext : 0 < p.text.length := by cases p <;> simp [Piece.text]
    have hlength := congrArg List.length (piecesText_cons_append p pieces [])
    simp only [List.append_nil, List.length_append] at hlength
    rw [List.length_cons]
    omega

/-- A quoted string is read to its closing quote, with its lines folded, unless a line starts with a
document marker. -/
theorem quoted_eq
    (hrest : c.rest = quotedText pieces ++ t)
    (hbound : c.rest.length < bound) :
    ∃ d, d.rest = t ∧
      quoted true bound c =
        if hasMarkedLine pieces then .error .malformed else .ok (foldedUnits pieces, d) := by
  have hnext : c.next.rest = closed pieces t := by
    rw [Cursor.rest_next, hrest, quotedText, between, List.cons_append, List.tail_cons,
      List.append_assoc]
    rfl
  have hlength := length_le_piecesText pieces
  rw [hrest, quotedText, between, List.cons_append, List.length_cons, List.length_append,
    List.length_append] at hbound
  obtain ⟨d, hd, hword⟩ := quotedWord_of_pieces bound bound hnext (by omega)
  have hllength := (List.dropWhile_suffix (l := pieces) fun q => !q.isGap).length_le
  have hlhead := Piece.isGap_of_head pieces
  have hfolded := foldedUnits_word pieces
  rw [hasMarkedLine_word]
  generalize pieces.dropWhile (fun q => !q.isGap) = last at hd hllength hlhead hfolded
  obtain ⟨e, he, hmore⟩ := quotedRest_of_pieces bound bound hd hlhead (by omega) (by omega)
  refine ⟨e, he, ?_⟩
  simp only [quoted, hword, hmore]
  cases hasMarkedLine last with
  | true => rfl
  | false => simp only [Bool.false_eq_true, if_false, hfolded]

end Pieces

end Markup

end Workflow
