import Workflow.Markup.TokenStream
import Workflow.Proofs.FlowQuotes
import Workflow.Proofs.JsonScalars

/-!
# Scanning flow text

A form of JSON is flow text: outside of its strings it has no indentation, no comments and no
properties of nodes.  The scanner finds the kinds of tokens that the form consists of.

`Ready` is the invariant between two tokens.  It says which tokens were found and what is left of
the text, and that nothing is required of any pending key.  One lemma a token says how the invariant
goes over it; `Reaches` puts them together, and counts that no step of the scanner is without
progress.  The only place where the scanner breaks off is a string in which a line starts with a
document marker.
-/

namespace Workflow

namespace Markup

/-! ## What is left of a text -/

/-- A text with its tabs taken as spaces. -/
def untabbed (t : Text) : Text := t.replacePoint '\t' ' '

/-- A text with its tabs taken as spaces, behind the blanks at its start. -/
def core (t : Text) : Text := (untabbed t).dropWhile isGap

@[simp]
theorem untabbed_append
    (t u : Text) :
    untabbed (t ++ u) = untabbed t ++ untabbed u :=
  List.map_append

theorem untabbed_cons
    {c : CodePoint}
    (h : c ≠ '\t')
    (t : Text) :
    untabbed (c :: t) = c :: untabbed t := by
  rw [untabbed, Text.replacePoint, List.map_cons, if_neg h]
  rfl

/-- A text without tabs stays. -/
theorem untabbed_eq_self
    {t : Text}
    (h : ('\t' : CodePoint) ∉ t) :
    untabbed t = t := by
  induction t with
  | nil => rfl
  | cons c t ih =>
    obtain ⟨hc, ht⟩ := not_or.1 (mt List.mem_cons.2 h)
    rw [untabbed_cons (Ne.symm hc), ih ht]

theorem core_cons
    {c : CodePoint}
    (hgap : isGap c = false)
    (htab : c ≠ '\t')
    (t : Text) :
    core (c :: t) = c :: untabbed t := by
  rw [core, untabbed_cons htab, List.dropWhile_cons_of_neg (by simp [hgap])]

/-- The white space of JSON is blank. -/
theorem isGap_of_mem_untabbed
    (gap : Json.Gap) :
    ∀ c ∈ untabbed gap.text, isGap c = true := by
  intro c hc
  obtain ⟨d, hd, rfl⟩ := List.mem_map.1 hc
  have hspace := List.all_eq_true.1 gap.isBlank d hd
  simp only [Json.isSpace, Bool.or_eq_true, beq_iff_eq] at hspace
  rcases hspace with ((rfl | rfl) | rfl) | rfl <;> decide

@[simp]
theorem core_gap_append
    (gap : Json.Gap)
    (t : Text) :
    core (gap.text ++ t) = core t := by
  rw [core, untabbed_append, List.dropWhile_append_of_pos (isGap_of_mem_untabbed gap)]
  rfl

namespace ScanState

/-! ## The invariant -/

/-- The scanner stands in front of a text in flow collections: these kinds of tokens were found, in
order, and the end of the stream is not among them.  Blanks may have been read ahead. -/
structure Ready (s : ScanState) (kinds : List TokenKind) (level : Nat) (t : Text) : Prop where
  found : s.tokens.reverse.map Token.kind = kinds
  running : TokenKind.streamEnd ∉ kinds
  count : s.count = s.tokens.length
  depth : s.level = level
  indent : s.indent = -1
  indents : s.indents = []
  farKeys : s.farKeys = true
  optional : ∀ key ∈ s.pending, key.required = false
  rest : s.cursor.rest.dropWhile isGap = core t
  room : s.cursor.rest.length < s.bound

section Steps

variable {s : ScanState} {kinds : List TokenKind} {level : Nat} {t u : Text}

namespace Ready

theorem congr
    (h : s.Ready kinds level t)
    (htext : core t = core u) :
    s.Ready kinds level u :=
  { h with rest := h.rest.trans htext }

/-- Blanks in front do not matter. -/
theorem skipGap
    {gap : Json.Gap}
    (h : s.Ready kinds level (gap.text ++ t)) :
    s.Ready kinds level t :=
  h.congr (core_gap_append gap t)

theorem isDone_eq_false
    (h : s.Ready kinds level t) :
    s.isDone = false := by
  have hrunning := h.running
  rw [← h.found] at hrunning
  unfold isDone
  split
  case h_1 heq => simp [heq] at hrunning
  case h_2 => rfl

/-- Pending keys and the permission of keys may change, as long as no key is required. -/
theorem withPending
    {pending : List PendingKey}
    (h : s.Ready kinds level t)
    (hpending : ∀ key ∈ pending, key.required = false) :
    Ready { s with pending := pending } kinds level t :=
  ⟨h.found, h.running, h.count, h.depth, h.indent, h.indents, h.farKeys, hpending, h.rest, h.room⟩

theorem dropPending_eq
    (h : s.Ready kinds level t) :
    s.dropPending = .ok { s with pending := s.pending.filter fun key => key.level != s.level } := by
  have hnone : (s.pending.any fun key => key.level == s.level && key.required) = false := by
    refine List.any_eq_false.2 fun key hkey => ?_
    simp [h.optional key hkey]
  rw [dropPending, if_neg (by simp [hnone])]

theorem optional_filter
    {p : PendingKey → Bool}
    (h : s.Ready kinds level t) :
    ∀ key ∈ s.pending.filter p, key.required = false :=
  fun key hkey => h.optional key (List.mem_filter.1 hkey).1

theorem dropStale_eq
    (h : s.Ready kinds level t) :
    ∃ pending, s.dropStale = .ok { s with pending := pending } ∧
      (∀ key ∈ pending, key.required = false) ∧ (level ≠ 0 → pending = s.pending) := by
  rw [dropStale]
  split
  · exact ⟨s.pending, rfl, h.optional, fun _ => rfl⟩
  case isFalse hlevel =>
    have hzero : level = 0 := by
      simpa [h.farKeys, h.depth] using hlevel
    simp only []
    split
    case isTrue hany =>
      obtain ⟨key, hkey, hboth⟩ := List.any_eq_true.1 hany
      rw [h.optional key hkey, Bool.and_false] at hboth
      cases hboth
    case isFalse =>
      exact ⟨_, rfl, h.optional_filter, fun hne => absurd hzero hne⟩

theorem unwind_eq
    (h : s.Ready kinds level t)
    (column : Int) :
    s.unwind column = s := by
  rw [unwind, h.indents]
  split <;> rfl

end Ready

/-- Blanks are passed over; keys that were allowed stay so. -/
theorem skipBlank_eq
    (fuel : Nat)
    (hfuel : s.cursor.rest.length < fuel)
    (hcomment : ∀ c ∈ (s.cursor.rest.dropWhile isGap).head?, c ≠ '#') :
    ∃ cursor allowed, skipBlank fuel s = { s with cursor := cursor, keyAllowed := allowed } ∧
      cursor.rest = s.cursor.rest.dropWhile isGap ∧ (s.keyAllowed = true → allowed = true) := by
  induction fuel generalizing s with
  | zero => omega
  | succ fuel ih =>
    have hdrop := s.cursor.dropWhile_skipSpaces
    have hle := s.cursor.length_skipSpaces_le
    have hskip : s.cursor.skipSpaces.skipComment = s.cursor.skipSpaces := by
      rw [Cursor.skipComment, if_neg]
      intro hhash
      obtain ⟨rest, hrest⟩ := Cursor.rest_of_isIn hhash
      rw [← hdrop, hrest, List.dropWhile_cons_of_neg (by decide)] at hcomment
      exact hcomment '#' rfl rfl
    simp only [skipBlank, hskip]
    split
    case isTrue hbreak =>
      obtain ⟨hline, hlt⟩ := Cursor.rest_lineBreak hbreak
      obtain ⟨cursor, allowed, heq, hcursor, hallowed⟩ := ih
        (s := { s with
          cursor := s.cursor.skipSpaces.lineBreak.2, keyAllowed := s.keyAllowed || s.level == 0 })
        (by simp only []; omega) (by simp only []; rwa [hline, hdrop])
      refine ⟨cursor, allowed, heq, hcursor.trans (hline.trans hdrop), fun h => hallowed ?_⟩
      rw [h, Bool.true_or]
    case isFalse hbreak =>
      exact ⟨s.cursor.skipSpaces, s.keyAllowed, rfl, Cursor.rest_skipSpaces (by simpa using hbreak),
        id⟩

/-- One state leads to another, and no step on the way is without progress. -/
def Reaches (s s' : ScanState) : Prop :=
  ∃ n, s'.cursor.rest.length + n ≤ s.cursor.rest.length ∧
    ∀ before fuel, ∃ before',
      TokenStream.scan before (fuel + n) s = TokenStream.scan before' fuel s'

theorem Reaches.trans
    {s s' s'' : ScanState}
    (h : s.Reaches s')
    (h' : s'.Reaches s'') :
    s.Reaches s'' := by
  obtain ⟨n, hn, hrun⟩ := h
  obtain ⟨n', hn', hrun'⟩ := h'
  refine ⟨n' + n, by omega, fun before fuel => ?_⟩
  obtain ⟨before', heq⟩ := hrun before (fuel + n')
  obtain ⟨before'', heq'⟩ := hrun' before' fuel
  exact ⟨before'', by rw [← Nat.add_assoc, heq, heq']⟩

/-- The scanner breaks off behind a state: without a token for the end of the stream. -/
def BreaksOff (s : ScanState) : Prop :=
  ∃ n ≤ s.cursor.rest.length, ∀ before fuel,
    (TokenStream.scan before (fuel + n + 1) s).problem = .malformed ∧
      ∀ token ∈ (TokenStream.scan before (fuel + n + 1) s).tokens, token.kind ≠ .streamEnd

theorem Reaches.breaksOff
    {s s' : ScanState}
    (h : s.Reaches s')
    (h' : s'.BreaksOff) :
    s.BreaksOff := by
  obtain ⟨n, hn, hrun⟩ := h
  obtain ⟨n', hn', hbreak⟩ := h'
  refine ⟨n' + n, by omega, fun before fuel => ?_⟩
  obtain ⟨before', heq⟩ := hrun before (fuel + n' + 1)
  have hfuel : fuel + (n' + n) + 1 = fuel + n' + 1 + n := by omega
  rw [hfuel, heq]
  exact hbreak before' fuel

/-- What comes of a step from a state: the scanner goes on or breaks off. -/
def proceed (s : ScanState) (fuel : Nat) : Except Problem ScanState → TokenStream
  | .error problem => ⟨s.settled, problem⟩
  | .ok after => TokenStream.scan s fuel after

/-- The state in front of the next token: the blanks are passed over, and a step goes on by reading
the token. -/
structure Before (s u : ScanState) (t : Text) : Prop where
  rest : u.cursor.rest = core t
  room : u.cursor.rest.length ≤ s.cursor.rest.length
  allowed : s.keyAllowed = true → u.keyAllowed = true
  pending : s.level ≠ 0 → u.pending = s.pending
  step : ∃ pending, ∀ before fuel, TokenStream.scan before (fuel + 1) s =
    proceed { s with pending := pending } fuel u.readToken

theorem Before.reaches
    {s s' v : ScanState}
    (h : s.Before v t)
    (hread : v.readToken = .ok s')
    (hlt : s'.cursor.rest.length < v.cursor.rest.length) :
    s.Reaches s' := by
  have hroom := h.room
  obtain ⟨pending, hstep⟩ := h.step
  refine ⟨1, by omega, fun before fuel => ⟨{ s with pending := pending }, ?_⟩⟩
  rw [hstep, hread, proceed]

/-- The code points that start other tokens than plain words. -/
def indicators : Text :=
  [' ', '\t', '\n', '\r', 0x85, 0x2028, 0x2029, '%', '-', '.', '[', ']', 0x7B, 0x7D, ',', '?', ':', '*',
     '&', '!', '|', '>', '\'', '"', '#', '@', '\x60']

/-- A plain word is read as a plain scalar. -/
theorem readToken_of_isWord
    {w : Text}
    (hw : IsWord w)
    (hrest : s.cursor.rest = w ++ t) :
    s.readToken = s.readPlain := by
  obtain ⟨c, rest, rfl, hfirst⟩ := hw.starts
  rw [List.cons_append] at hrest
  rcases hfirst with halnum | ⟨rfl, d, hd, hdigit⟩
  · have hall : (indicators.all fun c => !(c.isAsciiDigit || c.isAsciiLetter)) = true := by decide
    have hne : c ∉ indicators := by
      intro hmem
      have hnot := List.all_eq_true.1 hall c hmem
      rw [halnum] at hnot
      cases hnot
    have hopen : CodePoint.ofChar '\x7b' = 0x7B := rfl
    have hclose : CodePoint.ofChar '\x7d' = 0x7D := rfl
    simp only [indicators, List.mem_cons, List.not_mem_nil, or_false, not_or] at hne
    simp [readToken, Cursor.peek, hrest, hne, startsPlain, oneOf, Text.ofString, hopen, hclose,
      isSpaceOrTab, isBreak]
  · cases rest with
    | nil => cases hd
    | cons e rest =>
      rw [← Option.some.inj hd] at hdigit
      have hbare : isBare e = true := by simp [isBare, hdigit]
      obtain ⟨hblank, hbreak, -⟩ := classes_of_isBare hbare
      have hminus := (CodePoint.ne_sign_of_isAsciiDigit hdigit).1
      have hmarker : s.cursor.atMarker = false := by
        have hpoint : ('.' : CodePoint) ≠ '-' := by decide
        simp [Cursor.atMarker, hrest, Text.ofString, List.isPrefixOf, Ne.symm hminus, hpoint]
      have hitem : endsItem (s.cursor.ahead 1) = false := by
        simp [Cursor.ahead, hrest, endsItem, hblank, hbreak]
      simp only [readToken, Cursor.peek, hrest, List.head?_cons, hmarker, hitem, startsPlain,
        Bool.and_false]
      rfl

/-- In front of flow text the next token can be read. -/
theorem Ready.exists_before
    (h : s.Ready kinds level t)
    (hcomment : ∀ c ∈ (core t).head?, c ≠ '#') :
    ∃ v, s.Before v t ∧ v.Ready kinds level t := by
  obtain ⟨p₁, hstale₁, hp₁, hsame₁⟩ := h.dropStale_eq
  obtain ⟨cursor, allowed, hskip, hcursor, hallowed⟩ :=
    skipBlank_eq (s := { s with pending := p₁ }) s.bound h.room (by
      simp only [h.rest]
      exact hcomment)
  have hrest : cursor.rest = core t := hcursor.trans h.rest
  have hroom : cursor.rest.length ≤ s.cursor.rest.length := by
    rw [hcursor]
    exact (List.dropWhile_suffix _).length_le
  have h₂ : Ready { s with cursor := cursor, keyAllowed := allowed, pending := p₁ } kinds level t :=
    ⟨h.found, h.running, h.count, h.depth, h.indent, h.indents, h.farKeys, hp₁,
      by rw [hrest, core, dropWhile_dropWhile fun _ => id], Nat.lt_of_le_of_lt hroom h.room⟩
  obtain ⟨p₂, hstale₂, hp₂, hsame₂⟩ := h₂.dropStale_eq
  have h₃ := h₂.withPending hp₂
  refine ⟨_, ⟨hrest, hroom, hallowed, fun hlevel => ?_, p₁, fun before fuel => ?_⟩, h₃⟩
  · have hne : level ≠ 0 := h.depth ▸ hlevel
    exact (hsame₂ hne).trans (hsame₁ hne)
  · have hstep : step { s with pending := p₁ } =
        readToken { s with cursor := cursor, keyAllowed := allowed, pending := p₂ } := by
      rw [step, hskip]
      simp only [bind, Except.bind, hstale₂, h₃.unwind_eq]
    simp only [TokenStream.scan, h.isDone_eq_false, hstale₁, hstep, Bool.false_eq_true, if_false]
    cases readToken { s with cursor := cursor, keyAllowed := allowed, pending := p₂ } <;> rfl

namespace Ready

/-- A token that is no end of the stream is added, and the cursor moves on. -/
theorem pushed
    {kind : TokenKind}
    {start stop level' : Nat}
    {cursor : Cursor}
    {allowed : Bool}
    (h : s.Ready kinds level t)
    (hkind : kind ≠ .streamEnd)
    (hrest : cursor.rest.dropWhile isGap = core u)
    (hroom : cursor.rest.length ≤ s.cursor.rest.length) :
    Ready { s.push kind start stop with
      cursor := cursor, level := level', keyAllowed := allowed } (kinds ++ [kind]) level' u where
  found := by simp [push, ← h.found]
  running := by simp [h.running, hkind.symm]
  count := by simp [push, h.count]
  depth := rfl
  indent := h.indent
  indents := h.indents
  farKeys := h.farKeys
  optional := h.optional
  rest := hrest
  room := Nat.lt_of_le_of_lt hroom h.room

/-- A pending key is saved where keys are allowed, and it is not required. -/
theorem savePending_eq
    (h : s.Ready kinds level t) :
    ∃ pending, s.savePending = .ok { s with pending := pending } ∧
      (∀ key ∈ pending, key.required = false) ∧
      (s.keyAllowed = true →
        ∃ key, pending.find? (fun key => key.level == s.level) = some key ∧ key.number = s.count) := by
  rw [savePending]
  split
  case isTrue hallowed =>
    simp only [h.dropPending_eq]
    refine ⟨_, rfl, fun key hkey => ?_, fun _ => ⟨_, List.find?_cons_of_pos (by simp), rfl⟩⟩
    rcases List.mem_cons.1 hkey with rfl | hkey
    · have hne : ¬ (-1 : Int) = (s.cursor.column : Int) := by omega
      simp [h.indent, hne]
    · exact h.optional key (List.mem_filter.1 hkey).1
  case isFalse hallowed => exact ⟨s.pending, rfl, h.optional, fun h => absurd h hallowed⟩

/-- In front of a mark that is neither blank nor starts a comment. -/
theorem exists_before_cons
    {mark : CodePoint}
    (hmark : isGap mark = false ∧ mark ≠ '\t' ∧ mark ≠ '#')
    (h : s.Ready kinds level (mark :: t)) :
    ∃ v, s.Before v (mark :: t) ∧ v.Ready kinds level (mark :: t) ∧
      v.cursor.rest = mark :: untabbed t ∧ (v.cursor.skip 1).rest.dropWhile isGap = core t ∧
      (v.cursor.skip 1).rest.length < v.cursor.rest.length := by
  have hcore : core (mark :: t) = mark :: untabbed t := core_cons hmark.1 hmark.2.1 t
  obtain ⟨v, hbefore, hv⟩ := h.exists_before (by rw [hcore]; rintro c ⟨⟩; exact hmark.2.2)
  have hrest := hbefore.rest.trans hcore
  refine ⟨v, hbefore, hv, hrest, ?_⟩
  rw [Cursor.rest_skip, hrest, List.drop_one, List.tail_cons]
  exact ⟨rfl, by simp⟩

/-- The start of a flow collection is read; a key may follow. -/
theorem openFlow
    {mark : CodePoint}
    {kind : TokenKind}
    (hmark : mark = '[' ∧ kind = .flowSequenceStart ∨ mark = 0x7B ∧ kind = .flowMappingStart)
    (h : s.Ready kinds level (mark :: t)) :
    ∃ s', s.Reaches s' ∧ s'.Ready (kinds ++ [kind]) (level + 1) t ∧ s'.keyAllowed = true := by
  have hkind : kind ≠ .streamEnd := by rcases hmark with ⟨-, rfl⟩ | ⟨-, rfl⟩ <;> simp
  obtain ⟨v, hbefore, hv, hrest, hafter, hlt⟩ := h.exists_before_cons (by
    rcases hmark with ⟨rfl, -⟩ | ⟨rfl, -⟩ <;> decide)
  obtain ⟨pending, hsave, hpending, -⟩ := hv.savePending_eq
  have hread : v.readToken = v.readFlowStart kind := by
    rcases hmark with ⟨rfl, rfl⟩ | ⟨rfl, rfl⟩
    · simp only [readToken, Cursor.peek, hrest, List.head?_cons]
      rfl
    · simp only [readToken, Cursor.peek, hrest, List.head?_cons]
      rfl
  rw [readFlowStart, hsave] at hread
  rw [← hv.depth]
  exact ⟨_, hbefore.reaches hread hlt,
    (hv.withPending hpending).pushed hkind hafter (Nat.le_of_lt hlt), rfl⟩

/-- The end of a flow collection is read. -/
theorem closeFlow
    {mark : CodePoint}
    {kind : TokenKind}
    (hmark : mark = ']' ∧ kind = .flowSequenceEnd ∨ mark = 0x7D ∧ kind = .flowMappingEnd)
    (h : s.Ready kinds (level + 1) (mark :: t)) :
    ∃ s', s.Reaches s' ∧ s'.Ready (kinds ++ [kind]) level t := by
  have hkind : kind ≠ .streamEnd := by rcases hmark with ⟨-, rfl⟩ | ⟨-, rfl⟩ <;> simp
  obtain ⟨v, hbefore, hv, hrest, hafter, hlt⟩ := h.exists_before_cons (by
    rcases hmark with ⟨rfl, -⟩ | ⟨rfl, -⟩ <;> decide)
  have hread : v.readToken = v.readFlowEnd kind := by
    rcases hmark with ⟨rfl, rfl⟩ | ⟨rfl, rfl⟩
    · simp only [readToken, Cursor.peek, hrest, List.head?_cons]
      rfl
    · simp only [readToken, Cursor.peek, hrest, List.head?_cons]
      rfl
  rw [readFlowEnd, hv.dropPending_eq] at hread
  have hlevel : v.level - 1 = level := by rw [hv.depth, Nat.add_sub_cancel]
  rw [← hlevel]
  exact ⟨_, hbefore.reaches hread hlt,
    (hv.withPending hv.optional_filter).pushed hkind hafter (Nat.le_of_lt hlt)⟩

/-- A comma between entries is read; a key may follow. -/
theorem comma
    (h : s.Ready kinds level ((',' : CodePoint) :: t)) :
    ∃ s', s.Reaches s' ∧ s'.Ready (kinds ++ [.flowEntry]) level t ∧ s'.keyAllowed = true := by
  obtain ⟨v, hbefore, hv, hrest, hafter, hlt⟩ := h.exists_before_cons (by decide)
  have hread : v.readToken = v.readFlowEntry := by
    simp only [readToken, Cursor.peek, hrest, List.head?_cons]
    rfl
  rw [readFlowEntry, hv.dropPending_eq] at hread
  rw [← hv.depth]
  exact ⟨_, hbefore.reaches hread hlt,
    (hv.withPending hv.optional_filter).pushed (by simp) hafter (Nat.le_of_lt hlt), rfl⟩

theorem length_tokens
    (h : s.Ready kinds level t) :
    s.count = kinds.length := by
  rw [h.count, ← h.found, List.length_map, List.length_reverse]

/-- In front of a string it is read as a quoted scalar, unless one of its lines is marked; where a
key may stand it is kept in mind as one. -/
theorem exists_quotedString
    {pieces : List Json.Piece}
    (h : s.Ready kinds level (Json.quotedText pieces ++ t)) :
    ∃ v pending d, s.Before v (Json.quotedText pieces ++ t) ∧
      Ready { v with pending := pending } kinds level (Json.quotedText pieces ++ t) ∧
      (s.keyAllowed = true → ∃ key, pending.find? (fun key => key.level == v.level) = some key ∧
        key.number = kinds.length) ∧
      d.rest = untabbed t ∧ d.rest.length < v.cursor.rest.length ∧
      v.readToken =
        if Json.hasMarkedLine pieces then .error .malformed
        else .ok { push { v with pending := pending } (.scalar (Json.foldedUnits pieces) .doubleQuoted)
          v.cursor.index d.index with cursor := d, keyAllowed := false } := by
  have hcons : Json.quotedText pieces ++ t =
      ('"' : CodePoint) :: (Json.piecesText pieces ++ ('"' : CodePoint) :: t) := by
    simp [Json.quotedText, Json.between]
  have htext : untabbed (Json.piecesText pieces ++ ('"' : CodePoint) :: t) =
      Json.piecesText pieces ++ ('"' : CodePoint) :: untabbed t := by
    rw [untabbed_append, untabbed_eq_self (Json.tab_notMem_piecesText pieces),
      untabbed_cons (by decide)]
  rw [hcons] at h ⊢
  obtain ⟨v, hbefore, hv, hrest, -, -⟩ := h.exists_before_cons (by decide)
  obtain ⟨pending, hsave, hpending, hkey⟩ := hv.savePending_eq
  have hquoted : v.cursor.rest = Json.quotedText pieces ++ untabbed t := by
    rw [hrest, htext]
    simp [Json.quotedText, Json.between]
  obtain ⟨d, hd, hread⟩ := quoted_eq _ hquoted hv.room
  have htoken : v.readToken = v.readQuoted .doubleQuoted := by
    simp only [readToken, Cursor.peek, hrest, List.head?_cons]
    rfl
  have hlt : d.rest.length < v.cursor.rest.length := by
    rw [hd, hquoted]
    simp [Json.quotedText, Json.between]
    omega
  refine ⟨v, pending, d, hbefore, hv.withPending hpending, fun hallowed => ?_, hd, hlt, ?_⟩
  · obtain ⟨key, hfind, hnumber⟩ := hkey (hbefore.allowed hallowed)
    exact ⟨key, hfind, hnumber.trans hv.length_tokens⟩
  · rw [htoken, readQuoted, hsave]
    simp only [bind, Except.bind, beq_self_eq_true, hread]
    cases Json.hasMarkedLine pieces <;> rfl

/-- A string without marked lines is read. -/
theorem quotedString
    {pieces : List Json.Piece}
    (hlines : Json.hasMarkedLine pieces = false)
    (h : s.Ready kinds level (Json.quotedText pieces ++ t)) :
    ∃ s', s.Reaches s' ∧
      s'.Ready (kinds ++ [.scalar (Json.foldedUnits pieces) .doubleQuoted]) level t ∧
      (s.keyAllowed = true → ∃ key, s'.pending.find? (fun key => key.level == s'.level) = some key ∧
        key.number = kinds.length) := by
  obtain ⟨v, pending, d, hbefore, hv, hkey, hd, hlt, hread⟩ := h.exists_quotedString
  rw [hlines, if_neg Bool.false_ne_true] at hread
  rw [← hv.depth]
  exact ⟨_, hbefore.reaches hread hlt, hv.pushed (by simp) (by rw [hd]; rfl) (Nat.le_of_lt hlt), hkey⟩

/-- At a string with a marked line the scanner breaks off. -/
theorem breaksOff_quotedString
    {pieces : List Json.Piece}
    (hmarked : Json.hasMarkedLine pieces = true)
    (h : s.Ready kinds level (Json.quotedText pieces ++ t)) :
    s.BreaksOff := by
  obtain ⟨v, _, _, hbefore, -, -, -, -, hread⟩ := h.exists_quotedString
  rw [hmarked, if_pos rfl] at hread
  obtain ⟨pending, hstep⟩ := hbefore.step
  refine ⟨0, Nat.zero_le _, fun before fuel => ?_⟩
  rw [Nat.add_zero, hstep, hread, proceed]
  exact ⟨rfl, fun token htoken hend =>
    h.running (by
      rw [← h.found, ← hend]
      exact List.mem_map_of_mem (List.mem_of_mem_take htoken))⟩

/-- A plain word is read. -/
theorem plainWord
    {w : Text}
    (hw : IsWord w)
    (hends : EndsScalar (level != 0) (untabbed t))
    (h : s.Ready kinds level (w ++ t)) :
    ∃ s', s.Reaches s' ∧ s'.Ready (kinds ++ [.scalar w .plain]) level t := by
  obtain ⟨c, rest, hcons, hfirst⟩ := hw.starts
  have hbare := hw.bare c (by rw [hcons]; exact List.mem_cons_self)
  obtain ⟨hblank, hbreak, -, -, hhash⟩ := classes_of_isBare hbare
  have htext : untabbed (w ++ t) = w ++ untabbed t := by
    rw [untabbed_append, untabbed_eq_self hw.tab_notMem]
  have hcore : core (w ++ t) = w ++ untabbed t := by
    rw [core, htext, hcons, List.cons_append, List.dropWhile_cons_of_neg]
    simp only [isSpaceOrTab, Bool.or_eq_false_iff] at hblank
    simp [isGap, hbreak, hblank.1]
  obtain ⟨v, hbefore, hv⟩ := h.exists_before (by
    rw [hcore, hcons]
    rintro d ⟨⟩
    exact hhash)
  have hrest := hbefore.rest.trans hcore
  obtain ⟨pending, hsave, hpending, -⟩ := hv.savePending_eq
  have hread : v.readToken = v.readPlain := readToken_of_isWord hw hrest
  rw [← hv.depth] at hends ⊢
  obtain ⟨hscan, hafter⟩ := plain_eq hrest (by simp [hcons]) hw.bare hends hv.room
  rw [← hv.indent] at hscan hafter
  have hlt : (plain (v.level != 0) v.indent v.bound v.cursor).cursor.rest.length <
      v.cursor.rest.length := by
    have hle := (List.dropWhile_suffix (l := untabbed t) isGap).length_le
    rw [hafter, hrest, hcons]
    simp
    omega
  rw [readPlain, hsave] at hread
  simp only [bind, Except.bind, hscan] at hread
  refine ⟨_, hbefore.reaches hread hlt,
    (hv.withPending hpending).pushed (by simp) ?_ (Nat.le_of_lt hlt)⟩
  rw [hafter, dropWhile_dropWhile fun _ => id]
  rfl

/-- The mark of a key is put in front of the last token. -/
theorem inserted
    {kind : TokenKind}
    {number position : Nat}
    (hnumber : number = kinds.length)
    (h : s.Ready (kinds ++ [kind]) level t) :
    (s.insert number .key position).Ready (kinds ++ [.key, kind]) level t := by
  obtain ⟨last, tokens, htokens⟩ : ∃ last tokens, s.tokens = last :: tokens := by
    cases htokens : s.tokens with
    | nil =>
      have hfound := h.found
      simp [htokens] at hfound
    | cons last tokens => exact ⟨last, tokens, rfl⟩
  have hfound := h.found
  rw [htokens, List.reverse_cons, List.map_append, List.map_singleton] at hfound
  obtain ⟨hbefore, hlast⟩ := List.append_inj' hfound rfl
  have hone : s.count - number = 1 := by
    rw [h.length_tokens, hnumber, List.length_append, List.length_singleton, Nat.add_sub_cancel_left]
  have hrunning := h.running
  have hinsert : (s.insert number .key position).tokens =
      last :: ⟨.key, position, position⟩ :: tokens := by
    simp [insert, hone, htokens]
  refine ⟨?_, ?_, ?_, h.depth, h.indent, h.indents, h.farKeys, h.optional, h.rest, h.room⟩
  · rw [hinsert]
    simp [hbefore, List.singleton_inj.1 hlast]
  · simp only [List.mem_append, List.mem_cons, List.not_mem_nil, or_false, not_or] at hrunning ⊢
    exact ⟨hrunning.1, by simp, hrunning.2⟩
  · rw [hinsert]
    simp [insert, h.count, htokens]

/-- A colon turns the token in front of it into a key. -/
theorem colon
    {key : PendingKey}
    {kind : TokenKind}
    (hkey : s.pending.find? (fun key => key.level == s.level) = some key)
    (hnumber : key.number = kinds.length)
    (h : s.Ready (kinds ++ [kind]) (level + 1) ((':' : CodePoint) :: t)) :
    ∃ s', s.Reaches s' ∧ s'.Ready (kinds ++ [.key, kind, .value]) (level + 1) t := by
  obtain ⟨v, hbefore, hv, hrest, hafter, hlt⟩ := h.exists_before_cons (by decide)
  have hlevel : v.level ≠ 0 := by
    rw [hv.depth]
    exact Nat.succ_ne_zero level
  have hpending : v.pending.find? (fun key => key.level == v.level) = some key := by
    rw [hbefore.pending (by rw [h.depth]; exact Nat.succ_ne_zero level), hv.depth, ← h.depth, hkey]
  have hflow : (v.level != 0) = true := by simpa using hlevel
  have hread : v.readToken = v.readValue := by
    simp only [readToken, Cursor.peek, hrest, List.head?_cons, hflow, Bool.true_or]
    rfl
  have hinside : ∀ (pending : List PendingKey) (number position : Nat),
      (insert { v with pending := pending } number .key position).level ≠ 0 := fun _ _ _ => hlevel
  simp only [readValue, hpending, if_neg (hinside _ _ _)] at hread
  rw [← hv.depth, show kinds ++ [.key, kind, .value] = kinds ++ [.key, kind] ++ [.value] by simp]
  exact ⟨_, hbefore.reaches hread hlt,
    ((hv.withPending hv.optional_filter).inserted hnumber).pushed (by simp) hafter
      (Nat.le_of_lt hlt)⟩

/-- At the end of the text the stream ends. -/
theorem scan_end
    (hcore : core t = [])
    (h : s.Ready kinds level t)
    (before : ScanState)
    (fuel : Nat) :
    (TokenStream.scan before (fuel + 2) s).tokens.map Token.kind = kinds ++ [.streamEnd] := by
  obtain ⟨v, hbefore, hv⟩ := h.exists_before (by simp [hcore])
  have hread : v.readToken = v.readEnd := by
    simp only [readToken, Cursor.peek, hbefore.rest.trans hcore, List.head?_nil]
  rw [readEnd, hv.unwind_eq, hv.dropPending_eq] at hread
  obtain ⟨after, hafter, hdone, hfound⟩ : ∃ after, v.readToken = .ok after ∧ after.isDone = true ∧
      after.tokens.reverse.map Token.kind = kinds ++ [.streamEnd] :=
    ⟨_, hread, rfl, by simp [pushHere, push, ← hv.found]⟩
  obtain ⟨pending, hscan⟩ := hbefore.step
  rw [hscan, hafter, proceed, TokenStream.scan, if_pos hdone, hfound]

end Ready

end Steps

end ScanState

end Markup

end Workflow
