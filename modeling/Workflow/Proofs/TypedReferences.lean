import Workflow.Proofs.AddressAgreement
import Workflow.Proofs.SessionFaults
import Workflow.Proofs.TextPieces

/-!
# Typed references

The listing of states shows every path with slashes between its segments, and the command for a
scope reads such a text again.  Reading cuts the line at its blanks, the text at its slashes, and
takes digits for branch indexes; a text without a slash is an id.  So a path is read back exactly
when the ids on it have no slash, no id next to other segments is made of digits, and the blanks in
the text are single ones inside of it.
-/

namespace Workflow

/-! ## Blanks -/

namespace Text

/-- The words of a text with one blank between neighbours. -/
def respaced (t : Text) : Text := joinWith " " t.words

/-- A text without its blanks. -/
def withoutBlanks (t : Text) : Text := t.filter fun c => !c.isBlank

@[simp] theorem withoutBlanks_append
    (t u : Text) :
    (t ++ u).withoutBlanks = t.withoutBlanks ++ u.withoutBlanks := List.filter_append _ _

theorem withoutBlanks_eq_self
    {t : Text} (h : ∀ c ∈ t, c.isBlank = false) :
    t.withoutBlanks = t := by
  refine List.filter_eq_self.mpr fun c hc => ?_
  rw [h c hc]
  rfl

theorem flatten_wordsFrom
    {word : Text} (hword : ∀ c ∈ word, c.isBlank = false) (t : Text) :
    (wordsFrom word t).flatten = word.reverse ++ t.withoutBlanks := by
  induction t generalizing word with
  | nil =>
      rw [wordsFrom]
      split
      · next hempty => rw [List.isEmpty_iff.mp hempty]; rfl
      · simp [withoutBlanks]
  | cons c t ih =>
      rw [wordsFrom]
      cases hc : c.isBlank with
      | true =>
          have hrest : (wordsFrom [] t).flatten = withoutBlanks t :=
            ih fun _ h => absurd h List.not_mem_nil
          simp only [if_true]
          split
          · next hempty =>
              rw [hrest, List.isEmpty_iff.mp hempty]
              simp [withoutBlanks, hc]
          · rw [List.flatten_cons, hrest]
            simp [withoutBlanks, hc]
      | false =>
          rw [if_neg Bool.false_ne_true, ih (List.forall_mem_cons.mpr ⟨hc, hword⟩)]
          simp [withoutBlanks, hc]

theorem withoutBlanks_joinWith
    (sep : Text) (pieces : List Text) :
    (joinWith sep pieces).withoutBlanks =
      joinWith sep.withoutBlanks (pieces.map withoutBlanks) := by
  induction pieces using joinWith.induct with
  | case1 => rfl
  | case2 piece => rfl
  | case3 piece pieces hpieces ih =>
      obtain ⟨next, pieces, rfl⟩ := List.exists_cons_of_ne_nil hpieces
      rw [joinWith, withoutBlanks_append, withoutBlanks_append, ih]
      · rfl
      · exact hpieces

/-- Only blanks are lost between the words of a text. -/
theorem withoutBlanks_respaced
    (t : Text) :
    t.respaced.withoutBlanks = t.withoutBlanks := by
  have hjoin : ∀ pieces : List Text,
      (joinWith " " pieces).withoutBlanks = withoutBlanks pieces.flatten := by
    intro pieces
    induction pieces using joinWith.induct with
    | case1 => rfl
    | case2 piece => simp [joinWith]
    | case3 piece pieces hpieces ih =>
        have hblank : withoutBlanks " " = [] := rfl
        rw [joinWith, withoutBlanks_append, withoutBlanks_append, ih, hblank, List.append_nil,
          List.flatten_cons, withoutBlanks_append]
        exact hpieces
  have hwords : t.words.flatten = t.withoutBlanks :=
    flatten_wordsFrom (fun _ h => absurd h List.not_mem_nil) t
  rw [respaced, hjoin, hwords]
  exact withoutBlanks_eq_self fun c hc => by simpa using (List.mem_filter.mp hc).2

theorem mem_respaced_iff
    {c : CodePoint} (hc : c.isBlank = false) {t : Text} :
    c ∈ t.respaced ↔ c ∈ t := by
  have hkept : ∀ u : Text, c ∈ u.withoutBlanks ↔ c ∈ u := fun u => by
    simp [withoutBlanks, hc]
  rw [← hkept, withoutBlanks_respaced, hkept]

end Text

/-! ## Written segments -/

namespace Segment

/-- The segments of the paths that a visit reports: names, and numbers of branches. -/
inductive Listed : Segment → Prop
  | name (id : Text) : Listed (.name id)
  | index (i : Nat) : Listed (.index i)

theorem slash_notMem_ofNat
    (n : Nat) :
    (('/' : Char) : CodePoint) ∉ Text.ofNat n := by
  intro h
  exact absurd (Text.isAsciiDigit_of_mem_ofNat h) (by decide)

end Segment

theorem OwnerPath.listed
    {scope inner : Value} {b : Path} (h : OwnerPath scope b inner) :
    ∀ s ∈ b.plain, s.Listed := by
  induction h with
  | here scope => exact fun s hs => absurd hs List.not_mem_nil
  | map howner hkind hrest ih => exact List.forall_mem_cons.mpr ⟨.name _, ih⟩
  | branch howner hkind hscopes hindex hbranch hrest ih =>
      refine List.forall_mem_cons.mpr ⟨.name _, List.forall_mem_cons.mpr ⟨?_, ih⟩⟩
      rw [Segment.plain_of_index? hindex]
      exact .index _

theorem Visit.Declared.listed
    {root : Value} {b : Path} {v : Visit} (h : v.Declared root b) :
    ∀ s ∈ v.path, s.Listed := by
  rw [h.path, ← h.plain]
  exact List.forall_mem_append.mpr ⟨h.scope.listed, List.forall_mem_singleton.mpr (.name _)⟩

namespace Path

/-- A path whose written form is read as the path.  The ids on it have no slash, an id next to other
segments is not made of digits, and the blanks in the text are single ones inside of it. -/
structure Legible (p : Path) : Prop where
  nonempty : p.written ≠ []
  spaced : p.written.respaced = p.written
  noSlash : ∀ id, Segment.name id ∈ p → (('/' : Char) : CodePoint) ∉ id
  noNumber : 1 < p.length → ∀ id, Segment.name id ∈ p → id.isDigits = false

variable {p : Path}

theorem Legible.words_ne_nil
    (h : p.Legible) :
    p.written.words ≠ [] := by
  intro hwords
  have hspaced := h.spaced
  rw [Text.respaced, hwords] at hspaced
  exact h.nonempty hspaced.symm

theorem slash_notMem_written
    (hlisted : ∀ s ∈ p, s.Listed)
    (hslash : ∀ id, Segment.name id ∈ p → (('/' : Char) : CodePoint) ∉ id) :
    ∀ piece ∈ p.map Segment.written, (('/' : Char) : CodePoint) ∉ piece := by
  intro piece hpiece
  obtain ⟨s, hs, rfl⟩ := List.mem_map.mp hpiece
  cases hlisted s hs with
  | name id => exact hslash id hs
  | index i => exact Segment.slash_notMem_ofNat i

/-- Cutting a written path at its slashes gives its segments. -/
theorem splitOn_written
    (hne : p ≠ []) (hlisted : ∀ s ∈ p, s.Listed)
    (hslash : ∀ id, Segment.name id ∈ p → (('/' : Char) : CodePoint) ∉ id) :
    Text.splitOn '/' p.written = p.map Segment.written := by
  have hjoined : p.written = [(('/' : Char) : CodePoint)].intercalate (p.map Segment.written) :=
    Text.joinWith_eq_intercalate _ _
  rw [Text.splitOn_eq_splitOn, hjoined]
  exact List.splitOn_intercalate _ (slash_notMem_written hlisted hslash) (by simpa using hne)

/-- There are slashes between the segments of a path. -/
theorem slash_mem_written
    (h : 1 < p.length) :
    (('/' : Char) : CodePoint) ∈ p.written := by
  match p, h with
  | s :: next :: rest, _ =>
      have hjoined : Path.written (s :: next :: rest) =
          s.written ++ Text.ofString "/" ++ Path.written (next :: rest) := rfl
      rw [hjoined]
      exact List.mem_append_left _ (List.mem_append_right _ List.mem_cons_self)

/-- Segments are read back from their written forms. -/
theorem mapM_written
    (h : ∀ s ∈ p, Segment.ofWritten s.written = .ok s) :
    (p.map Segment.written).mapM Segment.ofWritten = .ok p := by
  induction p with
  | nil => rfl
  | cons s p ih =>
      obtain ⟨hs, hrest⟩ := List.forall_mem_cons.mp h
      rw [List.map_cons, List.mapM_cons, hs, ih hrest]
      rfl

end Path

/-- A written segment stands for the segment, provided that a name is not made of digits and a
number is read. -/
theorem Segment.ofWritten_written
    {s : Segment} (hlisted : s.Listed) (hname : ∀ id, s = .name id → id.isDigits = false)
    (hread : s.written.isDigits = true → ¬ Numeral.Unread s.written) :
    ofWritten s.written = .ok s := by
  cases hlisted with
  | name id =>
      have hwritten : (Segment.name id).written = id := rfl
      rw [hwritten, ofWritten, if_neg (by simp [hname id rfl])]
  | index i =>
      have hwritten : (Segment.index i).written = Text.ofNat i := rfl
      rw [hwritten] at hread ⊢
      obtain ⟨hdigits, hunread⟩ := Numeral.unread_of_isDecimals (Text.isDecimals_ofNat i)
      have hshort : (Text.ofNat i).length ≤ Numeral.maxDigits := by
        rw [hunread] at hread
        exact Nat.le_of_not_lt (hread hdigits)
      rw [ofWritten, if_pos hdigits, Numeral.integer_ofNat hshort]
      rfl

/-! ## From a path to its state -/

section States

variable {root : Value} (hroot : root.Proper) {v : Visit} (hv : v ∈ allStates root)

include hroot hv

/-- A path of one segment is the id of a state at the top. -/
theorem path_of_length_le_one
    (hshort : v.path.length ≤ 1) :
    v.path = [.name v.id] := by
  obtain ⟨b, hb⟩ := (mem_allStates_iff hroot).mp hv
  rw [hb.path, List.length_append, List.length_singleton] at hshort
  rw [hb.path, List.length_eq_zero_iff.mp (Nat.le_zero.mp (Nat.le_of_succ_le_succ hshort))]
  rfl

/-- A state at the top is found by its id. -/
theorem findId_of_visit_top
    (hpath : v.path = [.name v.id]) :
    findId root v.id [] = some ⟨v.state, v.parent, v.path, v.path.dropLast⟩ := by
  obtain ⟨b, hb⟩ := (mem_allStates_iff hroot).mp hv
  have htop : b = [] := by
    have hlength := congrArg List.length (hb.path.symm.trans hpath)
    simpa using hlength
  obtain ⟨states, hstates, hmem⟩ := hb.state
  have hscope := hb.scope
  rw [htop] at hscope
  have hparent : v.parent = root := hscope.unique (OwnerPath.here root)
  rw [hparent] at hstates
  have hget := Fields.get?_of_mem (State.declared?_proper hroot hstates).1 hmem
  rw [findId, allLevels, searchId, hstates]
  dsimp only
  rw [hget, hpath, hparent]
  rfl

/-- The path of a visit refers to the state visited. -/
theorem locate_path_of_visit
    (hlength : v.path.length ≤ maxPathLength) :
    (Reference.path v.path).locate root =
      .ok (some ⟨v.state, v.parent, v.path, v.path.dropLast⟩) := by
  obtain ⟨b, hb⟩ := (mem_allStates_iff hroot).mp hv
  rw [Reference.locate, findPath?_of_leads hb.leads,
    findPath_of_visit hroot hv hb.leads (Path.same_self hb.leads) hlength]

/-- The written form of a legible path refers to the state at the path. -/
theorem exists_reference
    (hlegible : v.path.Legible) (hlength : v.path.length ≤ maxPathLength)
    (hread : 1 < v.path.length →
      ∀ s ∈ v.path, s.written.isDigits = true → ¬ Numeral.Unread s.written) :
    ∃ reference, Reference.ofWritten v.path.written = .ok reference ∧
      reference.locate root = .ok (some ⟨v.state, v.parent, v.path, v.path.dropLast⟩) ∧
      reference.written = v.path.written := by
  obtain ⟨b, hb⟩ := (mem_allStates_iff hroot).mp hv
  have hne : v.path ≠ [] := by
    rw [hb.path]
    exact List.append_ne_nil_of_right_ne_nil _ (List.cons_ne_nil _ _)
  rcases Nat.lt_or_ge 1 v.path.length with hlong | hshort
  · have hsegments : ∀ s ∈ v.path, Segment.ofWritten s.written = .ok s := by
      intro s hs
      refine Segment.ofWritten_written (hb.listed s hs) ?_ (hread hlong s hs)
      rintro id rfl
      exact hlegible.noNumber hlong id hs
    have hslash : v.path.written.contains (('/' : Char) : CodePoint) = true := by
      simpa using Path.slash_mem_written hlong
    refine ⟨.path v.path, ?_, ?_, rfl⟩
    · rw [Reference.ofWritten, if_pos hslash,
        Path.splitOn_written hne hb.listed hlegible.noSlash, Path.mapM_written hsegments]
      rfl
    · exact locate_path_of_visit hroot hv hlength
  · -- a single segment is searched by its id
    have hpath := path_of_length_le_one hroot hv hshort
    have hwritten : v.path.written = v.id := by
      rw [hpath]
      rfl
    have hslash : ¬ v.id.contains (('/' : Char) : CodePoint) = true := by
      have hnotMem := hlegible.noSlash v.id (by rw [hpath]; exact List.mem_singleton_self _)
      simpa using hnotMem
    refine ⟨.id v.id, ?_, ?_, hwritten.symm⟩
    · rw [hwritten, Reference.ofWritten, if_neg hslash]
    · rw [Reference.locate, findId_of_visit_top hroot hv hpath]

end States

/-! ## From a text to a path -/

namespace Text

theorem withoutBlanks_of_isDigits
    {t : Text} (h : t.isDigits = true) :
    t.withoutBlanks = t := by
  rw [isDigits, Bool.and_eq_true, List.all_eq_true] at h
  exact withoutBlanks_eq_self fun c hc => CodePoint.not_isBlank_of_isDigit (h.2 c hc)

theorem withoutBlanks_ofInt
    (n : Int) :
    (ofInt n).withoutBlanks = ofInt n := by
  refine withoutBlanks_eq_self fun c hc => ?_
  rcases of_mem_ofInt hc with rfl | hdigit
  · rfl
  · exact CodePoint.not_isBlank_of_isDecimal (CodePoint.isDecimal_of_within hdigit)

/-- Without its blanks, a joined text is cut into its pieces without their blanks. -/
theorem splitOn_withoutBlanks
    {pieces : List Text} (hne : pieces ≠ [])
    (hslash : ∀ piece ∈ pieces, (('/' : Char) : CodePoint) ∉ piece) :
    splitOn '/' (joinWith "/" pieces).withoutBlanks = pieces.map withoutBlanks := by
  have hsep : withoutBlanks "/" = [(('/' : Char) : CodePoint)] := rfl
  rw [withoutBlanks_joinWith, hsep, joinWith_eq_intercalate, splitOn_eq_splitOn]
  refine List.splitOn_intercalate _ (fun piece hpiece => ?_) (by simpa using hne)
  obtain ⟨whole, hwhole, rfl⟩ := List.mem_map.mp hpiece
  exact fun hmem => hslash whole hwhole (List.mem_of_mem_filter hmem)

end Text

theorem Segment.ofWritten_cases
    {piece : Text} {s : Segment} (h : ofWritten piece = .ok s) :
    (s = .name piece ∧ piece.isDigits = false) ∨ (piece.isDigits = true ∧ ∃ n, s = .index n) := by
  rw [ofWritten] at h
  split at h
  · next hdigits =>
      obtain ⟨n, -, rfl⟩ := exists_of_map_eq_ok h
      exact Or.inr ⟨hdigits, n, rfl⟩
  · next hdigits =>
      cases h
      exact Or.inl ⟨rfl, Bool.eq_false_iff.mpr hdigits⟩

/-- A text that differs from a written path in its blanks only, and that is read as the path, is the
written path: blanks count in names, and there are none in numbers. -/
theorem Path.eq_written_of_read
    {p : Path} {t : Text} (hne : p ≠ []) (hlisted : ∀ s ∈ p, s.Listed)
    (hslash : ∀ id, Segment.name id ∈ p → (('/' : Char) : CodePoint) ∉ id)
    (hread : (Text.splitOn '/' t).mapM Segment.ofWritten = .ok p)
    (hblanks : t.withoutBlanks = p.written.withoutBlanks) :
    t = p.written := by
  have hcut : Text.splitOn '/' t ≠ [] := by
    intro hnil
    rw [hnil] at hread
    exact hne (Except.ok.inj hread).symm
  -- cut at the slashes, both texts have the same pieces but for blanks
  have hpieces : (Text.splitOn '/' t).map Text.withoutBlanks =
      (p.map Segment.written).map Text.withoutBlanks := by
    have hjoined : Text.joinWith "/" (Text.splitOn '/' t) = t := Text.joinWith_splitOn '/' t
    rw [← Text.splitOn_withoutBlanks hcut fun piece => Text.notMem_of_mem_splitOn, hjoined, hblanks,
      ← Text.splitOn_withoutBlanks (by simpa using hne) (slash_notMem_written hlisted hslash)]
    rfl
  have hsame : List.Forall₂ (fun piece s => piece.withoutBlanks = (Segment.written s).withoutBlanks)
      (Text.splitOn '/' t) p := by
    have hequal := hpieces
    rw [← List.forall₂_eq_eq_eq, List.forall₂_map_left_iff, List.forall₂_map_right_iff,
      List.forall₂_map_right_iff] at hequal
    exact hequal
  have hwritten : List.Forall₂ (fun piece s => piece = Segment.written s)
      (Text.splitOn '/' t) p := by
    refine List.Forall₂.mp ?_ (forall₂_of_mapM hread) hsame
    intro piece s hpiece hblank
    rcases Segment.ofWritten_cases hpiece with ⟨rfl, -⟩ | ⟨hdigits, n, rfl⟩
    · rfl
    · have hnumber : (Segment.index n).written = Text.ofInt n := rfl
      rwa [Text.withoutBlanks_of_isDigits hdigits, hnumber, Text.withoutBlanks_ofInt] at hblank
  have hequal : Text.splitOn '/' t = p.map Segment.written := by
    rw [← List.forall₂_eq_eq_eq, List.forall₂_map_right_iff]
    exact hwritten
  rw [← Text.joinWith_splitOn '/' t, hequal]
  rfl

/-- When a written path is read as the path, whatever blanks were lost, it is legible. -/
theorem Path.legible_of_read
    {p : Path} (hne : p.written ≠ []) (hlisted : ∀ s ∈ p, s.Listed)
    (hread : (Text.splitOn '/' p.written.respaced).mapM Segment.ofWritten = .ok p) :
    p.Legible := by
  have hname : ∀ id, Segment.name id ∈ p →
      (('/' : Char) : CodePoint) ∉ id ∧ id.isDigits = false := by
    intro id hid
    obtain ⟨piece, hpiece, hsegment⟩ := exists_of_forall₂ (forall₂_of_mapM hread).flip hid
    rcases Segment.ofWritten_cases hsegment with ⟨hpieceId, hdigits⟩ | ⟨-, n, hn⟩
    · cases hpieceId
      exact ⟨Text.notMem_of_mem_splitOn hpiece, hdigits⟩
    · cases hn
  have hpathNe : p ≠ [] := by
    rintro rfl
    exact hne rfl
  exact
    { nonempty := hne
      spaced := Path.eq_written_of_read hpathNe hlisted (fun id hid => (hname id hid).1) hread
        (Text.withoutBlanks_respaced _)
      noSlash := fun id hid => (hname id hid).1
      noNumber := fun _ id hid => (hname id hid).2 }

/-- When the words of a written path refer to the state at the path, the path is legible. -/
theorem legible_of_reference
    {root : Value} (hroot : root.Proper) {v : Visit} (hv : v ∈ allStates root)
    (hne : v.path.written ≠ []) {reference : Reference} {a : Address}
    (hreference : Reference.ofWritten v.path.written.respaced = .ok reference)
    (hlocate : reference.locate root = .ok (some a)) (hpath : a.path = v.path) :
    v.path.Legible := by
  rw [Reference.ofWritten] at hreference
  split at hreference
  -- the text was cut into segments, and these are the segments of the path
  · obtain ⟨p, hread, rfl⟩ := exists_of_map_eq_ok hreference
    obtain ⟨b, hb⟩ := (mem_allStates_iff hroot).mp hv
    obtain ⟨hfound, -, -⟩ := findPath_eq_some_iff.mp (findPath_of_findPath? hlocate)
    rw [← hfound, hpath] at hread
    exact Path.legible_of_read hne hb.listed hread
  -- the text was searched as an id
  · next hnone =>
      cases hreference
      have hnotMem : (('/' : Char) : CodePoint) ∉ v.path.written.respaced := by simpa using hnone
      have hshort : v.path.length ≤ 1 := by
        refine Nat.le_of_not_lt fun hlong => hnotMem ?_
        exact (Text.mem_respaced_iff rfl).mpr (Path.slash_mem_written hlong)
      have hsingle := path_of_length_le_one hroot hv hshort
      have hwritten : v.path.written = v.id := by
        rw [hsingle]
        rfl
      have hid : v.path.written.respaced = v.id := by
        have hlast : v.path.getLast? = some (.name v.id) := by
          rw [hsingle]
          rfl
        have hfound := congrArg List.getLast? (path_eq_of_searchId (Except.ok.inj hlocate))
        rw [List.getLast?_concat, hpath, hlast, Option.some.injEq] at hfound
        exact (Segment.name.inj hfound).symm
      rw [hid] at hnotMem
      refine ⟨hne, hid.trans hwritten.symm, fun id hmem => ?_, fun hlong => ?_⟩
      · rw [hsingle] at hmem
        cases List.mem_singleton.mp hmem
        exact hnotMem
      · exact absurd hlong (Nat.not_lt.mpr hshort)

/-! ## The command -/

/-- The words behind the command word are the argument. -/
theorem Command.ofLine_scope
    (t : Text) :
    ofLine ("scope " ++ t) = .scope (joined t.words) := by
  have hwords : Text.words ("scope " ++ t) = ("scope" : Text) :: t.words := rfl
  rw [ofLine, hwords]
  rfl

/-- The command shows the scope of the state at an address. -/
def Command.LeadsTo (c : Command) (root : Value) (a : Address) : Prop :=
  ∃ t reference, c = .scope (some t) ∧ Reference.ofWritten t = .ok reference ∧
    reference.locate root = .ok (some a)

/-- The line refers to a state by the words of its argument. -/
theorem Command.ofLine_scope_eq_iff
    {t u : Text} :
    ofLine ("scope " ++ t) = .scope (some u) ↔ t.words ≠ [] ∧ u = t.respaced := by
  rw [ofLine_scope, joined, Text.respaced]
  cases t.words with
  | nil => simp
  | cons word words => simp [eq_comm]

/-- When the line with a written path leads to the path, the path is legible. -/
theorem legible_of_leadsTo
    {root : Value} (hroot : root.Proper) {v : Visit} (hv : v ∈ allStates root) {a : Address}
    (h : (Command.ofLine ("scope " ++ v.path.written)).LeadsTo root a) (hpath : a.path = v.path) :
    v.path.Legible := by
  obtain ⟨t, reference, hcommand, hreference, hlocate⟩ := h
  obtain ⟨hwords, rfl⟩ := Command.ofLine_scope_eq_iff.mp hcommand
  refine legible_of_reference hroot hv ?_ hreference hlocate hpath
  rintro hnil
  rw [hnil] at hwords
  exact hwords rfl

namespace Session

/-- A session that refers to a state with a document draws what is in scope at the state. -/
theorem Coherent.scope_snd_of_reference
    {s : Session} (h : s.Coherent) {d : OpenDocument} (hd : s.document = some d) {t : Text}
    {reference : Reference} (hreference : Reference.ofWritten t = .ok reference)
    {bound : VariableScope} {drawing : Text}
    (hbound : variableScope d.document.workflow (Predecessors.ofWorkflow d.document.workflow)
      reference none = .ok bound)
    (hdrawing : Drawing.text s.style (some reference.written) bound = .ok drawing) :
    (s.run (.scope (some t))).2 = s.output.print [Terminal.line drawing] := by
  have hdocument : s.forgetting.document = some d := hd
  have hmade : (s.forgetting.service.variableScope d reference none).2 >>=
      Drawing.text s.forgetting.style (some reference.written) = .ok drawing := by
    have hfound : (s.forgetting.service.variableScope d reference none).2 = .ok bound := hbound
    rw [hfound]
    exact hdrawing
  rw [h.run_snd, run, scope_snd, about_of_some hdocument, hreference]
  dsimp only
  rw [hmade]
  rfl

/-- The line with a legible path leads to the state at the path, and draws what is in scope there
under the written form of the path. -/
theorem Coherent.draws_of_legible
    {s : Session} (h : s.Coherent) {d : OpenDocument} (hd : s.document = some d) {v : Visit}
    (hv : v ∈ allStates d.document.workflow) (hlength : v.path.length ≤ maxPathLength)
    (hread : 1 < v.path.length →
      ∀ s ∈ v.path, s.written.isDigits = true → ¬ Numeral.Unread s.written)
    (hlegible : v.path.Legible) :
    let root := d.document.workflow
    let c := Command.ofLine ("scope " ++ v.path.written)
    c.LeadsTo root ⟨v.state, v.parent, v.path, v.path.dropLast⟩ ∧
      ∃ bound drawing,
        variableScope root (Predecessors.ofWorkflow root) (.path v.path) none = .ok bound ∧
          Drawing.text s.style (some v.path.written) bound = .ok drawing ∧
          (s.run c).2 = s.output.print [Terminal.line drawing] := by
  intro root c
  have hroot : root.Proper := d.document.workflow_proper
  obtain ⟨b, hb⟩ := (mem_allStates_iff hroot).mp hv
  obtain ⟨reference, hreference, hlocate, hwritten⟩ :=
    exists_reference hroot hv hlegible hlength hread
  have hcommand : c = .scope (some v.path.written) :=
    Command.ofLine_scope_eq_iff.mpr ⟨hlegible.words_ne_nil, hlegible.spaced.symm⟩
  refine ⟨⟨v.path.written, reference, hcommand, hreference, hlocate⟩, ?_⟩
  -- the reference finds what search by path finds at the path
  have hpath := locate_path_of_visit hroot hv hlength
  obtain ⟨bound, hbound, hown, houter⟩ := variableScope_drawn root
    (Predecessors.ofWorkflow root) (.path v.path) none hb.leads nofun
  obtain ⟨drawing, hdrawing⟩ :=
    Drawing.text_of_isObject s.style (some v.path.written) hown houter
  refine ⟨bound, drawing, hbound, hdrawing, ?_⟩
  rw [variableScope_of_locate hpath hb.leads,
    ← variableScope_of_locate hlocate hb.leads] at hbound
  rw [← hwritten] at hdrawing
  rw [hcommand]
  exact h.scope_snd_of_reference hd hreference hbound hdrawing

/-- What the line does that names a listed path behind the command for a scope.  It leads to the
state at this path exactly if the path is legible, and then the variables in scope at the path are
drawn under its written form.  Asked for are paths that search by path follows to their end, and
numbers next to other segments that can be read. -/
theorem scope_of_listed_path
    (output : Output) (colors : Bool) (storage : Storage) (remote : RemoteAnswer)
    (events : List Event) {d : OpenDocument} {v : Visit}
    (hd : ((new output colors storage remote).after events).document = some d)
    (hv : v ∈ allStates d.document.workflow) (hlength : v.path.length ≤ maxPathLength)
    (hread : 1 < v.path.length →
      ∀ s ∈ v.path, s.written.isDigits = true → ¬ Numeral.Unread s.written) :
    let s := (new output colors storage remote).after events
    let root := d.document.workflow
    let c := Command.ofLine ("scope " ++ v.path.written)
    ((∃ a, c.LeadsTo root a ∧ a.path = v.path) ↔ v.path.Legible) ∧
      (v.path.Legible →
        c.LeadsTo root ⟨v.state, v.parent, v.path, v.path.dropLast⟩ ∧
          ∃ bound drawing,
            variableScope root (Predecessors.ofWorkflow root) (.path v.path) none = .ok bound ∧
              Drawing.text s.style (some v.path.written) bound = .ok drawing ∧
              (s.run c).2 = s.output.print [Terminal.line drawing]) := by
  intro s root c
  have hcoherent := coherent_after output colors storage remote events
  have hleads (hlegible : v.path.Legible) :=
    hcoherent.draws_of_legible hd hv hlength hread hlegible
  refine ⟨⟨?_, fun hlegible => ⟨_, (hleads hlegible).1, rfl⟩⟩, hleads⟩
  rintro ⟨a, hleadsTo, hpath⟩
  exact legible_of_leadsTo d.document.workflow_proper hv hleadsTo hpath

/-- A Map state with a state whose id is a number, and a state whose id has a blank. -/
def numbered : Value :=
  .obj [("States", .obj [
    ("A", .obj [("Type", .str "Pass"), ("Assign", .obj [("x", .int 1)]), ("Next", .str "M")]),
    ("M", .obj [("Type", .str "Map"), ("ItemProcessor", .obj [("States", .obj [
      ("1", .obj [("Type", .str "Succeed")]),
      ("B c", .obj [("Type", .str "Succeed")])])])])])]

/-- The scope of the states in the Map state. -/
def outerOnly : VariableScope := ⟨.obj [], .obj [("x", .null)]⟩

/-- The file in which these states are declared. -/
def numberedFile : Storage :=
  [("a.yaml", .file (Text.bytes "States:
  A:
    Type: Pass
    Assign:
      x: 1
    Next: M
  M:
    Type: Map
    ItemProcessor:
      States:
        1:
          Type: Succeed
        B c:
          Type: Succeed
"))]

/-- A session without colours into which the file was loaded. -/
theorem after_load_numberedFile :
    ∃ d, ((new .bytes false numberedFile (.fault .interrupted)).after
        [.typed "load a.yaml"]).document = some d ∧
      d.document.workflow = numbered ∧
      ((new .bytes false numberedFile (.fault .interrupted)).after
        [.typed "load a.yaml"]).style = ReportStyle.usual false := by
  have hfacts : (((new .bytes false numberedFile (.fault .interrupted)).after
        [.typed "load a.yaml"]).document.any fun d =>
        decide (d.document.workflow = numbered)) = true ∧
      ((new .bytes false numberedFile (.fault .interrupted)).after
        [.typed "load a.yaml"]).colors = false := by
    decide +kernel
  obtain ⟨hdocument, hcolors⟩ := hfacts
  obtain ⟨d, hd, hworkflow⟩ := (Option.any_eq_true _ _).mp hdocument
  exact ⟨d, hd, of_decide_eq_true hworkflow, congrArg ReportStyle.usual hcolors⟩

/-- The state with a blank in its id is found again by its listed path. -/
theorem scope_of_listed_path_blank :
    let s := (new .bytes false numberedFile (.fault .interrupted)).after [.typed "load a.yaml"]
    ∃ d, s.document = some d ∧ ∃ v ∈ allStates d.document.workflow,
      v.path.written = "M/B c" ∧ v.path.length ≤ maxPathLength ∧
        (1 < v.path.length →
          ∀ s ∈ v.path, s.written.isDigits = true → ¬ Numeral.Unread s.written) ∧
        v.path.Legible ∧
        (s.run (Command.ofLine "scope M/B c")).2 = .said (Terminal.line
          "📍 M/B c\n📦 Local scope\n  📭 (no variables)\n🌐 Outer scope\n└── $x") := by
  dsimp only
  obtain ⟨d, hd, hworkflow, hstyle⟩ := after_load_numberedFile
  obtain ⟨v, hv, hpath⟩ : ∃ v ∈ allStates d.document.workflow,
      v.path = [.name "M", .name "B c"] := by
    rw [hworkflow]
    exact ⟨_, List.mem_of_getElem? (l := allStates numbered) (i := 3) rfl, rfl⟩
  have hwritten : v.path.written = "M/B c" := by
    rw [hpath]
    rfl
  have hlength : v.path.length ≤ maxPathLength := by
    rw [hpath]
    decide
  have hread : 1 < v.path.length →
      ∀ s ∈ v.path, s.written.isDigits = true → ¬ Numeral.Unread s.written := by
    rw [hpath]
    intro _ s hs hdigits
    simp only [List.mem_cons, List.not_mem_nil, or_false] at hs
    rcases hs with rfl | rfl <;> exact absurd hdigits (by decide)
  have hlegible : v.path.Legible := by
    have hnames : ∀ id, Segment.name id ∈ v.path → id = "M" ∨ id = "B c" := by
      intro id hid
      simpa [hpath] using hid
    refine ⟨by rw [hwritten]; decide, by rw [hwritten]; rfl, fun id hid => ?_, fun _ id hid => ?_⟩
    · rcases hnames id hid with rfl | rfl <;> decide
    · rcases hnames id hid with rfl | rfl <;> rfl
  refine ⟨d, hd, v, hv, hwritten, hlength, hread, hlegible, ?_⟩
  obtain ⟨-, bound, drawing, hbound, hdrawing, hreply⟩ :=
    (scope_of_listed_path .bytes false numberedFile (.fault .interrupted) [.typed "load a.yaml"] hd hv
      hlength hread).2 hlegible
  rw [hworkflow, hpath] at hbound
  rw [hstyle, hwritten] at hdrawing
  rw [hwritten] at hreply
  cases Except.ok.inj hbound
  have htext : Drawing.text (ReportStyle.usual false) (some "M/B c") outerOnly =
      .ok "📍 M/B c\n📦 Local scope\n  📭 (no variables)\n🌐 Outer scope\n└── $x" := by
    decide +kernel
  cases Except.ok.inj (htext.symm.trans hdrawing)
  refine hreply.trans (Output.print_of_hasSurrogate ?_)
  rw [Terminal.hasSurrogate_line, Text.hasSurrogate_ofString]

/-- The state whose id is a number is listed, but its listed path is not found again: the number
is taken for the one of a branch. -/
theorem listed_number_not_found :
    let s := (new .bytes false numberedFile (.fault .interrupted)).after [.typed "load a.yaml"]
    ∃ d, s.document = some d ∧ ∃ v ∈ allStates d.document.workflow,
      v.path = [.name "M", .name "1"] ∧
        (¬ ∃ a, (Command.ofLine ("scope " ++ v.path.written)).LeadsTo d.document.workflow a ∧
          a.path = v.path) ∧
        (∃ bound, variableScope d.document.workflow
            (Predecessors.ofWorkflow d.document.workflow) (.path v.path) none = .ok bound ∧
          Drawing.text s.style (some v.path.written) bound =
            .ok "📍 M/1\n📦 Local scope\n  📭 (no variables)\n🌐 Outer scope\n└── $x") ∧
        (s.run (Command.ofLine ("scope " ++ v.path.written))).2 = .said (Terminal.line
          "📍 M/1\n📦 Local scope\n  📭 (no variables)\n🌐 Outer scope\n  📭 (no variables)") := by
  dsimp only
  obtain ⟨d, hd, hworkflow, hstyle⟩ := after_load_numberedFile
  obtain ⟨v, hv, hpath⟩ : ∃ v ∈ allStates d.document.workflow,
      v.path = [.name "M", .name "1"] := by
    rw [hworkflow]
    exact ⟨_, List.mem_of_getElem? (l := allStates numbered) (i := 2) rfl, rfl⟩
  have hcommand : Command.ofLine ("scope " ++ v.path.written) = .scope (some "M/1") := by
    rw [hpath]
    rfl
  have hreference : Reference.ofWritten "M/1" = .ok (.path [.name "M", .index 1]) := rfl
  refine ⟨d, hd, v, hv, hpath, ?_, ?_, ?_⟩
  · rintro ⟨a, ⟨t, reference, hscope, ht, hlocate⟩, -⟩
    cases hcommand.symm.trans hscope
    cases hreference.symm.trans ht
    rw [hworkflow] at hlocate
    exact absurd (Except.ok.inj hlocate) nofun
  · rw [hworkflow, hpath, hstyle]
    refine ⟨outerOnly, rfl, ?_⟩
    decide +kernel
  · have hbound : variableScope d.document.workflow (Predecessors.ofWorkflow d.document.workflow)
        (.path [.name "M", .index 1]) none = .ok .none := by
      rw [hworkflow]
      rfl
    have hdrawing : Drawing.text ((new .bytes false numberedFile (.fault .interrupted)).after
          [.typed "load a.yaml"]).style (some (Path.written [.name "M", .index 1])) .none =
        .ok "📍 M/1\n📦 Local scope\n  📭 (no variables)\n🌐 Outer scope\n  📭 (no variables)" := by
      rw [hstyle]
      decide +kernel
    have hreply := (coherent_after .bytes false numberedFile (.fault .interrupted)
      [.typed "load a.yaml"]).scope_snd_of_reference hd hreference hbound hdrawing
    rw [hcommand]
    refine hreply.trans (Output.print_of_hasSurrogate ?_)
    rw [Terminal.hasSurrogate_line, Text.hasSurrogate_ofString]

end Session

end Workflow
