import Workflow.Completion.Variables
import Workflow.Proofs.LoadingFaults
import Workflow.Proofs.ReportTexts
import Workflow.Session.Command

/-!
# Numbers that are typed

Numbers are typed in three places: as branch indexes in the path of a state, as the line and the
column of a position, and as indexes in the path of a variable.  Each time the digit test is passed
before the number is read, but it lets more through than can be read: digits that are ornamental
only, and more digits than any number may have.  Where such a number is met, and nowhere else, there
is no answer.
-/

namespace Workflow

/-! ## Digits -/

namespace CodePoint

theorem not_isBlank_of_isOrnamentalDigit
    {c : CodePoint} (h : c.isOrnamentalDigit = true) :
    c.isBlank = false := by
  simp only [isOrnamentalDigit, List.any_cons, List.any_nil, Bool.or_false, within,
    Bool.or_eq_true, Bool.and_eq_true, decide_eq_true_eq] at h
  simp only [isBlank, within, Bool.or_eq_false_iff, Bool.and_eq_false_iff, decide_eq_false_iff_not,
    beq_eq_false_iff_ne, ne_eq, Fin.ext_iff]
  omega

theorem not_isBlank_of_isDigit
    {c : CodePoint} (h : c.isDigit = true) :
    c.isBlank = false := by
  rcases (Bool.or_eq_true _ _).mp h with hdecimal | hornamental
  · exact not_isBlank_of_isDecimal hdecimal
  · exact not_isBlank_of_isOrnamentalDigit hornamental

/-- An ornamental digit is no hexadecimal digit. -/
theorem hexValue?_of_isOrnamentalDigit
    {c : CodePoint} (h : c.isOrnamentalDigit = true) :
    c.hexValue? = none := by
  have hbeyond : 0x66 < c.val := by
    simp only [isOrnamentalDigit, List.any_cons, List.any_nil, Bool.or_false, within,
      Bool.or_eq_true, Bool.and_eq_true, decide_eq_true_eq] at h
    omega
  have hnot (lo hi : Nat) (hhi : hi ≤ 0x66) : c.within lo hi = false := by
    simp only [within, Bool.and_eq_false_iff, decide_eq_false_iff_not]
    omega
  simp [hexValue?, isAsciiDigit, hnot]

theorem decimalValue?_lt
    {c : CodePoint} {d : Nat} (h : c.decimalValue? = some d) :
    d < 10 := by
  obtain ⟨z, hfind, rfl⟩ := Option.map_eq_some_iff.mp h
  have hin := List.find?_some hfind
  simp only [within, Bool.and_eq_true, decide_eq_true_eq] at hin
  omega

end CodePoint

namespace Numeral

/-- Digits that are not read as a number: one of them is ornamental, or they are too many. -/
def Unread (t : Text) : Prop := (∃ c ∈ t, c.isDecimal = false) ∨ maxDigits < t.length

/-- In base ten, digits have the values of decimal digits. -/
theorem digitIn?_of_isDigit
    {c : CodePoint} (h : c.isDigit = true) :
    digitIn? 10 c = c.decimalValue? := by
  unfold digitIn?
  cases hvalue : c.decimalValue? with
  | some d => simp [CodePoint.decimalValue?_lt hvalue]
  | none =>
      have hornamental : c.isOrnamentalDigit = true := by
        simpa [CodePoint.isDigit, CodePoint.isDecimal, hvalue] using h
      simp [CodePoint.hexValue?_of_isOrnamentalDigit hornamental]

/-- The number that decimal digits denote, of whatever script and however many they are. -/
def position? (t : Text) : Option Nat :=
  if t.isEmpty then none else (t.mapM CodePoint.decimalValue?).map (Text.valueOf 10)

/-- Digits are read by their decimal values. -/
theorem digitsIn?_of_isDigit
    {t : Text} (h : ∀ c ∈ t, c.isDigit = true) :
    digitsIn? 10 t = t.mapM CodePoint.decimalValue? := by
  unfold digitsIn?
  induction t with
  | nil => rfl
  | cons c t ih =>
      rw [List.mapM_cons, List.mapM_cons, digitIn?_of_isDigit (h c List.mem_cons_self),
        ih fun d hd => h d (List.mem_cons_of_mem _ hd)]

/-- Decimal digits have values one by one, and all of them or none. -/
theorem mapM_decimalValue?
    (t : Text) :
    (t.mapM CodePoint.decimalValue? = none ↔ ∃ c ∈ t, c.isDecimal = false) ∧
      ∀ digits, t.mapM CodePoint.decimalValue? = some digits → digits.length = t.length := by
  induction t with
  | nil => simp
  | cons c t ih =>
      obtain ⟨hnone, hlength⟩ := ih
      rw [List.mapM_cons]
      cases hc : c.decimalValue? with
      | none => simp [CodePoint.isDecimal, hc]
      | some d =>
          cases ht : t.mapM CodePoint.decimalValue? with
          | none =>
              obtain ⟨c', hc', hdecimal⟩ := hnone.mp ht
              refine ⟨iff_of_true rfl ⟨c', List.mem_cons_of_mem _ hc', hdecimal⟩, ?_⟩
              simp
          | some ds =>
              have hdecimal : ¬ ∃ c ∈ t, c.isDecimal = false := by simp [← hnone, ht]
              refine ⟨?_, ?_⟩
              · simpa [CodePoint.isDecimal, hc] using hdecimal
              · simp [hlength ds ht]

/-- All digits but ornamental ones denote a number. -/
theorem position?_eq_none_iff
    {t : Text} (hne : t ≠ []) :
    position? t = none ↔ ∃ c ∈ t, c.isDecimal = false := by
  rw [position?, if_neg (by simpa using hne), Option.map_eq_none_iff, (mapM_decimalValue? t).1]

theorem splitSign_of_isDigits
    {t : Text} (h : ∀ c ∈ t, c.isDigit = true) :
    splitSign t = (false, t) := by
  cases t with
  | nil => rfl
  | cons c t =>
      have hc := h c List.mem_cons_self
      have hminus : c ≠ '-' := by rintro rfl; exact absurd hc (by decide)
      have hplus : c ≠ '+' := by rintro rfl; exact absurd hc (by decide)
      rw [splitSign, if_neg hminus, if_neg hplus]

theorem dropBaseMark_ten
    (t : Text) :
    dropBaseMark 10 t = t := by
  unfold dropBaseMark
  split
  · exact if_neg fun h => by cases h.2
  · rfl

/-- Digits are read as the number that they denote, unless they are too many. -/
theorem integer?_of_isDigits
    {t : Text} (h : t.isDigits = true) :
    integer? 10 t = if maxDigits < t.length then none else (position? t).map Nat.cast := by
  rw [Text.isDigits, Bool.and_eq_true, Bool.not_eq_true', List.all_eq_true] at h
  obtain ⟨hne, hdigits⟩ := h
  have htrim : t.trim = t :=
    Text.trim_eq_self fun c hc => CodePoint.not_isBlank_of_isDigit (hdigits c hc)
  rw [integer?, htrim, splitSign_of_isDigits hdigits]
  dsimp only
  rw [dropBaseMark_ten, digitsIn?_of_isDigit hdigits, position?, hne, if_neg Bool.false_ne_true]
  cases hread : t.mapM CodePoint.decimalValue? with
  | none => simp
  | some digits =>
      have hlen := (mapM_decimalValue? t).2 digits hread
      cases digits with
      | nil => exact absurd (List.length_eq_zero_iff.mp hlen.symm) (by simpa using hne)
      | cons d digits => simp [hlen]

/-- What denotes a number consists of digits. -/
theorem isDigits_of_position?
    {t : Text} {n : Nat} (h : position? t = some n) :
    t.isDigits = true := by
  have hne : t ≠ [] := by
    rintro rfl
    cases h
  rw [Text.isDigits, Bool.and_eq_true, Bool.not_eq_true', List.isEmpty_eq_false_iff,
    List.all_eq_true]
  refine ⟨hne, fun c hc => (Bool.or_eq_true _ _).mpr (Or.inl ?_)⟩
  by_contra hdecimal
  rw [(position?_eq_none_iff hne).mpr ⟨c, hc, Bool.eq_false_iff.mpr hdecimal⟩] at h
  cases h

/-- Digits are read as a number unless one of them is ornamental or they are too many. -/
theorem faults_integer_iff
    {t : Text} (h : t.isDigits = true) :
    Faults (integer 10 t) ↔ Unread t := by
  have hne : t ≠ [] := by
    rw [Text.isDigits, Bool.and_eq_true, Bool.not_eq_true', List.isEmpty_eq_false_iff] at h
    exact h.1
  have hfaults : Faults (integer 10 t) ↔ integer? 10 t = none := by
    rw [integer]
    cases integer? 10 t <;> simp
  rw [hfaults, integer?_of_isDigits h, Unread, ← position?_eq_none_iff hne]
  by_cases hlong : maxDigits < t.length <;> simp [hlong]

/-- Where digits are read, the number is the one that they denote. -/
theorem exists_integer_eq
    {t : Text} (h : t.isDigits = true) (hread : ¬ Unread t) :
    ∃ n : Nat, position? t = some n ∧ integer 10 t = .ok n := by
  have hnot : ¬ Faults (integer 10 t) := fun hfaults => hread ((faults_integer_iff h).mp hfaults)
  have hlong : ¬ maxDigits < t.length := fun hlong => hread (Or.inr hlong)
  rw [integer, integer?_of_isDigits h, if_neg hlong] at hnot ⊢
  cases hposition : position? t with
  | none => simp [hposition] at hnot
  | some n => exact ⟨n, rfl, rfl⟩

/-- Decimal digits are read as a number unless they are too many. -/
theorem unread_of_isDecimals
    {t : Text} (h : t.IsDecimals) :
    t.isDigits = true ∧ (Unread t ↔ maxDigits < t.length) := by
  obtain ⟨hne, hdecimals⟩ := h
  refine ⟨?_, or_iff_right ?_⟩
  · rw [Text.isDigits, Bool.and_eq_true, Bool.not_eq_true', List.isEmpty_eq_false_iff,
      List.all_eq_true]
    exact ⟨hne, fun c hc => by rw [CodePoint.isDigit, hdecimals c hc, Bool.true_or]⟩
  · rintro ⟨c, hc, hnot⟩
    exact absurd (hdecimals c hc) (by simp [hnot])

end Numeral

/-! ## References and positions -/

theorem Segment.faults_ofWritten_iff
    (t : Text) :
    Faults (ofWritten t) ↔ t.isDigits = true ∧ Numeral.Unread t := by
  rw [ofWritten]
  split
  · next h => rw [faults_map, Numeral.faults_integer_iff h, and_iff_right h]
  · next h => simp [h]

/-- What is typed stands for a name or a branch index. -/
theorem Segment.leads_of_ofWritten
    {t : Text} {s : Segment} (h : ofWritten t = .ok s) :
    s.Leads := by
  rw [ofWritten] at h
  split at h
  · cases hread : Numeral.integer 10 t with
    | error fault =>
        rw [hread] at h
        cases h
    | ok n =>
        rw [hread] at h
        cases h
        exact Or.inr rfl
  · cases h
    exact Or.inl rfl

namespace Reference

theorem faults_ofWritten_iff
    (t : Text) :
    Faults (ofWritten t) ↔ t.contains '/' = true ∧
      ∃ piece ∈ Text.splitOn '/' t, piece.isDigits = true ∧ Numeral.Unread piece := by
  rw [ofWritten]
  split
  · next h =>
      rw [faults_map, faults_mapM, and_iff_right h]
      simp only [Segment.faults_ofWritten_iff]
  · next h => exact iff_of_false (not_faults_ok _) fun hslash => h hslash.1

theorem leads_of_ofWritten
    {t : Text} {reference : Reference} (h : ofWritten t = .ok reference) :
    reference.Leads := by
  rw [ofWritten] at h
  split at h
  · cases hpieces : (Text.splitOn '/' t).mapM Segment.ofWritten with
    | error fault =>
        rw [hpieces] at h
        cases h
    | ok p =>
        rw [hpieces] at h
        cases h
        have hsegments : ∀ piece ∈ Text.splitOn '/' t,
            Delivers (Segment.ofWritten piece) False Segment.Leads := fun piece _ =>
          ⟨fun s hs => Segment.leads_of_ofWritten hs, False.elim⟩
        exact (Delivers.mapM hsegments).yields p hpieces
  · cases h
    exact trivial

end Reference

namespace Position

/-- What stands in front of the first colon. -/
def typedLine (t : Text) : Text := t.takeWhile fun (c : CodePoint) => c != ':'

/-- What stands behind the first colon. -/
def typedColumn (t : Text) : Text := t.drop ((typedLine t).length + 1)

theorem faults_ofWritten_iff
    (t : Text) :
    Faults (ofWritten t) ↔ (typedLine t).isDigits = true ∧ (typedColumn t).isDigits = true ∧
      (Numeral.Unread (typedLine t) ∨ Numeral.Unread (typedColumn t)) := by
  have hwritten : ofWritten t =
      if (typedLine t).isDigits && (typedColumn t).isDigits then do
        let l ← Numeral.integer 10 (typedLine t)
        let c ← Numeral.integer 10 (typedColumn t)
        pure (some ⟨l - 1, c - 1⟩)
      else .ok none := rfl
  rw [hwritten]
  split
  · next h =>
      rw [Bool.and_eq_true] at h
      rw [and_iff_right h.1, and_iff_right h.2, ← Numeral.faults_integer_iff h.1,
        ← Numeral.faults_integer_iff h.2]
      cases Numeral.integer 10 (typedLine t) with
      | error fault => simp [bind, Except.bind]
      | ok l =>
          cases Numeral.integer 10 (typedColumn t) with
          | error fault => simp [bind, Except.bind]
          | ok c => simp [bind, Except.bind, pure, Except.pure]
  · next h =>
      rw [Bool.and_eq_true] at h
      simp only [not_faults_ok, false_iff]
      exact fun hdigits => h ⟨hdigits.1, hdigits.2.1⟩

end Position

/-! ## Paths of variables -/

namespace Completion

/-- The steps of the path that is typed at a place, without what follows its last point. -/
def typedSteps (f : Focus) : List Step :=
  steps (parentOf (Text.replaceFirst "$" "" (f.part.toValue.text?.getD []))).1

/-- The steps of a path lead to an array, and go on with an index that has too many digits. -/
inductive Overreaches : Value → List Step → Prop where
  | here {v : Value} {items : List Value} {digits : Text} {rest : List Step}
      (hitems : v.items? = some items) (h : Numeral.maxDigits < digits.length) :
      Overreaches v (.index digits :: rest)
  | name {v w : Value} {t : Text} {rest : List Step} (hget : v.get? t = some w)
      (h : Overreaches w rest) : Overreaches v (.name t :: rest)
  | index {v w : Value} {items : List Value} {digits : Text} {n : Int} {rest : List Step}
      (hitems : v.items? = some items) (hread : Numeral.integer 10 digits = .ok n)
      (hitem : items[n.toNat]? = some w) (h : Overreaches w rest) :
      Overreaches v (.index digits :: rest)

theorem isDecimals_of_bracketed?
    {t digits after : Text} (h : bracketed? t = some (digits, after)) :
    digits.IsDecimals := by
  unfold bracketed? at h
  split at h
  · next c rest =>
      dsimp only at h
      split at h
      · split at h
        · next hbrackets =>
            cases h
            rw [Bool.and_eq_true, Bool.and_eq_true, Bool.not_eq_true',
              List.isEmpty_eq_false_iff] at hbrackets
            exact ⟨hbrackets.1.2, fun c hc => List.mem_takeWhile_imp hc⟩
        · cases h
      · cases h
  · cases h

theorem isDecimals_of_mem_stepsFrom
    {fuel : Nat} {t digits : Text} (h : .index digits ∈ stepsFrom fuel t) :
    digits.IsDecimals := by
  induction fuel generalizing t with
  | zero => simp [stepsFrom] at h
  | succ fuel ih =>
      cases t with
      | nil => simp [stepsFrom] at h
      | cons c rest =>
          rw [stepsFrom] at h
          split at h
          · exact ih (by simpa using h)
          · split at h
            · next after hbracketed =>
                rcases List.mem_cons.mp h with heq | h
                · cases heq
                  exact isDecimals_of_bracketed? hbracketed
                · exact ih h
            · exact ih h

theorem isDecimals_of_mem_steps
    {t digits : Text} (h : .index digits ∈ steps t) :
    digits.IsDecimals :=
  isDecimals_of_mem_stepsFrom h

theorem overreaches_name_iff
    {v : Value} {t : Text} {rest : List Step} :
    Overreaches v (.name t :: rest) ↔ ∃ w, v.get? t = some w ∧ Overreaches w rest := by
  constructor
  · rintro (_ | ⟨hget, h⟩)
    exact ⟨_, hget, h⟩
  · rintro ⟨w, hget, h⟩
    exact .name hget h

theorem overreaches_index_iff
    {v : Value} {digits : Text} {rest : List Step} :
    Overreaches v (.index digits :: rest) ↔ ∃ items, v.items? = some items ∧
      (Numeral.maxDigits < digits.length ∨ ∃ n w, Numeral.integer 10 digits = .ok n ∧
        items[n.toNat]? = some w ∧ Overreaches w rest) := by
  constructor
  · rintro (⟨hitems, hlong⟩ | - | ⟨hitems, hread, hitem, h⟩)
    · exact ⟨_, hitems, .inl hlong⟩
    · exact ⟨_, hitems, .inr ⟨_, _, hread, hitem, h⟩⟩
  · rintro ⟨items, hitems, hlong | ⟨n, w, hread, hitem, h⟩⟩
    · exact .here hitems hlong
    · exact .index hitems hread hitem h

/-- Steps with decimal indexes are followed unless they overreach. -/
theorem faults_followSteps_iff
    {steps : List Step} (h : ∀ digits, .index digits ∈ steps → digits.IsDecimals) (v : Value) :
    Faults (followSteps v steps) ↔ Overreaches v steps := by
  induction steps generalizing v with
  | nil => simpa [followSteps] using fun h => by cases h
  | cons step rest ih =>
      have hrest := ih fun digits hd => h digits (List.mem_cons_of_mem _ hd)
      cases step with
      | name t =>
          rw [followSteps, overreaches_name_iff]
          cases hget : v.get? t with
          | none => simp
          | some w => simp [hrest]
      | index digits =>
          obtain ⟨hdigits, hunread⟩ := Numeral.unread_of_isDecimals (h digits List.mem_cons_self)
          rw [followSteps, overreaches_index_iff, ← hunread, ← Numeral.faults_integer_iff hdigits]
          cases v.items? with
          | none => simp
          | some items =>
              cases hread : Numeral.integer 10 digits with
              | error fault => simp
              | ok n =>
                  cases hitem : items[n.toNat]? with
                  | none => simp [hitem]
                  | some w => simp [hitem, hrest]

/-- The candidates for a typed text are found unless its steps overreach. -/
theorem faults_candidates_iff
    (typed : Text) (scope : VariableScope) (reserved : Value) :
    Faults (candidates typed scope reserved) ↔
      Overreaches (allVariables scope reserved)
        (steps (parentOf (Text.replaceFirst "$" "" typed)).1) := by
  rw [← faults_followSteps_iff fun digits h => isDecimals_of_mem_steps h]
  unfold candidates
  obtain ⟨parent, hasParent⟩ := parentOf (Text.replaceFirst "$" "" typed)
  dsimp only
  split
  -- nothing stands in front of a point: there are no steps to follow either
  · next hempty =>
      rw [List.isEmpty_iff] at hempty
      rw [hempty]
      exact iff_of_false (not_faults_ok _) (not_faults_ok _)
  · rw [faults_bind, or_iff_left]
    rintro ⟨found, -, hfaults⟩
    exact not_faults_ok _ hfaults

end Completion

namespace Focus

theorem leads_ownerOf?
    {scope : Focus} {branch : Path} {owner : Option Focus}
    (h : ownerOf? scope = some (branch, owner)) :
    branch.Leads := by
  unfold ownerOf? at h
  split at h
  · cases h
  · split at h
    · cases h
      exact Path.leads_nil
    · split at h
      · cases h
        exact Path.leads_cons.mpr ⟨Or.inr rfl, Path.leads_nil⟩
      · cases h

theorem leads_outerPath
    (fuel : Nat) (scope : Focus) :
    Path.Leads (outerPath fuel scope) := by
  induction fuel generalizing scope with
  | zero => exact Path.leads_nil
  | succ fuel ih =>
      rw [outerPath]
      split
      · exact Path.leads_nil
      · next branch owner howner =>
          have hbranch := leads_ownerOf? howner
          split
          · split
            · refine Path.leads_append.mpr ⟨Path.leads_concat ?_ (Or.inl rfl), hbranch⟩
              split
              · exact ih _
              · exact Path.leads_nil
            · exact hbranch
          · exact hbranch

/-- The path of a state that is found around a place consists of names and indexes. -/
theorem leads_statePath
    (declaration : Focus) :
    Path.Leads declaration.statePath := by
  rw [statePath]
  refine Path.leads_concat ?_ (Or.inl rfl)
  split
  · exact leads_outerPath _ _
  · exact Path.leads_nil

end Focus

namespace Completion

/-- The variables at a place are found unless the path that is typed there overreaches. -/
theorem faults_at?_iff
    (f : Focus) (workflow : Value) (entries : Predecessors) :
    Faults (at? f workflow entries none) ↔ ∃ info use scope,
      f.stateInfo? = some info ∧ useAt? f info = some use ∧
        variableScope workflow entries (.path info.path) (some (.path info.path)) = .ok scope ∧
        Overreaches (allVariables scope (reserved use)) (typedSteps f) := by
  rw [at?]
  cases hinfo : f.stateInfo? with
  | none => simp
  | some info =>
      cases huse : useAt? f info with
      | none => simp [huse]
      | some use =>
          have hpath : info.path.Leads := by
            obtain ⟨declaration, -, rfl⟩ := Option.map_eq_some_iff.mp hinfo
            exact Focus.leads_statePath declaration
          obtain ⟨scope, hscope, -⟩ := variableScope_drawn workflow entries (.path info.path)
            (some (.path info.path)) hpath (fun reference h => Option.some.inj h ▸ hpath)
          have hcandidates : Faults (candidates (f.part.toValue.text?.getD []) scope
              (reserved use) >>= fun found => pure (some found)) ↔
              Overreaches (allVariables scope (reserved use)) (typedSteps f) := by
            rw [faults_bind, or_iff_left]
            · exact faults_candidates_iff _ scope (reserved use)
            · rintro ⟨found, -, hfaults⟩
              exact not_faults_ok _ hfaults
          dsimp only
          rw [huse]
          dsimp only
          rw [hscope]
          constructor
          · intro hfaults
            exact ⟨info, use, scope, rfl, huse, hscope, hcandidates.mp hfaults⟩
          · rintro ⟨info', use', scope', hinfo', huse', hscope', h⟩
            cases hinfo'
            rw [huse] at huse'
            cases huse'
            rw [hscope] at hscope'
            cases hscope'
            exact hcandidates.mpr h

end Completion

end Workflow
