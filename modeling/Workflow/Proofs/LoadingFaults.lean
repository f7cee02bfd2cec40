import Mathlib.Data.List.NodupEquivFin
import Mathlib.Logic.Relation
import Workflow.Document.Load
import Workflow.Proofs.Conversions
import Workflow.Proofs.JsonNumerals

/-!
# Where loading faults

Loading answers with a document or with messages, except where a conversion stands outside of what
it guards.  There are four such places: the bytes of a file that are no text, a file name that no
file can have, a number in the notation that cannot be converted, and a plain scalar whose text
does not fit its tag.  The last one is the deep one: the unrolling of a graph finds a misfit exactly
if a misfit can be reached from the root at all.  Unrolling never enters a node twice on one way
down, and a way to a misfit may; but behind its last visit to a node it avoids that node.

The main statement, `loading_answers_iff`, says for every text, every language and every file that
loading answers exactly where none of these places is met.
-/

namespace Workflow

/-! ## Faulting -/

/-- An operation gives no answer. -/
def Faults {α : Type} (x : Except Fault α) : Prop := ∃ fault, x = .error fault

section Faults

variable {α β : Type}

@[simp]
theorem not_faults_ok
    (a : α) :
    ¬ Faults (.ok a : Except Fault α) := by
  rintro ⟨_, h⟩
  cases h

@[simp]
theorem faults_error
    (fault : Fault) :
    Faults (.error fault : Except Fault α) :=
  ⟨fault, rfl⟩

theorem not_faults_iff
    {x : Except Fault α} :
    ¬ Faults x ↔ ∃ a, x = .ok a := by
  cases x <;> simp

@[simp]
theorem faults_map
    (f : α → β)
    (x : Except Fault α) :
    Faults (x.map f) ↔ Faults x := by
  cases x <;> simp [Except.map]

/-- One operation after another faults if the first or the second one does. -/
theorem faults_bind
    {f : α → Except Fault β}
    {x : Except Fault α} :
    Faults (x >>= f) ↔ Faults x ∨ ∃ a, x = .ok a ∧ Faults (f a) := by
  cases x <;> simp [bind, Except.bind]

/-- Going through a list faults exactly if one of its members does. -/
theorem faults_mapM
    (f : α → Except Fault β)
    (l : List α) :
    Faults (l.mapM f) ↔ ∃ a ∈ l, Faults (f a) := by
  induction l with
  | nil => simp [pure, Except.pure]
  | cons a l ih =>
    rw [List.mapM_cons]
    cases ha : f a with
    | error fault => simp [bind, Except.bind, ha]
    | ok b =>
      cases hl : l.mapM f with
      | error fault =>
        rw [hl] at ih
        simpa [bind, Except.bind, ha] using ih
      | ok bs =>
        rw [hl] at ih
        simpa [bind, Except.bind, pure, Except.pure, ha] using ih

end Faults

/-! ## Ways around some places -/

section Avoiding

variable {α : Type} {r : α → α → Prop} {places : List α} {a b c : α}

/-- A step that does not lead to any of some places. -/
def Avoiding (r : α → α → Prop) (places : List α) (a b : α) : Prop := r a b ∧ b ∉ places

theorem avoiding_nil : Avoiding r [] = r := by
  funext a b
  simp [Avoiding]

/-- After its last visit to its start, a way avoids the start as well. -/
theorem eq_or_exists_of_avoiding
    (h : Relation.ReflTransGen (Avoiding r places) a b) :
    b = a ∨ ∃ c, r a c ∧ c ∉ a :: places ∧
      Relation.ReflTransGen (Avoiding r (a :: places)) c b := by
  induction h with
  | refl => exact .inl rfl
  | @tail b d _ hstep ih =>
    by_cases hd : d = a
    -- back at the start, what lies behind does not matter any more
    · exact .inl hd
    · have hfree : d ∉ a :: places := by simp [hd, hstep.2]
      rcases ih with rfl | ⟨c, hac, hc, hway⟩
      · exact .inr ⟨d, hstep.1, hfree, .refl⟩
      · exact .inr ⟨c, hac, hc, hway.tail ⟨hstep.1, hfree⟩⟩

theorem avoiding_of_step
    (hstep : r a c)
    (hc : c ∉ a :: places)
    (hway : Relation.ReflTransGen (Avoiding r (a :: places)) c b) :
    Relation.ReflTransGen (Avoiding r places) a b := by
  refine .head ⟨hstep, fun hmem => hc (List.mem_cons_of_mem _ hmem)⟩ ?_
  exact Relation.ReflTransGen.mono
    (fun _ _ h => ⟨h.1, fun hmem => h.2 (List.mem_cons_of_mem _ hmem)⟩) _ _ hway

end Avoiding

namespace Markup

/-! ## Misfits -/

/-- A text denotes a value of the kind that a tag names. -/
def ScalarTag.Fits (tag : ScalarTag) (t : Text) : Prop :=
  match tag with
  | .bool => ∃ b, truthOf t = .ok b
  | .int => ∃ n, integerOf t = .ok n
  | .float => ∃ x, floatOf t = .ok x
  | .null | .other => True

/-- A plain scalar whose text does not fit its tag. -/
def Content.Misfits (content : Content) : Prop :=
  ∃ tag t, content = .scalar tag t .plain ∧ ¬ tag.Fits t

/-- A scalar faults exactly if it is plain and does not fit its tag. -/
theorem faults_scalarTree
    (span : Span)
    (tag : ScalarTag)
    (t : Text)
    (style : ScalarStyle) :
    Faults (scalarTree span tag t style) ↔ (Content.scalar tag t style).Misfits := by
  by_cases hplain : style = .plain
  · subst hplain
    cases tag with
    | null => simp [scalarTree, Content.Misfits, ScalarTag.Fits]
    | bool => simp [scalarTree, Content.Misfits, ScalarTag.Fits, ← not_faults_iff]
    | int => simp [scalarTree, Content.Misfits, ScalarTag.Fits, ← not_faults_iff]
    | float => simp [scalarTree, Content.Misfits, ScalarTag.Fits, ← not_faults_iff]
    | other =>
      by_cases hnumber : looksJsonNumber t = true
      · obtain ⟨x, hx⟩ := Numeral.exists_float_of_looksJsonNumber hnumber
        simp [scalarTree, Content.Misfits, ScalarTag.Fits, hnumber, hx]
      · simp [scalarTree, Content.Misfits, ScalarTag.Fits, hnumber]
  · simp [scalarTree, Content.Misfits, hplain]

theorem Content.eq_of_isUntyped
    {content : Content}
    (h : content.isUntyped = true) :
    content = .scalar .null [] .plain := by
  simp only [Content.isUntyped] at h
  split at h
  · rfl
  · cases h

namespace Graph

/-- The nodes that become parts of the tree of a node. -/
def parts (g : Graph) (id : Nat) : List Nat :=
  match (g.node id).content with
  | .scalar _ _ _ => []
  | .sequence items => items
  | .mapping entries => entries.map (·.2)

/-- A collection holds its items or its values. -/
def Holds (g : Graph) (id part : Nat) : Prop := part ∈ g.parts id

/-- A misfit can be reached from a node without entering a node twice or entering any of those
around. -/
def ReachesMisfit (g : Graph) (around : List Nat) (id : Nat) : Prop :=
  id ∉ around ∧
    ∃ n, Relation.ReflTransGen (Avoiding g.Holds around) id n ∧ (g.node n).content.Misfits

/-! ## Unrolling -/

section Unrolling

variable {g : Graph} {source : Text} {depth : Nat} {around : List Nat} {id : Nat}

/-- From a node, a misfit is reached on the spot or through one of its parts. -/
theorem reachesMisfit_iff
    (haround : id ∉ around) :
    g.ReachesMisfit around id ↔
      (g.node id).content.Misfits ∨ ∃ part ∈ g.parts id, g.ReachesMisfit (id :: around) part := by
  constructor
  · rintro ⟨-, n, hway, hmisfit⟩
    rcases eq_or_exists_of_avoiding hway with rfl | ⟨part, hpart, hfree, hrest⟩
    · exact .inl hmisfit
    · exact .inr ⟨part, hpart, hfree, n, hrest, hmisfit⟩
  · rintro (hmisfit | ⟨part, hpart, hfree, n, hrest, hmisfit⟩)
    · exact ⟨haround, id, .refl, hmisfit⟩
    · exact ⟨haround, n, avoiding_of_step hpart hfree hrest, hmisfit⟩

/-- A value that has not been typed is unrolled without a fault. -/
theorem not_faults_unroll_of_isUntyped
    (huntyped : (g.node id).content.isUntyped = true) :
    ¬ Faults (g.unroll source depth around id) := by
  have hcontent := Content.eq_of_isUntyped huntyped
  cases depth with
  | zero => simp [unroll]
  | succ depth =>
    simp only [unroll, hcontent]
    split
    · simp
    · simp [scalarTree]

/-- Unrolling a node faults exactly if the node is a misfit or one of its parts faults. -/
theorem faults_unroll_succ
    (haround : id ∉ around) :
    Faults (g.unroll source (depth + 1) around id) ↔
      (g.node id).content.Misfits ∨
        ∃ part ∈ g.parts id, Faults (g.unroll source depth (id :: around) part) := by
  have hcontains : around.contains id = false := by simpa using haround
  simp only [unroll, hcontains, parts]
  cases hcontent : (g.node id).content with
  | scalar tag t style => simp [faults_scalarTree]
  | sequence items => simp [faults_mapM, Content.Misfits]
  | mapping entries =>
    -- a value that has not been typed is left out; unrolled, it would not fault either
    simp only [Bool.false_eq_true, if_false, faults_map]
    rw [faults_mapM]
    constructor
    · rintro ⟨⟨key, value⟩, hentry, hfault⟩
      split at hfault
      · simp at hfault
      · exact .inr ⟨value, List.mem_map_of_mem hentry, by simpa using hfault⟩
    · rintro (⟨_, _, ⟨⟩, _⟩ | ⟨value, hvalue, hfault⟩)
      obtain ⟨⟨key, _⟩, hentry, rfl⟩ := List.mem_map.1 hvalue
      refine ⟨(key, _), hentry, ?_⟩
      split
      case isTrue huntyped => exact absurd hfault (not_faults_unroll_of_isUntyped huntyped)
      case isFalse => simpa using hfault

theorem lt_size_of_mem_parts
    {part : Nat}
    (h : part ∈ g.parts id) :
    id < g.nodes.size := by
  by_contra hge
  have hnode : g.node id = ⟨0, 0, .scalar .null [] .plain⟩ := by
    simp [node, Array.getElem?_eq_none (Nat.not_lt.1 hge)]
  simp [parts, hnode] at h

theorem length_le_size
    (hdistinct : around.Nodup)
    (hnodes : ∀ a ∈ around, a < g.nodes.size) :
    around.length ≤ g.nodes.size := by
  have hsub : around ⊆ List.range g.nodes.size := fun a ha => List.mem_range.2 (hnodes a ha)
  simpa using (List.subperm_of_subset hdistinct hsub).length_le

/-- Unrolling faults exactly if it can reach a misfit. -/
theorem faults_unroll
    (hdistinct : around.Nodup)
    (hnodes : ∀ a ∈ around, a < g.nodes.size)
    (hdepth : depth + around.length = g.nodes.size + 1) :
    Faults (g.unroll source depth around id) ↔ g.ReachesMisfit around id := by
  induction depth generalizing around id with
  | zero =>
    -- the depth is never used up: more different nodes would be around than there are
    have hshort := length_le_size hdistinct hnodes
    omega
  | succ depth ih =>
    by_cases haround : id ∈ around
    · simp [unroll, ReachesMisfit, haround]
    · rw [faults_unroll_succ haround, reachesMisfit_iff haround]
      refine or_congr_right (exists_congr fun part => and_congr_right fun hpart => ?_)
      refine ih (List.nodup_cons.2 ⟨haround, hdistinct⟩) ?_ ?_
      · exact List.forall_mem_cons.2 ⟨lt_size_of_mem_parts hpart, hnodes⟩
      · rw [List.length_cons]
        omega

end Unrolling

/-- The tree of a graph cannot be made exactly if a misfit is reached from its root. -/
theorem faults_toTree
    (g : Graph)
    (source : Text) :
    Faults (g.toTree source) ↔
      ∃ n, Relation.ReflTransGen g.Holds g.root n ∧ (g.node n).content.Misfits := by
  rw [toTree_eq_unroll, faults_unroll .nil (by simp) rfl, ReachesMisfit, avoiding_nil]
  simp

end Graph

end Markup

/-! ## Loading -/

namespace Document

/-- What a text is composed to. -/
def composed (language : Language) (t : Text) : Except Markup.Problem (Option Markup.Graph) :=
  Markup.Graph.ofTokens (Markup.TokenStream.ofText (language == .json) (sourceOf language t))

/-- A text with something in it that cannot be converted: a number in its notation, or the text of a
plain scalar that is reached from the root. -/
inductive Unconvertible (language : Language) (t : Text) : Prop where
  | number (fault : Fault) (h : composed language t = .error (.fault fault))
  | scalar (g : Markup.Graph) (n : Nat) (h : composed language t = .ok (some g))
      (hway : Relation.ReflTransGen g.Holds g.root n) (hmisfit : (g.node n).content.Misfits)

/-- The tree of a text faults exactly if something in the text cannot be converted. -/
theorem faults_treeOf
    (language : Language)
    (t : Text) :
    Faults (treeOf language t) ↔ Unconvertible language t := by
  constructor
  · intro hfaults
    rw [treeOf] at hfaults
    split at hfaults
    case h_1 => simp at hfaults
    case h_2 fault hcomposed => exact .number fault hcomposed
    case h_3 => simp at hfaults
    case h_4 g hcomposed =>
      obtain ⟨n, hway, hmisfit⟩ := (Markup.Graph.faults_toTree g _).1 (by simpa using hfaults)
      exact .scalar g n hcomposed hway hmisfit
  · rintro (⟨fault, hcomposed⟩ | ⟨g, n, hcomposed, hway, hmisfit⟩)
    · rw [composed] at hcomposed
      simp [treeOf, hcomposed]
    · rw [composed] at hcomposed
      simpa [treeOf, hcomposed] using (Markup.Graph.faults_toTree g _).2 ⟨n, hway, hmisfit⟩

end Document

/-- An answer to a request to load: a document and no messages, or messages and no document. -/
def Loaded.IsAnswer (loaded : Loaded) : Prop :=
  (loaded.document.isSome ∧ loaded.errors = []) ∨ (loaded.document = none ∧ loaded.errors ≠ [])

/-- A load answers. -/
def Answers (x : Except Fault Loaded) : Prop := ∃ loaded, x = .ok loaded ∧ loaded.IsAnswer

/-- Why a file is not loaded: no file can have the name, the bytes are no text, or something in the
text cannot be converted. -/
inductive Unreadable (storage : Storage) (name : Text) : Prop where
  | name (fault : Fault) (h : FileName.fault? (FileName.ofText name).toText = some fault)
  | bytes (bytes : List Nat) (fault : ByteFault)
      (hread : storage.read (FileName.ofText name) = .ok bytes)
      (h : Text.decodeBytes bytes = .error fault)
  | text (bytes : List Nat) (content : Text)
      (hread : storage.read (FileName.ofText name) = .ok bytes)
      (hdecoded : Text.decodeBytes bytes = .ok content)
      (h : Document.Unconvertible (Language.ofFileName (FileName.ofText name))
        content.unifyLineEnds)

section Loading

variable (voice : Terminal.Voice)

theorem isAnswer_failed
    (message : Text) :
    (Loaded.failed voice message).IsAnswer :=
  .inr ⟨rfl, by simp [Loaded.failed]⟩

theorem isAnswer_loadText
    {language : Language}
    {version : Int}
    {t : Text}
    {loaded : Loaded}
    (h : loadText voice language version t = .ok loaded) :
    loaded.IsAnswer := by
  rw [loadText] at h
  split at h
  · cases h
  · cases h
    exact isAnswer_failed voice _
  · cases h
    exact .inl ⟨rfl, rfl⟩

theorem isAnswer_load
    {language : Text}
    {version : Int}
    {t : Text}
    {loaded : Loaded}
    (h : load voice language version t = .ok loaded) :
    loaded.IsAnswer := by
  rw [load] at h
  split at h
  · exact isAnswer_loadText voice h
  · cases h
    exact .inr ⟨rfl, by simp⟩

theorem isAnswer_loadFile
    {storage : Storage}
    {name : Text}
    {loaded : Loaded}
    (h : loadFile voice storage name = .ok loaded) :
    loaded.IsAnswer := by
  rw [loadFile] at h
  split at h
  · cases h
  · split at h
    · cases h
      exact isAnswer_failed voice _
    · cases h
    · exact isAnswer_loadText voice h

theorem faults_loadText
    (language : Language)
    (version : Int)
    (t : Text) :
    Faults (loadText voice language version t) ↔ Document.Unconvertible language t := by
  rw [← Document.faults_treeOf, loadText]
  cases Document.treeOf language t with
  | error fault => simp
  | ok tree => cases tree <;> simp

theorem faults_load
    (language : Text)
    (version : Int)
    (t : Text) :
    Faults (load voice language version t) ↔
      ∃ l, Language.ofId? language = some l ∧ Document.Unconvertible l t := by
  rw [load]
  cases Language.ofId? language with
  | none => simp
  | some l => simp [faults_loadText]

/-- Loading a file faults exactly if it cannot be read as a document; that it is missing or a
directory is reported. -/
theorem faults_loadFile
    (storage : Storage)
    (name : Text) :
    Faults (loadFile voice storage name) ↔ Unreadable storage name := by
  constructor
  · intro hfaults
    simp only [loadFile, Storage.readText] at hfaults
    split at hfaults
    case h_1 fault hname => exact .name fault hname
    case h_2 =>
      cases hread : storage.read (FileName.ofText name) with
      | error problem => simp [hread, Except.map] at hfaults
      | ok bytes =>
        cases hdecoded : Text.decodeBytes bytes with
        | error fault => exact .bytes bytes fault hread hdecoded
        | ok content =>
          simp only [hread, hdecoded, Except.map, faults_loadText] at hfaults
          exact .text bytes content hread hdecoded hfaults
  · intro hunreadable
    rw [loadFile]
    cases hname : FileName.fault? (FileName.ofText name).toText with
    | some fault => simp
    | none =>
      cases hunreadable with
      | name fault h => simp [hname] at h
      | bytes bytes fault hread h => simp [Storage.readText, hread, h, Except.map]
      | text bytes content hread hdecoded h =>
        simpa [Storage.readText, hread, hdecoded, Except.map, faults_loadText] using h

/-- Loading faults or answers, and it faults exactly where something has to be converted that cannot
be: a number or a misfit in a text, or the bytes or the name of a file.  Malformed texts, unknown
languages, missing files and directories are answered. -/
theorem loading_answers_iff :
    (∀ (language : Text) (version : Int) (t : Text),
      let blocked := ∃ l, Language.ofId? language = some l ∧ Document.Unconvertible l t
      (Answers (load voice language version t) ↔ ¬ blocked) ∧
        (Faults (load voice language version t) ↔ blocked)) ∧
    (∀ (storage : Storage) (name : Text),
      (Answers (loadFile voice storage name) ↔ ¬ Unreadable storage name) ∧
        (Faults (loadFile voice storage name) ↔ Unreadable storage name)) := by
  have hanswers {x : Except Fault Loaded} (h : ∀ loaded, x = .ok loaded → loaded.IsAnswer) :
      Answers x ↔ ¬ Faults x := by
    rw [not_faults_iff]
    exact exists_congr fun loaded => and_iff_left_of_imp (h loaded)
  refine ⟨fun language version t => ?_, fun storage name => ?_⟩
  · rw [← faults_load voice language version t]
    exact ⟨hanswers fun _ => isAnswer_load voice, .rfl⟩
  · rw [← faults_loadFile voice storage name]
    exact ⟨hanswers fun _ => isAnswer_loadFile voice, .rfl⟩

end Loading

/-- A word with the tag of truth values, and a byte that starts no character, are not answered. -/
theorem loading_without_answer :
    ¬ Answers (load ⟨false, false⟩ "yaml" 0 "!!bool maybe") ∧
      ¬ Answers (loadFile ⟨false, false⟩ [("a.yaml", .file [0xFF])] "a.yaml") := by
  have htext : load ⟨false, false⟩ "yaml" 0 "!!bool maybe" = .error (.badTruthWord "maybe") := rfl
  have hfile : loadFile ⟨false, false⟩ [("a.yaml", .file [0xFF])] "a.yaml" =
      .error (.badBytes ⟨0xFF, 0, 1, .start⟩) := rfl
  simp [Answers, htext, hfile]

end Workflow
