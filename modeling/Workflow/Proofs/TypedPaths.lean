import Workflow.Proofs.MergeLaws
import Workflow.Proofs.TextPieces

/-!
# Typed paths

A path into a tree is typed with points in front of names and with positions in brackets.  Taken
apart again it gives the same steps, so what is offered behind it are the names of the object to
which these steps lead in the merged tree.  The reserved tree is merged last and hides none of its
names: wherever it has an object, the merged tree has an object with all its names.
-/

namespace Workflow

namespace Value

/-- The value that a path leads to. -/
def along? : Value → List TreeStep → Option Value
  | v, [] => some v
  | v, s :: p => (v.child? s).bind fun w => w.along? p

/-- The names at the end of a path; none where it leads nowhere or not to an object. -/
def namesAt (v : Value) (p : List TreeStep) : List Text := ((v.along? p).map names).getD []

variable {v w : Value} {p : List TreeStep} {name : Text}

theorem child?_key
    (v : Value) (name : Text) :
    v.child? (.key name) = v.get? name := by
  cases v <;> rfl

theorem child?_item
    (v : Value) (i : Nat) :
    v.child? (.item i) = v.items?.bind fun items => items[i]? := by
  cases v <;> rfl

theorem along?_concat
    (v : Value) (p : List TreeStep) (s : TreeStep) :
    v.along? (p ++ [s]) = (v.along? p).bind fun w => w.child? s := by
  induction p generalizing v with
  | nil =>
      rw [List.nil_append, along?, along?, Option.bind_some]
      cases v.child? s <;> rfl
  | cons first p ih =>
      rw [List.cons_append, along?, along?]
      cases v.child? first with
      | none => rfl
      | some w => exact ih w

theorem kindAlong?_eq
    (v : Value) (p : List TreeStep) :
    v.kindAlong? p = (v.along? p).map kind := by
  induction p generalizing v with
  | nil => rfl
  | cons s p ih =>
      rw [kindAlong?_cons, along?]
      cases v.child? s with
      | none => rfl
      | some w => exact ih w

theorem mem_names_iff_child? :
    name ∈ v.names ↔ (v.child? (.key name)).isSome = true := by
  cases v with
  | obj fields => rw [names_obj, ← Fields.has_iff, ← Fields.isSome_get?, child?]
  | _ => exact iff_of_false List.not_mem_nil Bool.false_ne_true

/-- A name stands at the end of a path if the path can be followed further by this name. -/
theorem mem_namesAt_iff :
    name ∈ v.namesAt p ↔ (v.kindAlong? (p ++ [.key name])).isSome = true := by
  rw [namesAt, kindAlong?_eq, along?_concat, Option.isSome_map]
  cases v.along? p with
  | none => exact iff_of_false List.not_mem_nil Bool.false_ne_true
  | some w => exact mem_names_iff_child?

end Value

/-- The later tree of a merge hides none of its names. -/
theorem KeyTree.namesAt_subset_merge
    (v w : Value) (p : List TreeStep) :
    w.namesAt p ⊆ (merge v w).namesAt p := by
  intro name hname
  rw [Value.mem_namesAt_iff, Option.isSome_iff_exists] at hname ⊢
  obtain ⟨k, hk⟩ := hname
  exact ⟨k, kindAlong?_merge_of_later hk⟩

namespace Completion

/-! ## Writing a path and taking it apart -/

/-- A step that can be typed: a name that is not empty and holds none of the code points that
divide, or a position with no more digits than are read. -/
def Typable : TreeStep → Prop
  | .key name =>
    name ≠ [] ∧ ('.' : CodePoint) ∉ name ∧ ('[' : CodePoint) ∉ name ∧ (']' : CodePoint) ∉ name
  | .item i => (Text.ofNat i).length ≤ Numeral.maxDigits

instance (s : TreeStep) : Decidable (Typable s) :=
  match s with
  | .key name =>
    inferInstanceAs (Decidable (name ≠ [] ∧ ('.' : CodePoint) ∉ name ∧
      ('[' : CodePoint) ∉ name ∧ (']' : CodePoint) ∉ name))
  | .item i => inferInstanceAs (Decidable ((Text.ofNat i).length ≤ Numeral.maxDigits))

/-- Steps as they are typed behind others. -/
def writtenSteps : List TreeStep → Text
  | [] => []
  | .key name :: p => '.' :: (name ++ writtenSteps p)
  | .item i :: p => '[' :: (Text.ofNat i ++ (']' : CodePoint) :: writtenSteps p)

/-- A path as it is typed: its first name, and the steps behind it. -/
def writtenPath (first : Text) (p : List TreeStep) : Text := first ++ writtenSteps p

/-- The step that is read from a typed one. -/
def Step.ofTreeStep : TreeStep → Step
  | .key t => .name t
  | .item i => .index (Text.ofNat i)

/-- What is typed behind a name starts with a code point that divides. -/
theorem head?_writtenSteps
    (p : List TreeStep) :
    ∀ c ∈ (writtenSteps p).head?, isNamePoint c = false := by
  intro c hc
  match p with
  | [] => cases hc
  | .key name :: p =>
      cases hc
      rfl
  | .item i :: p =>
      cases hc
      rfl

theorem isNamePoint_of_typable
    {name : Text} (h : Typable (.key name)) :
    ∀ c ∈ name, isNamePoint c = true := by
  obtain ⟨-, hpoint, hopen, hclose⟩ := h
  intro c hc
  simp only [isNamePoint, Bool.not_eq_true', Bool.or_eq_false_iff, beq_eq_false_iff_ne]
  exact ⟨⟨ne_of_mem_of_not_mem hc hpoint, ne_of_mem_of_not_mem hc hopen⟩,
    ne_of_mem_of_not_mem hc hclose⟩

/-- A name in front of other steps is the first step. -/
theorem stepsFrom_name
    {name : Text} (h : Typable (.key name)) (p : List TreeStep) (fuel : Nat) :
    stepsFrom (fuel + 1) (name ++ writtenSteps p) =
      .name name :: stepsFrom fuel (writtenSteps p) := by
  obtain ⟨hname, hrest⟩ := Text.span_append (isNamePoint_of_typable h) (head?_writtenSteps p)
  cases name with
  | nil => exact absurd rfl h.1
  | cons c name =>
      rw [List.cons_append] at hname hrest ⊢
      rw [stepsFrom, if_pos (isNamePoint_of_typable h c List.mem_cons_self), hname, hrest]

/-- Only an opening bracket starts a position. -/
theorem bracketed?_of_ne
    {c : CodePoint} (h : c ≠ '[') (rest : Text) :
    bracketed? (c :: rest) = none := by
  have hopen : (c == ('[' : CodePoint)) = false := beq_eq_false_iff_ne.mpr h
  rw [bracketed?]
  split
  · simp [hopen]
  · rfl

/-- A position in brackets is read as its digits. -/
theorem bracketed?_ofNat
    (i : Nat) (rest : Text) :
    bracketed? ('[' :: (Text.ofNat i ++ (']' : CodePoint) :: rest)) =
      some (Text.ofNat i, rest) := by
  obtain ⟨hne, hdecimals⟩ := Text.isDecimals_ofNat i
  have hclose : ∀ c ∈ ((']' : CodePoint) :: rest).head?, c.isDecimal = false := by
    intro c hc
    cases hc
    rfl
  obtain ⟨hdigits, hrest⟩ := Text.span_append hdecimals hclose
  have hempty : (Text.ofNat i).isEmpty = false := List.isEmpty_eq_false_iff.mpr hne
  rw [bracketed?, hdigits, hrest]
  simp [hempty]

/-- Typed steps are read as they were typed. -/
theorem stepsFrom_writtenSteps
    {p : List TreeStep} (h : ∀ s ∈ p, Typable s) {fuel : Nat}
    (hfuel : (writtenSteps p).length ≤ fuel) :
    stepsFrom fuel (writtenSteps p) = p.map Step.ofTreeStep := by
  induction p generalizing fuel with
  | nil => cases fuel <;> rfl
  | cons s p ih =>
      have hrest := fun s hs => h s (List.mem_cons_of_mem _ hs)
      cases s with
      | key name =>
          -- one round for the point, one for the name
          have hname : Typable (.key name) := h _ List.mem_cons_self
          have hpos : 0 < name.length := List.length_pos_of_ne_nil hname.1
          simp only [writtenSteps, List.length_cons, List.length_append] at hfuel ⊢
          obtain ⟨fuel, rfl⟩ : ∃ n, fuel = n + 2 := ⟨fuel - 2, by omega⟩
          rw [stepsFrom, if_neg (by decide), bracketed?_of_ne (by decide)]
          dsimp only
          rw [stepsFrom_name hname, ih hrest (by omega), List.map_cons, Step.ofTreeStep]
      | item i =>
          simp only [writtenSteps, List.length_cons, List.length_append] at hfuel ⊢
          obtain ⟨fuel, rfl⟩ : ∃ n, fuel = n + 1 := ⟨fuel - 1, by omega⟩
          rw [stepsFrom, if_neg (by decide), bracketed?_ofNat]
          dsimp only
          rw [ih hrest (by omega), List.map_cons, Step.ofTreeStep]

/-- A typed path is read as it was typed. -/
theorem steps_writtenPath
    {first : Text} {p : List TreeStep} (h : ∀ s ∈ .key first :: p, Typable s) :
    steps (writtenPath first p) = (TreeStep.key first :: p).map Step.ofTreeStep := by
  have hfirst : Typable (.key first) := h _ List.mem_cons_self
  have hpos : 0 < first.length := List.length_pos_of_ne_nil hfirst.1
  have hlength : (writtenPath first p).length = first.length + (writtenSteps p).length :=
    List.length_append
  obtain ⟨fuel, hfuel⟩ : ∃ n, (writtenPath first p).length = n + 1 :=
    ⟨(writtenPath first p).length - 1, by omega⟩
  rw [steps, hfuel, writtenPath, stepsFrom_name hfirst,
    stepsFrom_writtenSteps (fun s hs => h s (List.mem_cons_of_mem _ hs)) (by omega),
    List.map_cons, Step.ofTreeStep]

/-! ## Following a path -/

/-- The steps that are read from a typed path lead where the path leads. -/
theorem followSteps_ofTreeStep
    {p : List TreeStep} (h : ∀ s ∈ p, Typable s) (v : Value) :
    followSteps v (p.map Step.ofTreeStep) = .ok ((v.along? p).getD .null) := by
  induction p generalizing v with
  | nil => rfl
  | cons s p ih =>
      have hrest := fun s hs => h s (List.mem_cons_of_mem _ hs)
      cases s with
      | key name =>
          rw [List.map_cons, Step.ofTreeStep, followSteps, Value.along?, Value.child?_key]
          cases v.get? name with
          | none => rfl
          | some w => exact ih hrest w
      | item i =>
          rw [List.map_cons, Step.ofTreeStep, followSteps, Value.along?, Value.child?_item]
          cases v.items? with
          | none => rfl
          | some items =>
              have hi : (Text.ofNat i).length ≤ Numeral.maxDigits := h (.item i) List.mem_cons_self
              dsimp only
              rw [Numeral.integer_ofNat hi, Option.bind_some]
              dsimp only
              rw [Int.toNat_natCast]
              cases items[i]? with
              | none => rfl
              | some w => exact ih hrest w

/-! ## What is offered -/

/-- Behind its last point, a typed text is the beginning of a name. -/
theorem parentOf_append_point
    (t : Text) {begun : Text} (h : ('.' : CodePoint) ∉ begun) :
    parentOf (t ++ ('.' : CodePoint) :: begun) = (t, true) := by
  have hbegun : Text.splitOn '.' begun = [begun] :=
    Text.splitOn_of_notMem h
  have hpieces : Text.splitOn '.' (t ++ ('.' : CodePoint) :: begun) =
      Text.splitOn '.' t ++ [begun] := by
    rw [Text.splitOn_append_cons, hbegun]
  have hpos : 0 < (Text.splitOn '.' t).length := by
    rw [Text.splitOn_eq_splitOn, List.splitOn_eq_splitOnP]
    exact List.length_pos_of_ne_nil (List.splitOnP_ne_nil _ t)
  have hcount : 1 < (Text.splitOn '.' t ++ [begun]).length := by
    rw [List.length_append, List.length_singleton]
    omega
  rw [parentOf, hpieces, List.dropLast_concat, decide_eq_true hcount]
  exact congrArg (·, true) (Text.joinWith_splitOn '.' t)

/-- Without a point there is no path. -/
theorem parentOf_of_noPoint
    {begun : Text} (h : ('.' : CodePoint) ∉ begun) :
    parentOf begun = ([], false) := by
  rw [parentOf, Text.splitOn_of_notMem h]
  rfl

theorem replaceFirst_dollar
    (t : Text) :
    Text.replaceFirst "$" "" ('$' :: t) = t := by
  rfl

/-- Trees of objects count as present, even the empty one. -/
theorem allVariables_obj
    (outer own : Fields) (reserved : Value) :
    allVariables ⟨.obj own, .obj outer⟩ reserved =
      KeyTree.merge (KeyTree.merge (.obj outer) (.obj own)) reserved := by
  have hpresent : ∀ fields : Fields, orEmpty (.obj fields) = .obj fields := by
    intro fields
    cases fields <;> rfl
  rw [allVariables, hpresent, hpresent]

/-- The names that are offered at a value: a dollar sign stands in front of those at the top. -/
theorem candidates_eq
    {typed parent : Text} {hasParent : Bool} {scope : VariableScope} {reserved found : Value}
    (hparent : parentOf (Text.replaceFirst "$" "" typed) = (parent, hasParent))
    (hfound : (if parent.isEmpty then pure (allVariables scope reserved)
      else followSteps (allVariables scope reserved) (steps parent)) = .ok found) :
    candidates typed scope reserved = .ok ⟨parent, found.names.map fun name =>
      (if hasParent then ([] : Text) else ['$']) ++ Text.replaceFirst ".$" "" name⟩ := by
  have hnames : (found.fields?.getD []).names = found.names := by
    cases found <;> rfl
  unfold candidates
  rw [hparent]
  dsimp only
  split
  · next hempty =>
      rw [if_pos hempty] at hfound
      cases hfound
      rw [← hnames]
      rfl
  · next hempty =>
      rw [if_neg hempty] at hfound
      rw [hfound, ← hnames]
      rfl

/-- What is offered behind a path that was typed as steps are written: the names of the object to
which the steps lead in the merged tree, in order and without the first mark of a dynamic value, and
nothing where they lead nowhere or not to an object.  At the top the names of the merged tree are
offered behind a dollar sign.  In both places all names of the reserved tree are among them. -/
theorem written_path_candidates
    (outer own : Fields) (reserved : Value) (first : Text) (p : List TreeStep) (begun : Text)
    (hpath : ∀ s ∈ .key first :: p, Typable s) (hbegun : ('.' : CodePoint) ∉ begun) :
    let merged := KeyTree.merge (KeyTree.merge (.obj outer) (.obj own)) reserved
    candidates ('$' :: (writtenPath first p ++ ('.' : CodePoint) :: begun))
        ⟨.obj own, .obj outer⟩ reserved =
      .ok ⟨writtenPath first p,
        (merged.namesAt (.key first :: p)).map (Text.replaceFirst ".$" "")⟩ ∧
    candidates ('$' :: begun) ⟨.obj own, .obj outer⟩ reserved =
      .ok ⟨[], (merged.namesAt []).map fun name => '$' :: Text.replaceFirst ".$" "" name⟩ ∧
    reserved.namesAt (.key first :: p) ⊆ merged.namesAt (.key first :: p) ∧
    reserved.namesAt [] ⊆ merged.namesAt [] := by
  intro merged
  have hall := allVariables_obj outer own reserved
  refine ⟨?_, ?_, KeyTree.namesAt_subset_merge _ _ _, KeyTree.namesAt_subset_merge _ _ _⟩
  · have hfirst : Typable (.key first) := hpath _ List.mem_cons_self
    have hempty : (writtenPath first p).isEmpty = false := by
      rw [List.isEmpty_eq_false_iff, writtenPath]
      exact List.append_ne_nil_of_left_ne_nil hfirst.1 _
    have hnames : ((merged.along? (.key first :: p)).getD .null).names =
        merged.namesAt (.key first :: p) := by
      rw [Value.namesAt]
      cases merged.along? (.key first :: p) <;> rfl
    have hparent : parentOf (Text.replaceFirst "$" ""
        ('$' :: (writtenPath first p ++ ('.' : CodePoint) :: begun))) =
          (writtenPath first p, true) := by
      rw [replaceFirst_dollar, parentOf_append_point _ hbegun]
    have hfollow : followSteps merged (steps (writtenPath first p)) =
        .ok ((merged.along? (.key first :: p)).getD .null) := by
      rw [steps_writtenPath hpath, followSteps_ofTreeStep hpath]
    rw [candidates_eq hparent (by rw [hempty, if_neg Bool.false_ne_true, hall, hfollow]), hnames]
    rfl
  · have hparent : parentOf (Text.replaceFirst "$" "" ('$' :: begun)) = ([], false) := by
      rw [replaceFirst_dollar, parentOf_of_noPoint hbegun]
    exact candidates_eq hparent (congrArg Except.ok hall)

/-- The variables of an enclosing scope. -/
def outerVariables : Fields :=
  [("states", .arr [.null]), ("x", .obj [("a", .arr [.null, .obj [("b.$", .null)]])])]

/-- The variables of a scope inside of it. -/
def ownVariables : Fields :=
  [("x", .obj [("a", .arr [.null, .obj [("c", .null)], .null]), ("d", .null)])]

/-- Variables of two scopes are offered together, and a variable that is called like the reserved
tree does not hide it. -/
theorem written_path_candidates_sharedVariables :
    (∀ s ∈ [TreeStep.key "x", .key "a", .item 1], Typable s) ∧
      (∀ s ∈ [TreeStep.key "states", .key "context", .key "Task"], Typable s) ∧
      (candidates "$x.a[1].b" ⟨.obj ownVariables, .obj outerVariables⟩ (reserved plainUse)).map
        (fun found => (found.parentPath, found.items)) = .ok ("x.a[1]", ["b", "c"]) ∧
      (candidates "$states.context.Task.To" ⟨.obj ownVariables, .obj outerVariables⟩
        (reserved plainUse)).map (fun found => (found.parentPath, found.items)) =
          .ok ("states.context.Task", ["Token"]) := by
  have hfirst : ∀ s ∈ [TreeStep.key "x", .key "a", .item 1], Typable s := by decide +kernel
  have hsecond : ∀ s ∈ [TreeStep.key "states", .key "context", .key "Task"], Typable s := by
    decide +kernel
  refine ⟨hfirst, hsecond, ?_, ?_⟩
  · have hoffered := (written_path_candidates outerVariables ownVariables (reserved plainUse) "x"
      [.key "a", .item 1] "b" hfirst (by decide +kernel)).1
    refine (congrArg (Except.map _) hoffered).trans ?_
    decide +kernel
  · have hoffered := (written_path_candidates outerVariables ownVariables (reserved plainUse)
      "states" [.key "context", .key "Task"] "To" hsecond (by decide +kernel)).1
    refine (congrArg (Except.map _) hoffered).trans ?_
    decide +kernel

end Completion

end Workflow
