import Mathlib.Logic.Relation
import Workflow.Completion.Variables
import Workflow.Proofs.DeclarationNodes

/-!
# The fields around a place

What can be typed at a place depends on two things that are found by climbing from the place: the
nearest declaration of a state, and the nearest field that accepts variables.  Both searches are one
climb to the nearest node of a kind.  A climb from inside a state either ends inside of it or goes
on as a climb from the state itself.  From there the only keys on the way that are not fixed are
the names of the owners, so a field is found outside of the state exactly where the state or one of
its owners is called like a field.
-/

namespace Workflow

namespace Focus

/-- The second node stands directly inside the first one. -/
def Holds (outer inner : Focus) : Prop := inner ∈ outer.children

/-- The place stands strictly inside the node. -/
def Inside (place outer : Focus) : Prop := Relation.TransGen Holds outer place

/-- The node is one of those from a place up to, but without, an outer node. -/
def Between (outer place node : Focus) : Prop :=
  node.Inside outer ∧ Relation.ReflTransGen Holds node place

/-- One of the nodes between a place and an outer node is a property of a given name. -/
def NamedBetween (outer place : Focus) (name : Text) : Prop :=
  ∃ node, Between outer place node ∧ node.part.isNamed name = true

/-- The nearest node of a kind around a place, the place itself included. -/
def climb (kind : Focus → Bool) : Part → List (Part × Nat) → Option Focus
  | part, [] => if kind ⟨part, []⟩ then some ⟨part, []⟩ else none
  | part, (outer, i) :: above =>
    if kind ⟨part, (outer, i) :: above⟩ then some ⟨part, (outer, i) :: above⟩
    else climb kind outer above

/-- The property with one of some names is found by a climb. -/
theorem closest?_eq_climb
    (f : Focus) (names : List Text) :
    f.closest? names =
      climb (fun g => g.part.propertyName?.any names.contains) f.part f.above := by
  obtain ⟨part, above⟩ := f
  rw [closest?]
  induction above generalizing part with
  | nil => rw [closestFrom, climb]
  | cons outer above ih => rw [closestFrom, climb, ih]

/-- The declaration of a state is found by a climb. -/
theorem declarationFrom_eq_climb
    (part : Part) (above : List (Part × Nat)) :
    declarationFrom part above = climb declaresState part above := by
  induction above generalizing part with
  | nil => rw [declarationFrom, climb]
  | cons outer above ih => rw [declarationFrom, climb, ih]

section Inside

variable {f g place : Focus}

/-- Directly inside a node stand the parts of its part. -/
theorem map_part_children
    (f : Focus) :
    f.children.map part = f.part.children := by
  rw [children, List.map_map]
  exact List.zipIdx_map_fst 0 f.part.children

theorem Holds.part_mem
    (h : Holds f g) :
    g.part ∈ f.part.children := by
  rw [← map_part_children]
  exact List.mem_map_of_mem h

/-- What stands directly inside a node has it as its parent. -/
theorem Holds.above_eq
    (h : Holds f g) :
    ∃ i, g.above = (f.part, i) :: f.above := by
  obtain ⟨x, -, rfl⟩ := List.mem_map.mp h
  exact ⟨x.2, rfl⟩

theorem Holds.unique
    {e : Focus} (h : Holds f g) (h' : Holds e g) :
    f = e := by
  obtain ⟨i, hi⟩ := h.above_eq
  obtain ⟨j, hj⟩ := h'.above_eq
  rw [hi, List.cons.injEq, Prod.mk.injEq] at hj
  cases f
  cases e
  simp_all

/-- Around a node stand the node itself and what stands around the one that holds it. -/
theorem Holds.around_iff
    {node : Focus} (h : Holds f g) :
    Relation.ReflTransGen Holds node g ↔ node = g ∨ Relation.ReflTransGen Holds node f := by
  constructor
  · intro haround
    rcases Relation.ReflTransGen.cases_tail haround with rfl | ⟨e, haround, he⟩
    · exact Or.inl rfl
    · cases h.unique he
      exact Or.inr haround
  · rintro (rfl | haround)
    · exact Relation.ReflTransGen.refl
    · exact haround.tail h

/-- A node stands inside what holds it and inside everything that this one stands inside of. -/
theorem Holds.inside_iff
    {node : Focus} (h : Holds f g) :
    g.Inside node ↔ node = f ∨ f.Inside node := by
  have haround : g.Inside node ↔ Relation.ReflTransGen Holds node f := by
    rw [Inside, Relation.TransGen.tail'_iff]
    constructor
    · rintro ⟨e, haround, he⟩
      cases h.unique he
      exact haround
    · exact fun haround => ⟨f, haround, h⟩
  rw [haround, Relation.reflTransGen_iff_eq_or_transGen, eq_comm]
  rfl

theorem Inside.length_above
    (h : place.Inside f) :
    f.above.length < place.above.length := by
  induction h with
  | single h =>
      obtain ⟨i, hi⟩ := h.above_eq
      simp [hi]
  | tail _ h ih =>
      obtain ⟨i, hi⟩ := h.above_eq
      rw [hi, List.length_cons]
      omega

/-- Nothing stands both inside and around a node. -/
theorem Inside.not_around
    (h : place.Inside f) :
    ¬ Relation.ReflTransGen Holds place f := by
  intro haround
  have hself : f.Inside f := Relation.TransGen.trans_left h haround
  exact Nat.lt_irrefl _ hself.length_above

/-- Directly inside a node there is nothing between the place and the node. -/
theorem between_of_holds
    {node : Focus} (h : Holds f place) :
    Between f place node ↔ node = place := by
  constructor
  · rintro ⟨hinside, hbelow⟩
    rcases h.around_iff.mp hbelow with heq | hbelow
    · exact heq
    · -- a node on the way would have to stand both inside and around `f`
      exact absurd hbelow hinside.not_around
  · rintro rfl
    exact ⟨Relation.TransGen.single h, Relation.ReflTransGen.refl⟩

/-- One level further inside, the place itself is added to the nodes between. -/
theorem between_of_holds_tail
    {node : Focus} (hg : g.Inside f) (h : Holds g place) :
    Between f place node ↔ node = place ∨ Between f g node := by
  constructor
  · rintro ⟨hinside, hbelow⟩
    exact (h.around_iff.mp hbelow).imp_right fun hbelow => ⟨hinside, hbelow⟩
  · rintro (rfl | ⟨hinside, hbelow⟩)
    · exact ⟨Relation.TransGen.tail hg h, Relation.ReflTransGen.refl⟩
    · exact ⟨hinside, Relation.ReflTransGen.tail hbelow h⟩

variable (kind : Focus → Bool)

/-- A climb stops at the place or goes on from what holds it. -/
theorem climb_of_holds
    (h : Holds f place) :
    climb kind place.part place.above =
      if kind place then some place else climb kind f.part f.above := by
  obtain ⟨i, hi⟩ := h.above_eq
  obtain ⟨part, above⟩ := place
  cases hi
  rw [climb]

/-- A climb from inside a node ends between the place and the node, or goes on from the node. -/
theorem climb_of_inside
    (h : place.Inside f) :
    (∃ node, Between f place node ∧ kind node = true ∧
        climb kind place.part place.above = some node) ∨
      (∀ node, Between f place node → kind node = false) ∧
        climb kind place.part place.above = climb kind f.part f.above := by
  induction h with
  | @single place h =>
      rw [climb_of_holds kind h]
      cases hkind : kind place with
      | true => exact Or.inl ⟨place, (between_of_holds h).mpr rfl, hkind, rfl⟩
      | false =>
          refine Or.inr ⟨fun node hnode => ?_, rfl⟩
          rw [(between_of_holds h).mp hnode, hkind]
  | @tail g place hg h ih =>
      rw [climb_of_holds kind h]
      cases hkind : kind place with
      | true => exact Or.inl ⟨place, (between_of_holds_tail hg h).mpr (Or.inl rfl), hkind, rfl⟩
      | false =>
          rcases ih with ⟨node, hnode, hfound, hclimb⟩ | ⟨hnone, hclimb⟩
          · exact Or.inl ⟨node, (between_of_holds_tail hg h).mpr (Or.inr hnode), hfound, hclimb⟩
          · refine Or.inr ⟨fun node hnode => ?_, hclimb⟩
            rcases (between_of_holds_tail hg h).mp hnode with rfl | hnode
            · exact hkind
            · exact hnone node hnode

end Inside

/-- The node of the value of a declaration. -/
theorem Declares.exists_of_value?
    {f d state : Focus} {id : Text} (hdeclares : Declares f id d) (h : d.value? = some state) :
    ∃ t, state = ⟨.tree t, (d.part, 1) :: d.above⟩ := by
  cases hdeclares with
  | intro hstates hmapping =>
      obtain ⟨t, -, rfl⟩ := Option.map_eq_some_iff.mp h
      exact ⟨t, rfl⟩

section State

variable {f d state place : Focus} {scope : Value} {path : Path} {id : Text}
variable (hshows : ShowsScope f scope path) (hdeclares : Declares f id d)
variable (hstate : d.value? = some state) (hplace : place.Inside state)

include hdeclares hstate hplace

/-- The declaration of the state around a place. -/
theorem stateInfo?_of_inside :
    ∃ info, place.stateInfo? = some info ∧
      (info.declaration = d ↔ ∀ node, Between state place node → node.declaresState = false) ∧
      (info.declaration = d → info.name = id ∧ info.path = d.statePath) := by
  obtain ⟨t, rfl⟩ := hdeclares.exists_of_value? hstate
  obtain ⟨info, hinfo, hname, hpath, hself⟩ := hdeclares.stateInfo?_eq
  have hd : climb declaresState (.tree t) ((d.part, 1) :: d.above) = some d := by
    rw [climb, if_neg (by simp [Focus.declaresState, Part.property?]), ← declarationFrom_eq_climb]
    obtain ⟨declaration, hfound, rfl⟩ := Option.map_eq_some_iff.mp hinfo
    rw [hfound, ← hself]
  rw [stateInfo?, declarationFrom_eq_climb]
  rcases climb_of_inside declaresState hplace with ⟨node, hnode, hkind, hclimb⟩ | ⟨hnone, hclimb⟩
  · -- a declaration inside of the state is nearer than the one of the state
    have hne : node ≠ d := by
      rintro rfl
      have hlength := hnode.1.length_above
      rw [List.length_cons] at hlength
      omega
    rw [hclimb]
    refine ⟨_, rfl, ⟨fun heq => absurd heq hne, fun hnone => ?_⟩, fun heq => absurd heq hne⟩
    rw [hnone node hnode] at hkind
    cases hkind
  · rw [hclimb, hd]
    refine ⟨_, rfl, ⟨fun _ => hnone, fun _ => rfl⟩, fun _ => ⟨?_, rfl⟩⟩
    change d.part.propertyName?.getD [] = id
    rw [hdeclares.propertyName?_eq]
    rfl

include hshows

/-- The names that are met on the way outward from a place: those inside of the state, and those of
the state and its owners. -/
theorem isSome_closest?_of_inside
    {names : List Text} (hnames : ∀ key ∈ nestingKeys, key ∉ names) :
    (place.closest? names).isSome = true ↔
      ∃ name ∈ names, NamedBetween state place name ∨ .name name ∈ path ++ [.name id] := by
  obtain ⟨t, rfl⟩ := hdeclares.exists_of_value? hstate
  have houtside : (closest? ⟨.tree t, (d.part, 1) :: d.above⟩ names).isSome = true ↔
      ∃ name ∈ names, .name name ∈ path ++ [.name id] := by
    rw [closest?_tree, isSome_closest?_of_declares hdeclares hnames, hshows.named names hnames]
    constructor
    · rintro (hid | ⟨name, hname, hmem⟩)
      · exact ⟨id, hid, by simp⟩
      · exact ⟨name, hname, List.mem_append_left _ hmem⟩
    · rintro ⟨name, hname, hmem⟩
      rcases List.mem_append.mp hmem with hmem | hmem
      · exact Or.inr ⟨name, hname, hmem⟩
      · cases List.mem_singleton.mp hmem
        exact Or.inl hname
  have hnamed : ∀ node : Focus, node.part.propertyName?.any names.contains = true ↔
      ∃ name ∈ names, node.part.isNamed name = true := by
    intro node
    simp [Part.isNamed, Option.any_eq_true, and_comm]
  simp only [and_or_left, exists_or]
  rw [← houtside, closest?_eq_climb, closest?_eq_climb]
  rcases climb_of_inside (fun g => g.part.propertyName?.any names.contains) hplace with
    ⟨node, hnode, hkind, hclimb⟩ | ⟨hnone, hclimb⟩
  · obtain ⟨name, hname, hnamed⟩ := (hnamed node).mp hkind
    rw [hclimb]
    exact ⟨fun _ => Or.inl ⟨name, hname, node, hnode, hnamed⟩, fun _ => rfl⟩
  · rw [hclimb]
    refine ⟨Or.inr, ?_⟩
    rintro (⟨name, hname, node, hnode, hhere⟩ | houter)
    · have hkind := hnone node hnode
      rw [(hnamed node).mpr ⟨name, hname, hhere⟩] at hkind
      cases hkind
    · exact houter

end State

end Focus

namespace Completion

/-- Whether the reserved variables have an error output. -/
def offersErrorOutput (reserved : Value) : Bool :=
  ((reserved.get "states").get? "errorOutput").isSome

/-- Only the error handling of a state has an error output. -/
theorem offersErrorOutput_reserved
    (use : FieldUse) :
    offersErrorOutput (reserved use) = use.inCatch := by
  obtain ⟨inCatch, onSuccess, selectsItems, stateType⟩ := use
  unfold reserved
  cases inCatch with
  | true => cases selectsItems <;> rfl
  | false =>
      cases hresult : onSuccess && hasResult stateType <;> cases selectsItems <;>
        simp only [if_true, if_false, Bool.false_eq_true] <;> rfl

/-- Inside of a state there are no candidates exactly where no field is found. -/
theorem at?_eq_none_iff
    {f : Focus} {info : Focus.StateInfo} (hinfo : f.stateInfo? = some info)
    (workflow : Value) (entries : Predecessors) (typed : Option Value) :
    at? f workflow entries typed = .ok none ↔ (f.closest? variableFields).isSome = false := by
  rw [at?, hinfo]
  dsimp only
  cases hclosest : f.closest? variableFields with
  | none =>
      rw [useAt?, hclosest]
      exact ⟨fun _ => rfl, fun _ => rfl⟩
  | some field =>
      rw [useAt?, hclosest]
      refine ⟨fun hnone => ?_, fun hfalse => by cases hfalse⟩
      obtain ⟨scope, -, hnone⟩ := exists_of_bind_eq_ok hnone
      obtain ⟨found, -, hnone⟩ := exists_of_bind_eq_ok hnone
      cases hnone

end Completion

section Lookups

variable {t : Tree} (hkeys : t.DistinctKeys) {v : Visit} (hv : v ∈ allStates t.toValue)
variable {d state place : Focus} (hd : Focus.declarationAt? t v.path = some d)
variable (hstate : d.value? = some state) (hplace : place.Inside state)

include hkeys hv hd hstate hplace

/-- What is looked up at a place strictly inside of a visited state.  The place belongs to the state,
with its name and path, exactly where nothing between them passes for a declaration.  There are
candidates exactly where a field that accepts variables is met on the way to the root: a property
between the place and the state, or the state itself or an owner that is called like one.  Likewise
the reserved variables have an error output exactly where a `Catch` is met. -/
theorem field_lookups_exact :
    (∃ info, place.stateInfo? = some info ∧
      (info.declaration = d ↔
        ∀ node, Focus.Between state place node → node.declaresState = false) ∧
      (info.declaration = d → info.name = v.id ∧ info.path = v.path)) ∧
    (∀ workflow entries typed,
      Completion.at? place workflow entries typed = .ok none ↔
        ∀ name ∈ Completion.variableFields,
          ¬ Focus.NamedBetween state place name ∧ .name name ∉ v.path) ∧
    ∀ info use, place.stateInfo? = some info → Completion.useAt? place info = some use →
      (Completion.offersErrorOutput (Completion.reserved use) = true ↔
        Focus.NamedBetween state place "Catch" ∨ .name "Catch" ∈ v.path) := by
  obtain ⟨f, d', hd', hshows, hdeclares, -, -⟩ := Focus.exists_declarationAt hkeys hv
  cases hd.symm.trans hd'
  have hpath : v.path.dropLast ++ [.name v.id] = v.path := by
    obtain ⟨b, hdeclared⟩ := (mem_allStates_iff t.toValue_proper).mp hv
    rw [hdeclared.path, List.dropLast_concat]
  have hclosest : ∀ names : List Text, (∀ key ∈ Focus.nestingKeys, key ∉ names) →
      ((place.closest? names).isSome = true ↔
        ∃ name ∈ names, Focus.NamedBetween state place name ∨ .name name ∈ v.path) := by
    intro names hnames
    rw [Focus.isSome_closest?_of_inside hshows hdeclares hstate hplace hnames, hpath]
  obtain ⟨info, hinfo, hown, hself⟩ := Focus.stateInfo?_of_inside hdeclares hstate hplace
  refine ⟨⟨info, hinfo, hown, fun h => ?_⟩, fun workflow entries typed => ?_,
    fun other use hother huse => ?_⟩
  · rw [(hself h).1, (hself h).2, hshows.statePath_eq hdeclares, hpath]
    exact ⟨rfl, rfl⟩
  · rw [Completion.at?_eq_none_iff hinfo, Bool.eq_false_iff, ne_eq, hclosest _ (by decide)]
    simp only [not_exists, not_and, not_or]
  · obtain ⟨field, -, rfl⟩ := Option.map_eq_some_iff.mp huse
    rw [Completion.offersErrorOutput_reserved]
    have hcatch := hclosest Completion.errorFields (by decide)
    simpa [Completion.errorFields] using hcatch

end Lookups

/-- A text with a place inside a Catch rule. -/
def catchRuleText : Text :=
  "States:
 A:
  Catch:
  - x
"

/-- The document of that text. -/
def catchRuleDocument : Document :=
  match Document.treeOf .yaml catchRuleText with
  | .ok (some root) => ⟨catchRuleText, .yaml, root, 0⟩
  | _ => ⟨catchRuleText, .yaml, none, 0⟩

/-- What is looked up at a place of that rule. -/
theorem field_lookups_exact_catchRule :
    ∃ root, catchRuleDocument.root = some root ∧ root.DistinctKeys ∧
      ∃ v ∈ allStates root.toValue, ∃ d state place,
        Focus.declarationAt? root v.path = some d ∧ d.value? = some state ∧
          place.Inside state ∧ place.part.toValue = .str "x" ∧
          (∃ info, place.stateInfo? = some info ∧
            (info.declaration = d ↔
              ∀ node, Focus.Between state place node → node.declaresState = false) ∧
            (info.declaration = d → info.name = v.id ∧ info.path = v.path)) ∧
          (∀ workflow entries typed,
            Completion.at? place workflow entries typed = .ok none ↔
              ∀ name ∈ Completion.variableFields,
                ¬ Focus.NamedBetween state place name ∧ .name name ∉ v.path) ∧
          ∀ info use, place.stateInfo? = some info →
            Completion.useAt? place info = some use →
              (Completion.offersErrorOutput (Completion.reserved use) = true ↔
                Focus.NamedBetween state place "Catch" ∨ .name "Catch" ∈ v.path) := by
  have hfacts : (catchRuleDocument.root.any fun root => decide root.DistinctKeys &&
      (allStates root.toValue).any fun v =>
        (Focus.declarationAt? root v.path).any fun d => d.value?.any fun state =>
          state.children.any fun field => field.children.any fun rules =>
            rules.children.any fun place => decide (place.part.toValue = .str "x")) = true := by
    decide +kernel
  simp only [Option.any_eq_true, List.any_eq_true, Bool.and_eq_true, decide_eq_true_eq] at hfacts
  obtain ⟨root, hroot, hkeys, v, hv, d, hd, state, hstate, field, hfield, rules, hrules, place,
    hplace, hvalue⟩ := hfacts
  have hinside : place.Inside state :=
    ((Relation.TransGen.single hfield).tail hrules).tail hplace
  exact ⟨root, hroot, hkeys, v, hv, d, state, place, hd, hstate, hinside, hvalue,
    field_lookups_exact hkeys hv hd hstate hinside⟩

/-- A text with a state that is called like a field. -/
def catchNamedText : Text :=
  "States:
 Catch:
  Comment: x
"

/-- The document of that text. -/
def catchNamedDocument : Document :=
  match Document.treeOf .yaml catchNamedText with
  | .ok (some root) => ⟨catchNamedText, .yaml, root, 0⟩
  | _ => ⟨catchNamedText, .yaml, none, 0⟩

/-- Inside of a state that is called like a field there are candidates at a property that stands in
no field, and even an error output is offered there. -/
theorem field_lookups_mislead :
    ∃ root, catchNamedDocument.root = some root ∧ root.DistinctKeys ∧
      ∃ v ∈ allStates root.toValue, ∃ d state place info use,
        Focus.declarationAt? root v.path = some d ∧ d.value? = some state ∧
          place.Inside state ∧
          (∀ node, Focus.Between state place node → node.declaresState = false) ∧
          (∀ name ∈ Completion.variableFields, ¬ Focus.NamedBetween state place name) ∧
          Completion.at? place root.toValue (Predecessors.ofWorkflow root.toValue) none ≠
            .ok none ∧
          place.stateInfo? = some info ∧ Completion.useAt? place info = some use ∧
          Completion.offersErrorOutput (Completion.reserved use) = true := by
  have hfacts : (catchNamedDocument.root.any fun root => decide root.DistinctKeys &&
      (allStates root.toValue).any fun v =>
        (Focus.declarationAt? root v.path).any fun d => d.value?.any fun state =>
          state.children.any fun place =>
            !place.declaresState &&
              (Completion.variableFields.all fun name => !place.part.isNamed name) &&
              ((Completion.at? place root.toValue (Predecessors.ofWorkflow root.toValue)
                none).toOption.any Option.isSome) &&
              place.stateInfo?.any fun info => (Completion.useAt? place info).any fun use =>
                Completion.offersErrorOutput (Completion.reserved use)) = true := by
    decide +kernel
  simp only [Option.any_eq_true, List.any_eq_true, Bool.and_eq_true, decide_eq_true_eq,
    List.all_eq_true, Bool.not_eq_true'] at hfacts
  obtain ⟨root, hroot, hkeys, v, hv, d, hd, state, hstate, place, hplace,
    ⟨⟨hdeclares, hnames⟩, found, hfound, hsome⟩, info, hinfo, use, huse, herror⟩ := hfacts
  refine ⟨root, hroot, hkeys, v, hv, d, state, place, info, use, hd, hstate,
    Relation.TransGen.single hplace, ?_, ?_, ?_, hinfo, huse, herror⟩
  · intro node hnode
    rw [(Focus.between_of_holds hplace).mp hnode, hdeclares]
  · rintro name hname ⟨node, hnode, hnamed⟩
    rw [(Focus.between_of_holds hplace).mp hnode, hnames name hname] at hnamed
    cases hnamed
  · intro hnone
    rw [hnone] at hfound
    cases hfound
    cases hsome

end Workflow
