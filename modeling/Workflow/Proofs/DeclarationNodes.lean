import Workflow.Document.Focus
import Workflow.Document.Load
import Workflow.Proofs.ScopeAgreement

/-!
# The nodes that declare the states of a document

A visit goes down through the value of a document and gives each state the path of its owners.  The
path of a declaration is found the other way, from its node outward, by the keys around it.  Both
are followed here along the same owners: downward by `owned?`, and outward by what is known of the
node of each scope on the way, its path and the names around it.
-/

namespace Workflow

/-- Only from an object do owners lead to an object. -/
theorem OwnerPath.isObject_of_isObject
    {scope inner : Value} {b : Path} (h : OwnerPath scope b inner)
    (hinner : inner.isObject = true) :
    scope.isObject = true := by
  cases h with
  | here scope => exact hinner
  | map howner hkind hrest =>
      obtain ⟨states, hstates, -⟩ := Option.bind_eq_some_iff.mp howner
      exact State.isObject_of_declared? hstates
  | branch howner hkind hscopes hindex hbranch hrest =>
      obtain ⟨states, hstates, -⟩ := Option.bind_eq_some_iff.mp howner
      exact State.isObject_of_declared? hstates

/-- A path leads to one visited state only. -/
theorem Visit.Declared.eq_of_path
    {root : Value} (hroot : root.Proper) {b c : Path} {v w : Visit}
    (hv : v.Declared root b) (hw : w.Declared root c) (h : v.path = w.path) :
    v = w := by
  obtain ⟨states, hstates, hmem⟩ := hv.state
  obtain ⟨others, hothers, hother⟩ := hw.state
  rw [hv.path, hw.path] at h
  obtain ⟨rfl, hid⟩ := List.append_inj' h rfl
  obtain ⟨hid, -⟩ := List.cons.inj hid
  have hparent : v.parent = w.parent := hv.scope.unique hw.scope
  rw [← hparent, hstates] at hothers
  cases hothers
  have hnames := (State.declared?_proper (hv.scope.proper hroot) hstates).1
  have hstate : some v.state = some w.state := by
    rw [← Fields.get?_of_mem hnames hmem, ← Fields.get?_of_mem hnames hother,
      Segment.name.inj hid]
  have hpath : v.path = w.path := by rw [hv.path, hw.path, hid]
  cases v
  cases w
  simp_all

namespace Focus

/-! ## Going down -/

/-- The node that declares a state, seen from the object of the scope. -/
def declaration? (scope : Focus) (id : Text) : Option Focus :=
  ((scope.property? statesKey).bind value?).bind fun states => states.property? id

/-- The node of the scope in the processor field of a Map state. -/
def processorNode? (state : Focus) : Option Focus :=
  (state.property? (State.processorField state.part.toValue)).bind value?

/-- The node of a branch of a Parallel state. -/
def branchNode? (state : Focus) (i : Nat) : Option Focus :=
  ((state.property? "Branches").bind value?).bind fun branches => branches.item? i

/-- The node of the scope that a list of owners leads to. -/
def owned? : Focus → Path → Option Focus
  | scope, [] => some scope
  | scope, .name id :: rest =>
    match (scope.declaration? id).bind value? with
    | none => none
    | some state =>
      match State.kind? state.part.toValue, rest with
      | some .map, rest =>
        match state.processorNode? with
        | some inner => owned? inner rest
        | none => none
      | some .parallel, .index i :: rest =>
        if i < 0 then none
        else
          match state.branchNode? i.toNat with
          | some inner => owned? inner rest
          | none => none
      | _, _ => none
  | _, _ :: _ => none

/-- The node that declares the state at a path, reached from the root of a document. -/
def declarationAt? (t : Tree) (path : Path) : Option Focus :=
  match path.getLast? with
  | some (.name id) => ((root t).owned? path.dropLast).bind (declaration? · id)
  | _ => none

section Children

variable {f : Focus} {t : Tree}

/-- The nodes of the properties of an object. -/
theorem children_of_properties
    (hpart : f.part = .tree t) {properties : List (Property Tree)}
    (hproperties : t.properties? = some properties) :
    f.children = properties.zipIdx.map fun x => ⟨.property x.1, (.tree t, x.2) :: f.above⟩ := by
  cases t with
  | object span others =>
      cases hproperties
      rw [children, hpart, Part.children, List.zipIdx_map, List.map_map]
      rfl
  | _ => cases hproperties

/-- The nodes of the items of an array. -/
theorem children_of_items
    (hpart : f.part = .tree t) {items : List Tree} (hitems : t.items? = some items) :
    f.children = items.zipIdx.map fun x => ⟨.tree x.1, (.tree t, x.2) :: f.above⟩ := by
  cases t with
  | array span others =>
      cases hitems
      rw [children, hpart, Part.children, List.zipIdx_map, List.map_map]
      rfl
  | _ => cases hitems

/-- Only objects have properties. -/
theorem property?_of_not_object
    (hpart : f.part = .tree t) (hobject : t.properties? = none) (name : Text) :
    f.property? name = none := by
  rw [property?, List.find?_eq_none]
  intro g hg
  cases hitems : t.items? with
  | some items =>
      rw [children_of_items hpart hitems] at hg
      obtain ⟨x, -, rfl⟩ := List.mem_map.mp hg
      exact Bool.false_ne_true
  | none =>
      rw [children, hpart] at hg
      cases t with
      | array span items => cases hitems
      | object span properties => cases hobject
      | _ => cases hg

/-- The first property with a name, with its position. -/
theorem property?_of_tree
    (hpart : f.part = .tree t) (name : Text) :
    ∃ i, f.property? name =
      (t.property? name).map fun p => ⟨.property p, (.tree t, i) :: f.above⟩ := by
  cases hproperties : t.properties? with
  | none =>
      rw [property?_of_not_object hpart hproperties, Tree.property?, hproperties]
      exact ⟨0, rfl⟩
  | some properties =>
      have hfind : properties.find? (fun p => p.key.name == name) =
          (properties.zipIdx.find? fun x => x.1.key.name == name).map Prod.fst := by
        conv_lhs => rw [← List.zipIdx_map_fst 0 properties, List.find?_map]
        rfl
      have hfound : f.property? name =
          (properties.zipIdx.find? fun x => x.1.key.name == name).map fun x =>
            ⟨.property x.1, (.tree t, x.2) :: f.above⟩ := by
        rw [property?, children_of_properties hpart hproperties, List.find?_map]
        rfl
      rw [hfound, Tree.property?, hproperties, Option.bind_some, hfind]
      cases properties.zipIdx.find? fun x => x.1.key.name == name with
      | none => exact ⟨0, rfl⟩
      | some x => exact ⟨x.2, rfl⟩

/-- A property of an object, together with the node of its value. -/
theorem value?_property?_of_tree
    (hpart : f.part = .tree t) (name : Text) :
    ∃ i, (f.property? name).bind value? =
      (t.property? name).bind fun p => p.value.map fun u =>
        ⟨.tree u, (.property p, 1) :: (.tree t, i) :: f.above⟩ := by
  obtain ⟨i, hi⟩ := property?_of_tree hpart name
  refine ⟨i, ?_⟩
  rw [hi, Option.bind_map]
  rfl

theorem item?_of_tree
    (hpart : f.part = .tree t) (i : Nat) :
    f.item? i = (t.items?.bind fun items => items[i]?).map fun u =>
      ⟨.tree u, (.tree t, i) :: f.above⟩ := by
  have harray : f.part.isArray = t.items?.isSome := by rw [hpart]; rfl
  rw [item?, harray]
  cases hitems : t.items? with
  | none => rfl
  | some items =>
      have hzip : items.zipIdx[i]? = items[i]?.map fun u => (u, i) := by
        rw [List.getElem?_zipIdx, Nat.zero_add]
      rw [Option.isSome_some, if_pos rfl, children_of_items hpart hitems, List.getElem?_map, hzip,
        Option.map_map]
      rfl

end Children

/-! ## Going outward -/

/-- Below a scope, the property that declares a state stands in the object of its `States`. -/
inductive Declares : Focus → Text → Focus → Prop
  | intro
      {t u : Tree} {states declaration : Property Tree} {i j : Nat} {above : List (Part × Nat)}
      (hstates : states.key.name = statesKey) (hmapping : u.isObject = true) :
      Declares ⟨.tree t, above⟩ declaration.key.name
        ⟨.property declaration, (.tree u, i) :: (.property states, 1) :: (.tree t, j) :: above⟩

/-- Below a declaration, a nested scope stands in a processor field or among the branches.  The path
is what its place adds to the path of the state. -/
inductive Owns : Focus → Path → Focus → Prop
  | processor
      {state scope : Tree} {field : Property Tree} {declaration : Focus} {i : Nat}
      (hfield : field.key.name ∈ processorKeys) :
      Owns declaration [] ⟨.tree scope, (.property field, 1) :: (.tree state, i) ::
        (declaration.part, 1) :: declaration.above⟩
  | branch
      {state branches scope : Tree} {field : Property Tree} {declaration : Focus} {i n : Nat}
      (hfield : field.key.name = "Branches") (hbranches : branches.items?.isSome = true) :
      Owns declaration [.index n] ⟨.tree scope, (.tree branches, n) :: (.property field, 1) ::
        (.tree state, i) :: (declaration.part, 1) :: declaration.above⟩

section Declares

variable {scope d : Focus} {id : Text}

theorem Declares.declaresState
    (h : Declares scope id d) :
    d.declaresState = true := by
  cases h with
  | intro hstates hmapping =>
      simp [Focus.declaresState, Part.property?, parent?, Part.isObject, Part.tree?, hmapping,
        holdsStates, Part.isNamed, Part.propertyName?, hstates]

theorem Declares.propertyName?_eq
    (h : Declares scope id d) :
    d.part.propertyName? = some id := by
  cases h with
  | intro hstates hmapping => rfl

/-- The object of the scope is three levels further out. -/
theorem Declares.up?_three
    (h : Declares scope id d) :
    d.up? 3 = some scope := by
  cases h with
  | intro hstates hmapping => rfl

theorem Declares.length_above
    (h : Declares scope id d) :
    scope.above.length < d.above.length := by
  cases h with
  | intro hstates hmapping =>
      simp only [List.length_cons]
      omega

/-- The state that a declaration belongs to is its own. -/
theorem Declares.stateInfo?_eq
    (h : Declares scope id d) :
    ∃ info, d.stateInfo? = some info ∧ info.name = id ∧ info.path = d.statePath ∧
      info.declaration = d := by
  have hfrom : declarationFrom d.part d.above = some d := by
    have hhere := h.declaresState
    cases h with
    | intro hstates hmapping =>
        rw [declarationFrom]
        exact if_pos hhere
  rw [stateInfo?, hfrom]
  refine ⟨_, rfl, ?_, rfl, rfl⟩
  change d.part.propertyName?.getD [] = id
  rw [h.propertyName?_eq]
  rfl

end Declares

/-- The object of a nested scope leads outward to the declaration of its owner. -/
theorem Owns.ownerOf?_eq
    {d inner : Focus} {step : Path} (h : Owns d step inner) :
    ∃ owner, ownerOf? inner = some (step, some owner) ∧ owner.parent? = some d := by
  cases h with
  | @processor state scope field _ i hfield =>
      refine ⟨⟨.tree state, (d.part, 1) :: d.above⟩, ?_, rfl⟩
      rw [ownerOf?]
      exact if_pos (List.contains_iff_mem.mpr hfield)
  | @branch state branches scope field _ i n hfield hbranches =>
      refine ⟨⟨.tree state, (d.part, 1) :: d.above⟩, ?_, rfl⟩
      have hname : (Part.property field).isNamed "Branches" = true := by
        rw [Part.isNamed, ← hfield]
        exact beq_self_eq_true _
      rw [ownerOf?]
      dsimp only
      rw [if_neg (by simp [Part.propertyName?, Part.property?]), if_pos]
      · rfl
      · simp [Part.isArray, Part.tree?, hbranches, hname]

theorem Owns.length_above
    {d inner : Focus} {step : Path} (h : Owns d step inner) :
    d.above.length < inner.above.length := by
  cases h with
  | processor hfield =>
      simp only [List.length_cons]
      omega
  | branch hfield hbranches =>
      simp only [List.length_cons]
      omega

/-- The path of a scope, read outward from its object: the path of the owner's scope, the owner, and
the branch. -/
theorem outerPath_of_owns
    {scope d inner : Focus} {id : Text} {step : Path}
    (hdeclares : Declares scope id d) (howns : Owns d step inner) (fuel : Nat) :
    outerPath (fuel + 1) inner = outerPath fuel scope ++ [.name id] ++ step := by
  obtain ⟨owner, howner, hparent⟩ := howns.ownerOf?_eq
  rw [outerPath, howner]
  dsimp only
  rw [Option.bind_some, hparent]
  dsimp only
  rw [if_pos hdeclares.declaresState, hdeclares.up?_three, hdeclares.propertyName?_eq]
  rfl

section Closest

variable {names : List Text} {part : Part} {i : Nat} {above : List (Part × Nat)}

@[simp] theorem closest?_tree
    (t : Tree) :
    closest? ⟨.tree t, (part, i) :: above⟩ names = closest? ⟨part, above⟩ names := by
  rfl

@[simp] theorem closest?_root
    (t : Tree) :
    closest? (root t) names = none := by
  rfl

theorem closest?_property
    (p : Property Tree) :
    closest? ⟨.property p, (part, i) :: above⟩ names =
      if names.contains p.key.name then some ⟨.property p, (part, i) :: above⟩
      else closest? ⟨part, above⟩ names := by
  rfl

end Closest

/-- The keys that stand between the object of a scope and the declaration of its owner. -/
def nestingKeys : List Text := statesKey :: "Branches" :: processorKeys

/-- The names on the way outward from a declaration: the state, and what is around its scope. -/
theorem isSome_closest?_of_declares
    {scope d : Focus} {id : Text} (hdeclares : Declares scope id d)
    {names : List Text} (hnames : ∀ key ∈ nestingKeys, key ∉ names) :
    (d.closest? names).isSome = true ↔ id ∈ names ∨ (scope.closest? names).isSome = true := by
  cases hdeclares with
  | @intro t u states declaration _ _ _ hstates hmapping =>
      have houter : ¬names.contains states.key.name = true := by
        simpa using hnames _ (by simp [nestingKeys, hstates])
      rw [closest?_property, closest?_tree, closest?_property, if_neg houter]
      split <;> simp_all

/-- The names on the way outward from a nested scope are those around the declaration of the
owner. -/
theorem closest?_of_owns
    {d inner : Focus} {step : Path} (howns : Owns d step inner)
    {names : List Text} (hnames : ∀ key ∈ nestingKeys, key ∉ names) :
    inner.closest? names = d.closest? names := by
  cases howns with
  | processor hfield =>
      rw [closest?_tree, closest?_property, if_neg, closest?_tree]
      simpa using hnames _ (by simp [nestingKeys, hfield])
  | branch hfield hbranches =>
      rw [closest?_tree, closest?_tree, closest?_property, if_neg, closest?_tree]
      simpa using hnames _ (by simp [nestingKeys, hfield])

/-! ## Down and outward again -/

/-- The node of a tree without repeated keys that denotes a value. -/
def Denotes (f : Focus) (v : Value) : Prop :=
  ∃ t : Tree, f.part = .tree t ∧ t.DistinctKeys ∧ t.toValue = v

/-- The node of the scope at a path: what it denotes, the path that is read outward from it, and the
names that are met on that way. -/
structure ShowsScope (f : Focus) (scope : Value) (path : Path) : Prop where
  denotes : f.Denotes scope
  outer : ∀ fuel, f.above.length ≤ fuel → outerPath fuel f = path
  named : ∀ names : List Text, (∀ key ∈ nestingKeys, key ∉ names) →
    ((f.closest? names).isSome = true ↔ ∃ id ∈ names, .name id ∈ path)

/-- The root of a document shows the scope at the empty path. -/
theorem showsScope_root
    {t : Tree} (hkeys : t.DistinctKeys) :
    ShowsScope (root t) t.toValue [] where
  denotes := ⟨t, rfl, hkeys, rfl⟩
  outer fuel _ := by
    cases fuel with
    | zero => rfl
    | succ fuel => rfl
  named names _ := by simp

/-- A step into a nested scope keeps what is read outward in agreement with the path. -/
theorem ShowsScope.step
    {f d inner : Focus} {scope nested : Value} {path step : Path} {id : Text}
    (h : ShowsScope f scope path) (hdeclares : Declares f id d) (howns : Owns d step inner)
    (hstep : ∀ id, .name id ∉ step) (hinner : inner.Denotes nested) :
    ShowsScope inner nested (path ++ .name id :: step) where
  denotes := hinner
  outer fuel hfuel := by
    have hlength := Nat.lt_trans hdeclares.length_above howns.length_above
    obtain ⟨fuel, rfl⟩ := Nat.exists_eq_add_one_of_ne_zero (by omega : fuel ≠ 0)
    rw [outerPath_of_owns hdeclares howns, h.outer fuel (by omega)]
    simp
  named names hnames := by
    rw [closest?_of_owns howns hnames, isSome_closest?_of_declares hdeclares hnames,
      h.named names hnames]
    constructor
    · rintro (hid | ⟨other, hother, hmem⟩)
      · exact ⟨id, hid, by simp⟩
      · exact ⟨other, hother, List.mem_append_left _ hmem⟩
    · rintro ⟨other, hother, hmem⟩
      rcases List.mem_append.mp hmem with hmem | hmem
      · exact Or.inr ⟨other, hother, hmem⟩
      · rcases List.mem_cons.mp hmem with heq | hmem
        · cases heq
          exact Or.inl hother
        · exact absurd hmem (hstep other)

/-- A property without repeated keys in a node, with the node of its value. -/
theorem Denotes.value?_property?
    {f : Focus} {v : Value} (h : f.Denotes v) {name : Text} {w : Value}
    (hget : v.get? name = some w) (hw : w ≠ .null) :
    ∃ (t : Tree) (p : Property Tree) (u : Tree) (i : Nat),
      f.part = .tree t ∧ p.key.name = name ∧
        (f.property? name).bind value? =
          some ⟨.tree u, (.property p, 1) :: (.tree t, i) :: f.above⟩ ∧
        u.DistinctKeys ∧ u.toValue = w := by
  obtain ⟨t, hpart, hkeys, rfl⟩ := h
  rw [hkeys.get?_toValue] at hget
  obtain ⟨p, hp, rfl⟩ := Option.map_eq_some_iff.mp hget
  obtain ⟨u, hu⟩ : ∃ u, p.value = some u := by
    cases hvalue : p.value with
    | some u => exact ⟨u, rfl⟩
    | none =>
        rw [Property.toValue, hvalue] at hw
        exact absurd rfl hw
  obtain ⟨i, hi⟩ := value?_property?_of_tree hpart name
  refine ⟨t, p, u, i, hpart, ?_, ?_, hkeys.property? hp hu, ?_⟩
  · exact Tree.name_of_property? hp
  · rw [hi, hp, Option.bind_some, hu]
    rfl
  · rw [Property.toValue, hu]
    rfl

theorem Denotes.toValue_eq
    {f : Focus} {v : Value} (h : f.Denotes v) :
    f.part.toValue = v := by
  obtain ⟨t, hpart, -, rfl⟩ := h
  rw [hpart]
  rfl

/-- A property that does not hold null has been typed. -/
theorem exists_value?
    {p : Property Tree} {above : List (Part × Nat)}
    (hkeys : ∀ u, p.value = some u → u.DistinctKeys) (hp : p.toValue ≠ .null) :
    ∃ g, value? ⟨.property p, above⟩ = some g ∧ g.above = (.property p, 1) :: above ∧
      g.Denotes p.toValue := by
  cases hvalue : p.value with
  | none =>
      rw [Property.toValue, hvalue] at hp
      exact absurd rfl hp
  | some u =>
      refine ⟨⟨.tree u, (.property p, 1) :: above⟩, ?_, rfl, u, rfl, hkeys u hvalue, ?_⟩
      · change p.value.map _ = _
        rw [hvalue]
        rfl
      · rw [Property.toValue, hvalue]
        rfl

/-- Every state that a scope declares in the value is declared by a node. -/
theorem Denotes.exists_declaration
    {f : Focus} {scope : Value} (h : f.Denotes scope) {id : Text} {state : Value}
    (hstate : (State.declared? scope).bind (Fields.get? · id) = some state) :
    ∃ d, f.declaration? id = some d ∧ Declares f id d ∧ d.part.toValue = state ∧
      (state ≠ .null →
        ∃ g, d.value? = some g ∧ g.above = (d.part, 1) :: d.above ∧ g.Denotes state) := by
  obtain ⟨states, hstates, hget⟩ := Option.bind_eq_some_iff.mp hstate
  obtain ⟨mapping, hmapping, hfields⟩ := Option.bind_eq_some_iff.mp hstates
  obtain ⟨t, p, u, j, hpart, hname, hfound, hkeys, rfl⟩ :=
    h.value?_property? hmapping (by rintro rfl; cases hfields)
  have hobject : u.isObject = true := by
    rw [← Tree.isObject_toValue]
    exact Option.isSome_iff_exists.mpr ⟨states, hfields⟩
  have hfield : u.toValue.get? id = some state := by rw [Value.get?, hfields]; exact hget
  rw [hkeys.get?_toValue] at hfield
  obtain ⟨q, hq, rfl⟩ := Option.map_eq_some_iff.mp hfield
  obtain ⟨i, hi⟩ := property?_of_tree
    (f := ⟨.tree u, (.property p, 1) :: (.tree t, j) :: f.above⟩) rfl id
  have hid := Tree.name_of_property? hq
  refine ⟨⟨.property q, (.tree u, i) :: (.property p, 1) :: (.tree t, j) :: f.above⟩, ?_, ?_, rfl,
    exists_value? fun w hw => hkeys.property? hq hw⟩
  · rw [declaration?, statesKey, hfound, Option.bind_some, hi, hq]
    rfl
  · rw [← hid]
    obtain ⟨part, above⟩ := f
    cases hpart
    exact Declares.intro hname hobject

/-- The node of the scope that a Map state owns. -/
theorem Denotes.exists_processorNode
    {d g : Focus} {state : Value} (habove : g.above = (d.part, 1) :: d.above)
    (h : g.Denotes state) (hscope : (State.processor state).isObject = true) :
    ∃ inner, g.processorNode? = some inner ∧ Owns d [] inner ∧
      inner.Denotes (State.processor state) := by
  have hget : state.get? (State.processorField state) = some (State.processor state) := by
    rw [State.processor_eq_get, Value.get]
    cases hfield : state.get? (State.processorField state) with
    | some w => rfl
    | none =>
        rw [State.processor_eq_get, Value.get, hfield] at hscope
        cases hscope
  obtain ⟨t, p, u, i, hpart, hname, hfound, hkeys, hu⟩ :=
    h.value?_property? hget (by intro hnull; rw [hnull] at hscope; cases hscope)
  refine ⟨⟨.tree u, (.property p, 1) :: (.tree t, i) :: g.above⟩, ?_, ?_, u, rfl, hkeys, hu⟩
  · rw [processorNode?, h.toValue_eq]
    exact hfound
  · rw [habove]
    refine Owns.processor ?_
    rw [hname, State.processorField, processorKeys]
    split <;> simp

/-- The node of a branch that a Parallel state owns. -/
theorem Denotes.exists_branchNode
    {d g : Focus} {state : Value} (habove : g.above = (d.part, 1) :: d.above)
    (h : g.Denotes state) {scopes : List Value} (hscopes : State.branches? state = some scopes)
    {i : Nat} {scope : Value} (hscope : scopes[i]? = some scope) :
    ∃ inner, g.branchNode? i = some inner ∧ Owns d [.index i] inner ∧ inner.Denotes scope := by
  obtain ⟨v, hget, hitems⟩ := Option.bind_eq_some_iff.mp hscopes
  obtain ⟨t, p, u, j, hpart, hname, hfound, hkeys, rfl⟩ :=
    h.value?_property? hget (by rintro rfl; cases hitems)
  rw [Tree.items?_toValue] at hitems
  obtain ⟨items, hu, rfl⟩ := Option.map_eq_some_iff.mp hitems
  rw [List.getElem?_map] at hscope
  obtain ⟨w, hw, rfl⟩ := Option.map_eq_some_iff.mp hscope
  refine ⟨⟨.tree w, (.tree u, i) :: (.property p, 1) :: (.tree t, j) :: g.above⟩, ?_, ?_, w, rfl,
    hkeys.items hu w (List.mem_of_getElem? hw), rfl⟩
  · rw [branchNode?, hfound, Option.bind_some, item?_of_tree (f := ⟨.tree u, _⟩) rfl, hu, Option.bind_some, hw]
    rfl
  · rw [habove]
    exact Owns.branch hname (by rw [hu]; rfl)

theorem ne_null_of_kind?
    {state : Value} {kind : StateKind} (h : State.kind? state = some kind) :
    state ≠ .null := by
  rintro rfl
  cases h

/-- Owners lead from the node of a scope to the node of the scope at the end of their path. -/
theorem ShowsScope.exists_owned
    {scope inner : Value} {b : Path} (howners : OwnerPath scope b inner)
    (hplain : b.plain = b) (hinner : inner.isObject = true) :
    ∀ {f : Focus} {path : Path}, ShowsScope f scope path →
      ∃ g, f.owned? b = some g ∧ ShowsScope g inner (path ++ b) := by
  induction howners with
  | here scope =>
      intro f path hf
      refine ⟨f, rfl, ?_⟩
      rw [List.append_nil]
      exact hf
  | @map scope id owner rest inner howner hkind hrest ih =>
      intro f path hf
      obtain ⟨d, hd, hdeclares, -, hbelow⟩ := hf.denotes.exists_declaration howner
      obtain ⟨state, hstate, habove, hdenotes⟩ := hbelow (ne_null_of_kind? hkind)
      obtain ⟨g, hg, howns, hscope⟩ :=
        hdenotes.exists_processorNode habove (hrest.isObject_of_isObject hinner)
      obtain ⟨found, hfound, hshows⟩ := ih (by simpa using hplain) hinner
        (hf.step hdeclares howns (by simp) hscope)
      refine ⟨found, ?_, by simpa using hshows⟩
      rw [owned?, hd, Option.bind_some, hstate]
      simp only [hdenotes.toValue_eq, hkind, hg, hfound]
  | @branch scope id owner scopes s i branch rest inner howner hkind hscopes hindex hbranch
      hrest ih =>
      intro f path hf
      rw [Path.plain_cons, Path.plain_cons, Segment.plain_of_index? hindex, List.cons.injEq,
        List.cons.injEq] at hplain
      obtain ⟨-, rfl, hplain⟩ := hplain
      obtain ⟨d, hd, hdeclares, -, hbelow⟩ := hf.denotes.exists_declaration howner
      obtain ⟨state, hstate, habove, hdenotes⟩ := hbelow (ne_null_of_kind? hkind)
      obtain ⟨g, hg, howns, hscope⟩ := hdenotes.exists_branchNode habove hscopes hbranch
      obtain ⟨found, hfound, hshows⟩ := ih hplain hinner
        (hf.step hdeclares howns (by simp) hscope)
      refine ⟨found, ?_, by simpa using hshows⟩
      rw [owned?, hd, Option.bind_some, hstate]
      have hnonneg : ¬ (i : Int) < 0 := Int.not_lt.mpr (Int.natCast_nonneg i)
      simp only [hdenotes.toValue_eq, hkind, hnonneg, if_false, Int.toNat_natCast, hg, hfound]

/-- The path that is read outward from a declaration. -/
theorem ShowsScope.statePath_eq
    {f d : Focus} {scope : Value} {path : Path} {id : Text}
    (h : ShowsScope f scope path) (hdeclares : Declares f id d) :
    d.statePath = path ++ [.name id] := by
  rw [statePath, hdeclares.up?_three, hdeclares.propertyName?_eq]
  dsimp only
  rw [h.outer _ (Nat.le_refl _)]
  rfl

/-- A state that is visited is declared by a node, which is reached along the owners in its path. -/
theorem exists_declarationAt
    {t : Tree} (hkeys : t.DistinctKeys) {v : Visit} (hv : v ∈ allStates t.toValue) :
    ∃ f d, declarationAt? t v.path = some d ∧ ShowsScope f v.parent v.path.dropLast ∧
      Declares f v.id d ∧ d.part.toValue = v.state ∧
      (v.state ≠ .null →
        ∃ g, d.value? = some g ∧ g.above = (d.part, 1) :: d.above ∧ g.Denotes v.state) := by
  obtain ⟨b, howners, hplain, -, ⟨states, hstates, hmem⟩, hpath⟩ :=
    (mem_allStates_iff t.toValue_proper).mp hv
  have hget : (State.declared? v.parent).bind (Fields.get? · v.id) = some v.state := by
    rw [hstates]
    exact Fields.get?_of_mem
      (State.declared?_proper (howners.proper t.toValue_proper) hstates).1 hmem
  obtain ⟨f, hf, hshows⟩ := ShowsScope.exists_owned howners hplain
    (State.isObject_of_declared? hstates) (showsScope_root hkeys)
  obtain ⟨d, hd, hdeclares, hvalue, hbelow⟩ := hshows.denotes.exists_declaration hget
  refine ⟨f, d, ?_, ?_, hdeclares, hvalue, hbelow⟩
  · rw [declarationAt?, hpath, List.getLast?_concat, List.dropLast_concat]
    dsimp only
    rw [hf]
    exact hd
  · rw [hpath, List.dropLast_concat]
    exact hshows

end Focus

section Visits

variable {t : Tree} (hkeys : t.DistinctKeys)

include hkeys

/-- Where no object of a document repeats a key, every state that is visited is declared by the node
that its path leads to.  What is read outward from this node is the name and the path of the visit,
and the node has the value that was visited.  The path tells the declarations apart. -/
theorem declarations_match_visits :
    (∀ v ∈ allStates t.toValue, ∃ d info,
      Focus.declarationAt? t v.path = some d ∧ d.stateInfo? = some info ∧
        info.declaration = d ∧ info.name = v.id ∧ info.path = v.path ∧
        d.part.toValue = v.state) ∧
    ∀ v ∈ allStates t.toValue, ∀ w ∈ allStates t.toValue, ∀ d e : Focus,
      Focus.declarationAt? t v.path = some d → Focus.declarationAt? t w.path = some e →
        (d = e ↔ v = w) ∧ (d.stateInfo?.map Focus.StateInfo.path =
          e.stateInfo?.map Focus.StateInfo.path ↔ v = w) := by
  have hmatch : ∀ v ∈ allStates t.toValue, ∃ d info,
      Focus.declarationAt? t v.path = some d ∧ d.stateInfo? = some info ∧
        info.declaration = d ∧ info.name = v.id ∧ info.path = v.path ∧
        d.part.toValue = v.state := by
    intro v hv
    obtain ⟨f, d, hd, hshows, hdeclares, hvalue, -⟩ := Focus.exists_declarationAt hkeys hv
    obtain ⟨info, hinfo, hname, hpath, hself⟩ := hdeclares.stateInfo?_eq
    refine ⟨d, info, hd, hinfo, hself, hname, ?_, hvalue⟩
    obtain ⟨b, hdeclared⟩ := (mem_allStates_iff t.toValue_proper).mp hv
    rw [hpath, hshows.statePath_eq hdeclares, hdeclared.path, List.dropLast_concat]
  refine ⟨hmatch, fun v hv w hw d e hd he => ?_⟩
  obtain ⟨d', info, hd', hinfo, -, -, hpath, -⟩ := hmatch v hv
  obtain ⟨e', other, he', hother, -, -, hotherPath, -⟩ := hmatch w hw
  cases hd.symm.trans hd'
  cases he.symm.trans he'
  obtain ⟨b, hdeclared⟩ := (mem_allStates_iff t.toValue_proper).mp hv
  obtain ⟨c, hotherDeclared⟩ := (mem_allStates_iff t.toValue_proper).mp hw
  have hpaths : d.stateInfo?.map Focus.StateInfo.path = e.stateInfo?.map Focus.StateInfo.path ↔
      v = w := by
    rw [hinfo, hother, Option.map_some, Option.map_some, hpath, hotherPath, Option.some.injEq]
    exact ⟨hdeclared.eq_of_path t.toValue_proper hotherDeclared, congrArg Visit.path⟩
  refine ⟨⟨fun heq => hpaths.mp (by rw [heq]), ?_⟩, hpaths⟩
  rintro rfl
  exact Option.some.inj (hd.symm.trans he)

end Visits

/-- A text with a malformed branch, nested states of one name, and a state that is called like the
field around it. -/
def nestedNamesText : Text :=
  "States:
 P:
  Type: Parallel
  Branches:
  - 1
  - States:
     A:
      Type: Map
      Iterator:
       States:
        A:
  - States:
     States:
"

/-- The document of that text. -/
def nestedNamesDocument : Document :=
  match Document.treeOf .yaml nestedNamesText with
  | .ok (some root) => ⟨nestedNamesText, .yaml, root, 0⟩
  | _ => ⟨nestedNamesText, .yaml, none, 0⟩

/-- In that document four states are visited. -/
theorem declarations_match_visits_nestedNames :
    ∃ root, nestedNamesDocument.root = some root ∧ root.DistinctKeys ∧
      (allStates root.toValue).map Visit.path =
        [[.name "P"], [.name "P", .index 1, .name "A"],
          [.name "P", .index 1, .name "A", .name "A"], [.name "P", .index 2, .name "States"]] ∧
      (∀ v ∈ allStates root.toValue, ∃ d info,
        Focus.declarationAt? root v.path = some d ∧ d.stateInfo? = some info ∧
          info.declaration = d ∧ info.name = v.id ∧ info.path = v.path ∧
          d.part.toValue = v.state) ∧
      ∀ v ∈ allStates root.toValue, ∀ w ∈ allStates root.toValue, ∀ d e : Focus,
        Focus.declarationAt? root v.path = some d → Focus.declarationAt? root w.path = some e →
          (d = e ↔ v = w) ∧ (d.stateInfo?.map Focus.StateInfo.path =
            e.stateInfo?.map Focus.StateInfo.path ↔ v = w) := by
  have hfacts : (nestedNamesDocument.root.any fun root => decide root.DistinctKeys &&
      decide ((allStates root.toValue).map Visit.path =
        [[.name "P"], [.name "P", .index 1, .name "A"],
          [.name "P", .index 1, .name "A", .name "A"], [.name "P", .index 2, .name "States"]])) = true := by
    decide +kernel
  obtain ⟨root, hroot, hfacts⟩ := (Option.any_eq_true _ _).mp hfacts
  rw [Bool.and_eq_true, decide_eq_true_iff, decide_eq_true_iff] at hfacts
  exact ⟨root, hroot, hfacts.1, hfacts.2, declarations_match_visits hfacts.1⟩

end Workflow
