import Workflow.Proofs.KeyPaths
import Workflow.Proofs.TextPieces
import Workflow.Remote

/-!
# Pointers and the parts they lead to

The keys and positions on the way to a part of a document can be written as a pointer, and following
the pointer leads back to the part.  Segments may hold slashes and tildes, and they may be empty
except at the front, where any number of slashes is ignored.

Any other pointer leads as far as its segments name parts that exist, and where it ends has a range
in the document.  There is one exception: at an array a segment that passes for digits is read as a
number before it is known to be one, and where it is none there is no answer.
-/

namespace Workflow

/-! ## Writing segments -/

namespace Text

theorem replacePair_cons_of_ne
    {a b c x : CodePoint} (h : x ≠ a) (t : Text) :
    replacePair a b c (x :: t) = x :: replacePair a b c t := by
  cases t with
  | nil => rfl
  | cons y t => rw [replacePair, if_neg fun hpair => h hpair.1]

theorem replacePair_cons_cons_of_ne
    {a b c y : CodePoint} (h : y ≠ b) (t : Text) :
    replacePair a b c (a :: y :: t) = a :: replacePair a b c (y :: t) := by
  rw [replacePair, if_neg fun hpair => h hpair.2]

end Text

namespace Pointer

open Text

/-- The written form of one code point in which only the tilde is replaced. -/
def encodeTilde (c : CodePoint) : Text := if c = '~' then "~0" else [c]

/-- Putting the slashes back leaves the tildes replaced. -/
theorem replacePair_encode
    (t : Text) :
    replacePair '~' '1' '/' (encode t) = t.flatMap encodeTilde := by
  induction t with
  | nil => rfl
  | cons c t ih =>
      have hcons : encode (c :: t) = encodePoint c ++ encode t := rfl
      rw [hcons, List.flatMap_cons, encodePoint, encodeTilde, ← ih]
      by_cases htilde : c = '~'
      · rw [if_pos htilde, if_pos htilde]
        exact (replacePair_cons_cons_of_ne (by decide) _).trans
          (congrArg _ (replacePair_cons_of_ne (by decide) _))
      · rw [if_neg htilde, if_neg htilde]
        by_cases hslash : c = '/'
        · rw [if_pos hslash, hslash]
          exact if_pos ⟨rfl, rfl⟩
        · rw [if_neg hslash]
          exact replacePair_cons_of_ne htilde _

/-- Putting the tildes back gives the text. -/
theorem replacePair_encodeTilde
    (t : Text) :
    replacePair '~' '0' '~' (t.flatMap encodeTilde) = t := by
  induction t with
  | nil => rfl
  | cons c t ih =>
      rw [List.flatMap_cons, encodeTilde]
      by_cases htilde : c = '~'
      · rw [if_pos htilde, htilde]
        exact (if_pos ⟨rfl, rfl⟩).trans (congrArg _ ih)
      · rw [if_neg htilde]
        exact (replacePair_cons_of_ne htilde _).trans (congrArg _ ih)

/-- A segment is read as it was written. -/
theorem decode_encode
    (t : Text) :
    decode (encode t) = t := by
  rw [decode, replacePair_encode, replacePair_encodeTilde]

/-- No slash stands inside of a written segment. -/
theorem slash_notMem_encode
    (t : Text) :
    ('/' : CodePoint) ∉ encode t := by
  intro hmem
  obtain ⟨c, -, hc⟩ := List.mem_flatMap.mp hmem
  rw [encodePoint] at hc
  split at hc
  · revert hc
    decide
  · split at hc
    · revert hc
      decide
    · next hslash => exact hslash (List.mem_singleton.mp hc).symm

theorem encode_ne_nil
    {t : Text} (h : t ≠ []) :
    encode t ≠ [] := by
  cases t with
  | nil => exact absurd rfl h
  | cons c t =>
      intro hnil
      have hpoint : encodePoint c = [] := (List.append_eq_nil_iff.mp hnil).1
      rw [encodePoint] at hpoint
      split at hpoint
      · cases hpoint
      · split at hpoint <;> cases hpoint

theorem ofSegments_cons
    (first : Text) (rest : List Text) :
    ofSegments (first :: rest) = ('/' : CodePoint) :: (encode first ++ ofSegments rest) := by
  rfl

/-- Of a pointer with a first segment only the slash in front is dropped. -/
theorem dropWhile_ofSegments
    {first : Text} (h : first ≠ []) (rest : List Text) :
    (ofSegments (first :: rest)).dropWhile (fun (c : CodePoint) => c == '/') =
      encode first ++ ofSegments rest := by
  rw [ofSegments_cons, List.dropWhile_cons_of_pos (by decide)]
  cases hfirst : encode first with
  | nil => exact absurd hfirst (encode_ne_nil h)
  | cons c t =>
      have hc : c ≠ '/' := by
        rintro rfl
        exact slash_notMem_encode first (hfirst ▸ List.mem_cons_self)
      rw [List.cons_append, List.dropWhile_cons_of_neg (by simpa using hc)]

/-- The pieces between the slashes are the written segments. -/
theorem splitOn_ofSegments
    (first : Text) (rest : List Text) :
    splitOn '/' (encode first ++ ofSegments rest) = (first :: rest).map encode := by
  induction rest generalizing first with
  | nil =>
      rw [ofSegments, List.flatMap_nil, List.append_nil, splitOn_of_notMem (slash_notMem_encode _)]
      rfl
  | cons next rest ih =>
      rw [ofSegments_cons, splitOn_append_cons, splitOn_of_notMem (slash_notMem_encode _), ih]
      rfl

/-- The segments of a pointer are read as they were written, unless the first one is empty. -/
theorem segments_ofSegments
    {first : Text} (h : first ≠ []) (rest : List Text) :
    segments (ofSegments (first :: rest)) = first :: rest := by
  rw [segments, dropWhile_ofSegments h, splitOn_ofSegments, List.map_map]
  exact (List.map_congr_left fun t _ => decode_encode t).trans (List.map_id _)

end Pointer

/-! ## Following a segment -/

namespace Tree

/-- The part that a segment names: the value of the first property with this key, or the property
itself if its value has not been typed; of an array, the item at the position that the segment
denotes. -/
def named? (t : Tree) (segment : Text) : Option Part :=
  match t with
  | .array _ items => (Numeral.position? segment).bind fun i => items[i]?.map .tree
  | t => (t.property? segment).map fun p => (p.value.map .tree).getD (.property p)

/-- At an array, the segment passes for digits but cannot be read as a number. -/
def Trips (t : Tree) (segment : Text) : Prop :=
  t.items?.isSome = true ∧ segment.isDigits = true ∧ Numeral.Unread segment

/-- Where a segment does not trip, the item that it names is the one at the position it denotes. -/
theorem itemNamed_eq
    {segment : Text} (h : ¬ (segment.isDigits = true ∧ Numeral.Unread segment))
    (items : List Tree) :
    itemNamed items segment =
      .ok ((Numeral.position? segment).bind fun i => items[i]?) := by
  rw [itemNamed]
  split
  · next hdigits =>
      obtain ⟨n, hposition, hread⟩ :=
        Numeral.exists_integer_eq hdigits fun hunread => h ⟨hdigits, hunread⟩
      rw [hposition, hread]
      rfl
  · next hdigits =>
      cases hposition : Numeral.position? segment with
      | none => rfl
      | some n => exact absurd (Numeral.isDigits_of_position? hposition) hdigits

/-- A segment is followed to the part that it names, and where it names none, the tree is the last
part on the way. -/
theorem follow_cons
    {t : Tree} {segment : Text} (h : ¬ t.Trips segment) (rest : List Text) :
    t.follow (segment :: rest) =
      match t.named? segment with
      | some (.tree u) => u.follow rest
      | some part => .ok part
      | none => .ok (.tree t) := by
  cases t with
  | array span items =>
      have hread : ¬ (segment.isDigits = true ∧ Numeral.Unread segment) := fun hdigits =>
        h ⟨rfl, hdigits⟩
      rw [follow, named?]
      dsimp only [properties?, items?]
      rw [itemNamed_eq hread]
      cases Numeral.position? segment with
      | none => rfl
      | some i =>
          dsimp only [Option.bind_some]
          cases items[i]? <;> rfl
  | object span properties =>
      rw [follow, named?]
      · dsimp only [properties?]
        cases property? (.object span properties) segment with
        | none => rfl
        | some p => cases hvalue : p.value <;> simp [hvalue]
      · nofun
  | _ => rfl

/-- Where a segment trips, there is no answer. -/
theorem faults_follow_cons
    {t : Tree} {segment : Text} (h : t.Trips segment) (rest : List Text) :
    Faults (t.follow (segment :: rest)) := by
  obtain ⟨hitems, hdigits, hunread⟩ := h
  obtain ⟨fault, hfault⟩ := (Numeral.faults_integer_iff hdigits).mpr hunread
  cases t with
  | array span items =>
      refine ⟨fault, ?_⟩
      rw [follow]
      dsimp only [properties?, items?]
      rw [itemNamed, if_pos hdigits, hfault]
      rfl
  | _ => cases hitems

end Tree

/-! ## There and back -/

/-- The segment for a step: a key, or a position in decimal notation. -/
def TreeStep.segment : TreeStep → Text
  | .key name => name
  | .item i => Text.ofNat i

namespace Tree

/-- The tree that a step leads to: the value of the first property with a key, or the item at a
position. -/
def child? (t : Tree) : TreeStep → Option Tree
  | .key name => (t.property? name).bind Property.value
  | .item i => t.items?.bind fun items => items[i]?

/-- The tree that a path leads to. -/
def along? : Tree → List TreeStep → Option Tree
  | t, [] => some t
  | t, s :: path => (t.child? s).bind fun u => u.along? path

/-- The segment for a step names what the step leads to. -/
theorem named?_of_child?
    {t u : Tree} {s : TreeStep} (h : t.child? s = some u) :
    t.named? s.segment = some (.tree u) := by
  cases s with
  | key name =>
      obtain ⟨p, hp, hvalue⟩ := Option.bind_eq_some_iff.mp h
      cases t with
      | object span properties =>
          rw [named?, TreeStep.segment, hp, Option.map_some, hvalue]
          · rfl
          · nofun
      | _ => cases hp
  | item i =>
      obtain ⟨items, hitems, hitem⟩ := Option.bind_eq_some_iff.mp h
      cases t with
      | array span others =>
          cases hitems
          rw [named?, TreeStep.segment, Numeral.position?_ofNat, Option.bind_some, hitem]
          rfl
      | _ => cases hitems

/-- A step that leads on does not trip if its position has no more digits than are read. -/
theorem not_trips_of_child?
    {t u : Tree} {s : TreeStep} (h : t.child? s = some u)
    (hread : ∀ i, s = .item i → (Text.ofNat i).length ≤ Numeral.maxDigits) :
    ¬ t.Trips s.segment := by
  rintro ⟨hitems, -, hunread⟩
  cases s with
  | key name =>
      obtain ⟨p, hp, -⟩ := Option.bind_eq_some_iff.mp h
      cases t with
      | array span items => cases hp
      | _ => cases hitems
  | item i =>
      have hlong := (Numeral.unread_of_isDecimals (Text.isDecimals_ofNat i)).2.mp hunread
      exact absurd (hread i rfl) (Nat.not_le.mpr hlong)

/-- The segments of a path are followed to its end. -/
theorem follow_of_along?
    {t node : Tree} {path : List TreeStep} (h : t.along? path = some node)
    (hread : ∀ i, .item i ∈ path → (Text.ofNat i).length ≤ Numeral.maxDigits) :
    t.follow (path.map TreeStep.segment) = .ok (.tree node) := by
  induction path generalizing t with
  | nil =>
      cases h
      rfl
  | cons s path ih =>
      obtain ⟨u, hu, hrest⟩ := Option.bind_eq_some_iff.mp h
      have hstep := not_trips_of_child? hu fun i hi => hread i (hi ▸ List.mem_cons_self)
      rw [List.map_cons, follow_cons hstep, named?_of_child? hu]
      exact ih hrest fun i hi => hread i (List.mem_cons_of_mem _ hi)

end Tree

namespace Pointer

/-- The segments on the way of a pointer; the empty pointer has none. -/
def way (pointer : Text) : List Text := if pointer.isEmpty then [] else segments pointer

/-- A pointer is followed along its way. -/
theorem part?_str
    (t : Tree) (pointer : Text) :
    part? (some t) (.str pointer) = (t.follow (way pointer)).map some := by
  rw [part?, way]
  cases pointer with
  | nil => rfl
  | cons c pointer => rfl

/-- The way of a written pointer consists of its segments, unless the first one is empty. -/
theorem way_ofSegments
    {segments : List Text} (h : segments.head? ≠ some []) :
    way (ofSegments segments) = segments := by
  cases segments with
  | nil => rfl
  | cons first rest =>
      have hfirst : first ≠ [] := fun hnil => h (congrArg some hnil)
      rw [way, if_neg (by rw [ofSegments_cons]; exact Bool.false_ne_true),
        segments_ofSegments hfirst]

/-- A pointer that is written for the path to a tree leads to this tree, and the one for the empty
path to the whole, if the path does not start with an empty key.  Keys may otherwise be any text.
Positions have no more digits than are read; an array in which one has more fits no memory. -/
theorem written_pointer_leads_back
    {t node : Tree} {path : List TreeStep} (hpath : t.along? path = some node)
    (hfirst : path.head? ≠ some (.key []))
    (hread : ∀ i, .item i ∈ path → (Text.ofNat i).length ≤ Numeral.maxDigits) :
    part? (some t) (.str (ofSegments (path.map TreeStep.segment))) = .ok (some (.tree node)) := by
  have hhead : (path.map TreeStep.segment).head? ≠ some [] := by
    match path with
    | [] => nofun
    | .key name :: path =>
        intro hnil
        exact hfirst (congrArg (some ∘ TreeStep.key) (Option.some.inj hnil))
    | .item i :: path =>
        intro hnil
        exact (Text.isDecimals_ofNat i).1 (Option.some.inj hnil)
  rw [part?_str, way_ofSegments hhead, Tree.follow_of_along? hpath hread]
  rfl

/-- A text whose keys hold slashes, tildes and digits, or nothing. -/
def oddKeysText : Text :=
  "a/b~c:
- 5
- \"\":
    ~01:
      \"0\": 7
"

/-- The document of that text. -/
def oddKeysDocument : Document :=
  match Document.treeOf .yaml oddKeysText with
  | .ok (some root) => ⟨oddKeysText, .yaml, root, 0⟩
  | _ => ⟨oddKeysText, .yaml, none, 0⟩

/-- The way to the number seven in it. -/
def oddKeysPath : List TreeStep :=
  [.key "a/b~c", .item 1, .key "", .key "~01", .key "0"]

/-- The pointer for this way leads to the number. -/
theorem written_pointer_leads_back_oddKeys :
    ofSegments (oddKeysPath.map TreeStep.segment) = "/a~1b~0c/1//~001/0" ∧
      ∃ root node, oddKeysDocument.root = some root ∧
        root.along? oddKeysPath = some node ∧ node.toValue = .int 7 ∧
        part? (some root) (.str "/a~1b~0c/1//~001/0") = .ok (some (.tree node)) := by
  have hpointer : ofSegments (oddKeysPath.map TreeStep.segment) = "/a~1b~0c/1//~001/0" := by
    decide
  have hfacts : (oddKeysDocument.root.any fun root =>
      (root.along? oddKeysPath).any fun node => decide (node.toValue = .int 7)) = true := by
    decide +kernel
  simp only [Option.any_eq_true, decide_eq_true_eq] at hfacts
  obtain ⟨root, hroot, node, hnode, hvalue⟩ := hfacts
  have hread : ∀ i, .item i ∈ oddKeysPath → (Text.ofNat i).length ≤ Numeral.maxDigits := by
    intro i hi
    have hi : i = 1 := by simpa [oddKeysPath] using hi
    rw [hi]
    decide
  refine ⟨hpointer, root, node, hroot, hnode, hvalue, ?_⟩
  rw [← hpointer]
  exact written_pointer_leads_back hnode (by nofun) hread

end Pointer

/-! ## Where a pointer ends -/

/-- The part that segments lead to, starting from a part.  Nothing stands below a property without a
value. -/
def Part.resolve? : Part → List Text → Option Part
  | part, [] => some part
  | .tree t, segment :: rest => (t.named? segment).bind fun part => part.resolve? rest
  | _, _ :: _ => none

namespace Tree

/-- The part that the longest leading segments lead to. -/
def EndsAt (t : Tree) (segments : List Text) (part : Part) : Prop :=
  ∃ before, before <+: segments ∧ (Part.tree t).resolve? before = some part ∧
    ∀ longer, longer <+: segments → ((Part.tree t).resolve? longer).isSome = true →
      longer.length ≤ before.length

/-- The segments lead to a tree at which the next one trips. -/
def Stumbles (t : Tree) (segments : List Text) : Prop :=
  ∃ before segment after u, segments = before ++ segment :: after ∧
    (Part.tree t).resolve? before = some (.tree u) ∧ u.Trips segment

theorem resolve?_cons
    (t : Tree) (segment : Text) (rest : List Text) :
    (Part.tree t).resolve? (segment :: rest) =
      (t.named? segment).bind fun part => part.resolve? rest := by
  rfl

/-- Only a tree leads to a tree. -/
theorem exists_of_resolve?
    {part : Part} {segments : List Text} {u : Tree}
    (h : part.resolve? segments = some (.tree u)) :
    ∃ t, part = .tree t := by
  cases part with
  | tree t => exact ⟨t, rfl⟩
  | property p => cases segments <;> cases h
  | key k => cases segments <;> cases h

theorem stumbles_cons_iff
    {t : Tree} {segment : Text} {rest : List Text} :
    t.Stumbles (segment :: rest) ↔
      t.Trips segment ∨ ∃ u, t.named? segment = some (.tree u) ∧ u.Stumbles rest := by
  constructor
  · rintro ⟨before, next, after, u, hsplit, hbefore, htrips⟩
    cases before with
    | nil =>
        cases hsplit
        cases hbefore
        exact Or.inl htrips
    | cons first before =>
        cases hsplit
        obtain ⟨part, hnamed, hrest⟩ := Option.bind_eq_some_iff.mp hbefore
        obtain ⟨v, rfl⟩ := exists_of_resolve? hrest
        exact Or.inr ⟨v, hnamed, before, next, after, u, rfl, hrest, htrips⟩
  · rintro (htrips | ⟨u, hnamed, before, next, after, v, rfl, hbefore, htrips⟩)
    · exact ⟨[], segment, rest, t, rfl, rfl, htrips⟩
    · refine ⟨segment :: before, next, after, v, rfl, ?_, htrips⟩
      rw [resolve?_cons, hnamed]
      exact hbefore

section Ends

variable {t u : Tree} {segment : Text} {rest : List Text} {part : Part}

/-- Where the first segment does not trip and names no tree, nothing stumbles behind it. -/
theorem not_stumbles_of_no_tree
    (htrips : ¬ t.Trips segment) (h : ∀ u, t.named? segment ≠ some (.tree u)) :
    ¬ t.Stumbles (segment :: rest) := by
  rw [stumbles_cons_iff]
  rintro (hhere | ⟨u, hu, -⟩)
  · exact htrips hhere
  · exact h u hu

/-- Where the first segment names a tree, the others stumble from there or not at all. -/
theorem stumbles_iff_of_tree
    (htrips : ¬ t.Trips segment) (h : t.named? segment = some (.tree u)) :
    t.Stumbles (segment :: rest) ↔ u.Stumbles rest := by
  rw [stumbles_cons_iff, or_iff_right htrips, h]
  constructor
  · rintro ⟨v, hv, hrest⟩
    cases hv
    exact hrest
  · exact fun hrest => ⟨u, rfl, hrest⟩

/-- Where the first segment names nothing, the end is reached at once. -/
theorem endsAt_of_none
    (h : t.named? segment = none) :
    t.EndsAt (segment :: rest) (.tree t) := by
  refine ⟨[], List.nil_prefix, rfl, fun longer hprefix hleads => ?_⟩
  cases longer with
  | nil => exact Nat.le_refl _
  | cons next longer =>
      cases (List.cons_prefix_cons.mp hprefix).1
      rw [resolve?_cons, h] at hleads
      cases hleads

/-- Where the first segment names a part with nothing below it, this part is the end. -/
theorem endsAt_of_leaf
    (h : t.named? segment = some part) (hleaf : ∀ next more, part.resolve? (next :: more) = none) :
    t.EndsAt (segment :: rest) part := by
  refine ⟨[segment], List.cons_prefix_cons.mpr ⟨rfl, List.nil_prefix⟩, ?_,
    fun longer hprefix hleads => ?_⟩
  · rw [resolve?_cons, h]
    cases part <;> rfl
  · match longer with
    | [] => exact Nat.zero_le _
    | [next] => exact Nat.le_refl _
    | first :: next :: more =>
        cases (List.cons_prefix_cons.mp hprefix).1
        rw [resolve?_cons, h, Option.bind_some, hleaf] at hleads
        cases hleads

/-- Where the first segment names a tree, the end is that of the other segments from there. -/
theorem endsAt_of_tree
    (h : t.named? segment = some (.tree u)) (hrest : u.EndsAt rest part) :
    t.EndsAt (segment :: rest) part := by
  obtain ⟨before, hbefore, hleads, hlongest⟩ := hrest
  refine ⟨segment :: before, List.cons_prefix_cons.mpr ⟨rfl, hbefore⟩, ?_,
    fun longer hprefix hlonger => ?_⟩
  · rw [resolve?_cons, h]
    exact hleads
  · cases longer with
    | nil => exact Nat.zero_le _
    | cons next longer =>
        obtain ⟨rfl, htail⟩ := List.cons_prefix_cons.mp hprefix
        rw [resolve?_cons, h, Option.bind_some] at hlonger
        exact Nat.succ_le_succ (hlongest longer htail hlonger)

end Ends

/-- Segments are followed as far as they lead, unless they stumble on the way. -/
theorem follow_ends
    (t : Tree) (segments : List Text) :
    (t.Stumbles segments ∧ Faults (t.follow segments)) ∨
      (¬ t.Stumbles segments ∧
        ∃ part, t.EndsAt segments part ∧ t.follow segments = .ok part) := by
  induction segments generalizing t with
  | nil =>
      refine Or.inr ⟨?_, .tree t, ⟨[], List.nil_prefix, rfl, fun longer hprefix _ => ?_⟩, rfl⟩
      · rintro ⟨before, segment, after, u, hsplit, -⟩
        cases before <;> cases hsplit
      · rw [List.prefix_nil.mp hprefix]
  | cons segment rest ih =>
      by_cases htrips : t.Trips segment
      · exact Or.inl ⟨stumbles_cons_iff.mpr (Or.inl htrips), faults_follow_cons htrips rest⟩
      · rw [follow_cons htrips]
        cases hnamed : t.named? segment with
        | none =>
            have hstumbles : ¬ t.Stumbles (segment :: rest) :=
              not_stumbles_of_no_tree htrips fun u hu => nomatch hnamed.symm.trans hu
            exact Or.inr ⟨hstumbles, .tree t, endsAt_of_none hnamed, rfl⟩
        | some part =>
            cases part with
            | tree u =>
                rw [stumbles_iff_of_tree htrips hnamed]
                rcases ih u with hstumbles | ⟨hstumbles, part, hends, hfollow⟩
                · exact Or.inl hstumbles
                · exact Or.inr ⟨hstumbles, part, endsAt_of_tree hnamed hends, hfollow⟩
            | property p =>
                have hstumbles : ¬ t.Stumbles (segment :: rest) :=
                  not_stumbles_of_no_tree htrips fun u hu => nomatch hnamed.symm.trans hu
                exact Or.inr ⟨hstumbles, _, endsAt_of_leaf hnamed fun _ _ => rfl, rfl⟩
            | key k =>
                have hstumbles : ¬ t.Stumbles (segment :: rest) :=
                  not_stumbles_of_no_tree htrips fun u hu => nomatch hnamed.symm.trans hu
                exact Or.inr ⟨hstumbles, _, endsAt_of_leaf hnamed fun _ _ => rfl, rfl⟩

end Tree

namespace Remote

/-- The location of an entry is the text in the field of this name. -/
theorem field_of_get_eq
    {entry : Value} {name t : Text} (h : entry.get name = .str t) :
    field entry name = .ok (.str t) := by
  have hobject : entry.isObject = true := by
    cases entry with
    | obj fields => rfl
    | _ => cases h
  rw [field, if_pos hobject, h]

/-- The range of an entry is that of the part its location leads to. -/
theorem rangeOf_eq
    {d : Document} {t : Tree} {entry : Value} {pointer : Text} {part : Part}
    (hroot : d.root = some t) (hlocation : entry.get "location" = .str pointer)
    (hpart : Pointer.part? (some t) (.str pointer) = .ok (some part)) :
    rangeOf d entry = .ok (d.rangeOf part.span) := by
  have hpart' : Pointer.part? d.root (.str pointer) = .ok (some part) := hroot ▸ hpart
  rw [rangeOf, field_of_get_eq hlocation]
  simp only [bind, Except.bind, hpart']
  rfl

end Remote

/-- A pointer has no answer exactly if it stumbles: its segments lead to an array at which the next
one passes for digits and yet is no number that is read.  Any other pointer leads to the part that
the longest of its leading segments lead to, and an entry with this location gets the range of that
part. -/
theorem Pointer.lands_unless_stumbling
    (t : Tree) (pointer : Text) :
    (Faults (part? (some t) (.str pointer)) ↔ t.Stumbles (way pointer)) ∧
      (¬ t.Stumbles (way pointer) →
        ∃ part, t.EndsAt (way pointer) part ∧
          part? (some t) (.str pointer) = .ok (some part) ∧
          ∀ (d : Document) (entry : Value), d.root = some t →
            entry.get "location" = .str pointer →
            Remote.rangeOf d entry = .ok (d.rangeOf part.span)) := by
  have hpart := part?_str t pointer
  rcases t.follow_ends (way pointer) with ⟨hstumbles, hfaults⟩ | ⟨hstumbles, part, hends, hfollow⟩
  · refine ⟨iff_of_true ?_ hstumbles, fun hnot => absurd hstumbles hnot⟩
    rw [hpart, faults_map]
    exact hfaults
  · have hanswer : part? (some t) (.str pointer) = .ok (some part) := by
      rw [hpart, hfollow]
      rfl
    refine ⟨iff_of_false ?_ hstumbles, fun _ => ⟨part, hends, hanswer, ?_⟩⟩
    · rw [hanswer]
      exact not_faults_ok _
    · intro d entry hroot hlocation
      exact Remote.rangeOf_eq hroot hlocation hanswer

/-- A text with an array of one item. -/
def singleItemText : Text := "a: [1]"

/-- The document of that text. -/
def singleItemDocument : Document :=
  match Document.treeOf .yaml singleItemText with
  | .ok (some root) => ⟨singleItemText, .yaml, root, 0⟩
  | _ => ⟨singleItemText, .yaml, none, 0⟩

/-- A pointer to a field of a number leads to the number. -/
theorem Pointer.lands_unless_stumbling_belowNumber :
    ∃ root part, singleItemDocument.root = some root ∧
      ¬ root.Stumbles (way "/a/0/x") ∧ root.EndsAt (way "/a/0/x") part ∧
      part? (some root) (.str "/a/0/x") = .ok (some part) ∧ part.toValue = .int 1 ∧
      Remote.rangeOf singleItemDocument (.obj [("location", .str "/a/0/x")]) =
        .ok (singleItemDocument.rangeOf part.span) := by
  have hfacts : (singleItemDocument.root.any fun root =>
      decide ((part? (some root) (.str "/a/0/x")).toOption.map (Option.map Part.toValue) =
        some (some (.int 1)))) = true := by
    decide +kernel
  simp only [Option.any_eq_true, decide_eq_true_eq] at hfacts
  obtain ⟨root, hroot, hvalue⟩ := hfacts
  obtain ⟨hfaults, hends⟩ := Pointer.lands_unless_stumbling root "/a/0/x"
  have hstumbles : ¬ root.Stumbles (way "/a/0/x") := by
    rw [← hfaults]
    cases hpart : part? (some root) (.str "/a/0/x") with
    | ok answer => exact not_faults_ok _
    | error fault =>
        rw [hpart] at hvalue
        cases hvalue
  obtain ⟨part, hend, hpart, hranges⟩ := hends hstumbles
  rw [hpart] at hvalue
  exact ⟨root, part, hroot, hstumbles, hend, hpart, Option.some.inj (Option.some.inj hvalue),
    hranges singleItemDocument _ hroot rfl⟩

/-- A digit that is ornamental only has no answer at an array, although the array is where the
pointer should end. -/
theorem Pointer.stumbles_over_ornament :
    ∃ root array, singleItemDocument.root = some root ∧
      root.EndsAt (way "/a/²") (.tree array) ∧ array.toValue = .arr [.int 1] ∧
      part? (some root) (.str "/a/²") = .error (.badNumeral 10 "²") := by
  have hfacts : (singleItemDocument.root.any fun root =>
      (root.child? (.key "a")).any fun array =>
        (array.named? "²").isNone && decide (array.toValue = .arr [.int 1]) &&
          match part? (some root) (.str "/a/²") with
          | .error fault => decide (fault = .badNumeral 10 "²")
          | .ok _ => false) = true := by
    decide +kernel
  simp only [Option.any_eq_true, Bool.and_eq_true, decide_eq_true_eq] at hfacts
  obtain ⟨root, hroot, array, harray, ⟨hnone, hvalue⟩, hfault⟩ := hfacts
  have hway : way "/a/²" = ["a", "²"] := by decide
  refine ⟨root, array, hroot, ?_, hvalue, ?_⟩
  · rw [hway]
    exact Tree.endsAt_of_tree (Tree.named?_of_child? harray)
      (Tree.endsAt_of_none (Option.isNone_iff_eq_none.mp hnone))
  · split at hfault
    · next fault heq => rw [heq, of_decide_eq_true hfault]
    · cases hfault

end Workflow
