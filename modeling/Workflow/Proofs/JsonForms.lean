import Workflow.Json.Reader
import Workflow.Markup.Tag

/-!
# Written forms of JSON

The grammar of JSON as data.  A form is a text of JSON taken apart along the rules of the standard:
white space between the tokens, words, numbers, the pieces of strings, and the items and members of
collections.  Every part carries the side condition of its rule, so a form that breaks the grammar
cannot be built.

A form has a text and a value.  The value is what the standard says: the last of repeated names
wins, the halves of an escaped surrogate pair are joined, and a number is an integer unless it has a
fraction or an exponent, in which case it is the nearest floating-point number.
-/

namespace Workflow

namespace Json

/-! ## White space and numbers -/

/-- White space between tokens. -/
structure Gap where
  text : Text
  isBlank : text.all isSpace = true

/-- A non-empty run of digits. -/
structure Digits where
  text : Text
  isRun : Markup.isRun CodePoint.isAsciiDigit text = true

namespace Digits

/-- The values of the digits. -/
def values (d : Digits) : List Nat := d.text.map fun c => c.val - 0x30

/-- The number that the digits denote. -/
def toNat (d : Digits) : Nat := Text.valueOf 10 d.values

end Digits

/-- The digits in front of a point, which start with a zero only if they are just a zero. -/
structure Whole extends Digits where
  leads : text.head? = some ('0' : CodePoint) → text.length = 1

/-- A mark, a sign or none, and digits. -/
structure Exponent where
  mark : CodePoint
  isMark : mark = 'e' ∨ mark = 'E'
  sign : Option CodePoint
  isSign : ∀ c ∈ sign, c = '+' ∨ c = '-'
  digits : Digits

namespace Exponent

/-- The text of an exponent. -/
def text (e : Exponent) : Text := e.mark :: (e.sign.toList ++ e.digits.text)

/-- The power of ten that an exponent denotes. -/
def toInt (e : Exponent) : Int :=
  if e.sign = some ('-' : CodePoint) then -(e.digits.toNat : Int) else e.digits.toNat

end Exponent

/-- A number: a minus or none, a whole part, and perhaps a fraction and an exponent. -/
structure Amount where
  minus : Bool
  whole : Whole
  fraction : Option Digits
  exponent : Option Exponent

namespace Amount

/-- The text of the sign. -/
def signText (a : Amount) : Text := if a.minus then ['-'] else []

/-- The text of a fraction with its point. -/
def fractionText : Option Digits → Text
  | none => []
  | some d => '.' :: d.text

/-- The text of an exponent, if there is one. -/
def exponentText : Option Exponent → Text
  | none => []
  | some e => e.text

/-- The text of a number without its sign. -/
def body (a : Amount) : Text :=
  a.whole.text ++ (fractionText a.fraction ++ exponentText a.exponent)

/-- The text of a number. -/
def text (a : Amount) : Text := a.signText ++ a.body

/-- Whether a number has neither a fraction nor an exponent. -/
def isInteger (a : Amount) : Bool := a.fraction.isNone && a.exponent.isNone

/-- The digits behind the point. -/
def fractionValues (a : Amount) : List Nat := (a.fraction.map Digits.values).getD []

/-- The power of ten at the end of a number; none is a power of zero. -/
def power (a : Amount) : Int := (a.exponent.map Exponent.toInt).getD 0

/-- The integer in front of the point. -/
def toInt (a : Amount) : Int := if a.minus then -(a.whole.toNat : Int) else a.whole.toNat

/-- The floating-point number nearest to a number with a given sign: all digits are scaled down by
the length of the fraction. -/
def rounded (a : Amount) (negative : Bool) : Binary64 :=
  Binary64.ofDecimal negative (Text.valueOf 10 (a.whole.values ++ a.fractionValues))
    (a.power - (a.fractionValues.length : Int))

/-- The nearest floating-point number. -/
def toFloat (a : Amount) : Binary64 := a.rounded a.minus

/-- The value of a number. -/
def value (a : Amount) : Value := if a.isInteger then .int a.toInt else .float a.toFloat

/-- An integer is short enough to be read. -/
def WithinDigits (a : Amount) : Prop :=
  a.isInteger = true → a.whole.text.length ≤ Numeral.maxDigits

end Amount

/-! ## Strings -/

/-- A piece of a string and the code point for which it stands. -/
inductive Piece where
  /-- A code point that stands for itself. -/
  | plain (c : CodePoint) (isPlain : 0x20 ≤ c.val ∧ c ≠ '"' ∧ c ≠ '\\')
  /-- An escape of one letter. -/
  | escape (letter meaning : CodePoint) (isEscape : escape? letter = some meaning)
  /-- An escape of four hexadecimal digits. -/
  | unit (a b c d meaning : CodePoint) (isUnit : unit? [a, b, c, d] = some meaning)

namespace Piece

/-- The text of a piece. -/
def text : Piece → Text
  | plain c _ => [c]
  | escape letter _ _ => ['\\', letter]
  | unit a b c d _ _ => ['\\', 'u', a, b, c, d]

/-- The code point for which a piece stands. -/
def meaning : Piece → CodePoint
  | plain c _ => c
  | escape _ meaning _ => meaning
  | unit _ _ _ _ meaning _ => meaning

end Piece

/-- The text of the pieces between the quotes of a string. -/
def piecesText (pieces : List Piece) : Text := pieces.flatMap Piece.text

/-- The code points for which the pieces of a string stand, one for every escape. -/
def piecesUnits (pieces : List Piece) : Text := pieces.map Piece.meaning

theorem piecesUnits_append
    (pieces pieces' : List Piece) :
    piecesUnits (pieces ++ pieces') = piecesUnits pieces ++ piecesUnits pieces' :=
  List.map_append

theorem piecesText_cons_append
    (p : Piece)
    (pieces : List Piece)
    (t : Text) :
    piecesText (p :: pieces) ++ t = p.text ++ (piecesText pieces ++ t) := by
  rw [piecesText, List.flatMap_cons, List.append_assoc]
  rfl

/-- There is no tab between quotes, for tabs are escaped. -/
theorem tab_notMem_piecesText
    (pieces : List Piece) :
    ('\t' : CodePoint) ∉ piecesText pieces := by
  intro hmem
  obtain ⟨p, -, hp⟩ := List.mem_flatMap.1 hmem
  cases p with
  | plain c hc =>
    rw [Piece.text, List.mem_singleton] at hp
    rw [← hp] at hc
    exact absurd hc.1 (by decide)
  | escape letter meaning hletter =>
    simp only [Piece.text, List.mem_cons, List.not_mem_nil, or_false] at hp
    rcases hp with hp | rfl
    · exact absurd hp (by decide)
    · have hnone : escape? '\t' = none := by decide
      rw [hnone] at hletter
      cases hletter
  | unit a b c d meaning hunit =>
    have htab : CodePoint.hexValue? '\t' = none := by decide
    simp only [unit?, List.mapM_cons, List.mapM_nil, Option.pure_def, Option.bind_eq_bind,
      Option.map_eq_some_iff, Option.bind_eq_some_iff] at hunit
    obtain ⟨_, ⟨_, ha, _, ⟨_, hb, _, ⟨_, hc, _, ⟨_, hd, _⟩, _⟩, _⟩, _⟩, _⟩ := hunit
    simp only [Piece.text, List.mem_cons, List.not_mem_nil, or_false] at hp
    rcases hp with hp | hp | rfl | rfl | rfl | rfl
    · exact absurd hp (by decide)
    · exact absurd hp (by decide)
    all_goals simp_all

/-- The text that the pieces of a string denote. -/
def piecesValue (pieces : List Piece) : Text := (piecesUnits pieces).joinPairs

/-- A text between two marks. -/
def between (start stop : CodePoint) (t : Text) : Text := start :: (t ++ [stop])

/-- The text of a string. -/
def quotedText (pieces : List Piece) : Text := between '"' '"' (piecesText pieces)

/-- What stands in front of the value of a member: white space, its name, and a colon in white
space. -/
structure Label where
  before : Gap
  name : List Piece
  afterName : Gap
  afterColon : Gap

/-- The text of a label. -/
def Label.text (l : Label) : Text :=
  l.before.text ++
    (quotedText l.name ++ (l.afterName.text ++ (':' : CodePoint) :: l.afterColon.text))

/-! ## Values and collections -/

mutual

/-- A value as it is written. -/
inductive Form where
  | null
  | bool (b : Bool)
  | number (a : Amount)
  | string (pieces : List Piece)
  | emptyArray (gap : Gap)
  | array (items : Items)
  | emptyObject (gap : Gap)
  | object (members : Members)

/-- The items of an array; there is at least one. -/
inductive Items where
  | last (before : Gap) (x : Form) (after : Gap)
  | more (before : Gap) (x : Form) (after : Gap) (items : Items)

/-- The members of an object; there is at least one. -/
inductive Members where
  | last (label : Label) (x : Form) (after : Gap)
  | more (label : Label) (x : Form) (after : Gap) (members : Members)

end

mutual

/-- The text of a form. -/
def Form.text : Form → Text
  | .null => "null"
  | .bool b => if b then "true" else "false"
  | .number a => a.text
  | .string pieces => quotedText pieces
  | .emptyArray gap => between '[' ']' gap.text
  | .array items => between '[' ']' items.text
  | .emptyObject gap => between 0x7B 0x7D gap.text
  | .object members => between 0x7B 0x7D members.text

/-- The text of items with the commas between them. -/
def Items.text : Items → Text
  | .last before x after => before.text ++ (x.text ++ after.text)
  | .more before x after items =>
    before.text ++ (x.text ++ (after.text ++ (',' : CodePoint) :: items.text))

/-- The text of members with the commas between them. -/
def Members.text : Members → Text
  | .last label x after => label.text ++ (x.text ++ after.text)
  | .more label x after members =>
    label.text ++ (x.text ++ (after.text ++ (',' : CodePoint) :: members.text))

end

mutual

/-- The value of a form, given what its strings denote. -/
def Form.valueWith (read : List Piece → Text) : Form → Value
  | .null => .null
  | .bool b => .bool b
  | .number a => a.value
  | .string pieces => .str (read pieces)
  | .emptyArray _ => .arr []
  | .array items => .arr (items.valuesWith read)
  | .emptyObject _ => .obj []
  | .object members => .obj (Fields.ofAssignments (members.assignmentsWith read))

/-- The values of items. -/
def Items.valuesWith (read : List Piece → Text) : Items → List Value
  | .last _ x _ => [x.valueWith read]
  | .more _ x _ items => x.valueWith read :: items.valuesWith read

/-- The names of members with their values. -/
def Members.assignmentsWith (read : List Piece → Text) : Members → List (Text × Value)
  | .last label x _ => [(read label.name, x.valueWith read)]
  | .more label x _ members =>
    (read label.name, x.valueWith read) :: members.assignmentsWith read

end

mutual

/-- The strings in a form, names included. -/
def Form.strings : Form → List (List Piece)
  | .string pieces => [pieces]
  | .array items => items.strings
  | .object members => members.strings
  | _ => []

/-- The strings in some items. -/
def Items.strings : Items → List (List Piece)
  | .last _ x _ => x.strings
  | .more _ x _ items => x.strings ++ items.strings

/-- The strings in some members. -/
def Members.strings : Members → List (List Piece)
  | .last label x _ => label.name :: x.strings
  | .more label x _ members => label.name :: (x.strings ++ members.strings)

end

mutual

/-- All integers in a form are short enough to be read. -/
def Form.WithinDigits : Form → Prop
  | .number a => a.WithinDigits
  | .array items => items.WithinDigits
  | .object members => members.WithinDigits
  | _ => True

/-- All integers in some items are short enough to be read. -/
def Items.WithinDigits : Items → Prop
  | .last _ x _ => x.WithinDigits
  | .more _ x _ items => x.WithinDigits ∧ items.WithinDigits

/-- All integers in some members are short enough to be read. -/
def Members.WithinDigits : Members → Prop
  | .last _ x _ => x.WithinDigits
  | .more _ x _ members => x.WithinDigits ∧ members.WithinDigits

end

section Agreement

variable {read read' : List Piece → Text}

mutual

/-- The value of a form depends only on what the strings in it denote. -/
theorem Form.valueWith_congr
    (x : Form)
    (h : ∀ pieces ∈ x.strings, read pieces = read' pieces) :
    x.valueWith read = x.valueWith read' := by
  cases x with
  | null | bool | number | emptyArray | emptyObject => rfl
  | string pieces => rw [Form.valueWith, Form.valueWith, h pieces List.mem_cons_self]
  | array items => rw [Form.valueWith, Form.valueWith, items.valuesWith_congr h]
  | object members => rw [Form.valueWith, Form.valueWith, members.assignmentsWith_congr h]

theorem Items.valuesWith_congr
    (items : Items)
    (h : ∀ pieces ∈ items.strings, read pieces = read' pieces) :
    items.valuesWith read = items.valuesWith read' := by
  cases items with
  | last before x after => rw [Items.valuesWith, Items.valuesWith, x.valueWith_congr h]
  | more before x after items =>
    obtain ⟨hx, hitems⟩ := List.forall_mem_append.1 h
    rw [Items.valuesWith, Items.valuesWith, x.valueWith_congr hx, items.valuesWith_congr hitems]

theorem Members.assignmentsWith_congr
    (members : Members)
    (h : ∀ pieces ∈ members.strings, read pieces = read' pieces) :
    members.assignmentsWith read = members.assignmentsWith read' := by
  cases members with
  | last label x after =>
    obtain ⟨hname, hx⟩ := List.forall_mem_cons.1 h
    rw [Members.assignmentsWith, Members.assignmentsWith, hname, x.valueWith_congr hx]
  | more label x after members =>
    obtain ⟨hname, hrest⟩ := List.forall_mem_cons.1 h
    obtain ⟨hx, hmembers⟩ := List.forall_mem_append.1 hrest
    rw [Members.assignmentsWith, Members.assignmentsWith, hname, x.valueWith_congr hx,
      members.assignmentsWith_congr hmembers]

end

end Agreement

/-- A JSON text: a value in white space. -/
structure Source where
  before : Gap
  form : Form
  after : Gap

namespace Source

/-- The text itself. -/
def text (x : Source) : Text := x.before.text ++ (x.form.text ++ x.after.text)

/-- The value of the text. -/
def value (x : Source) : Value := x.form.valueWith piecesValue

/-- The strings in the text. -/
def strings (x : Source) : List (List Piece) := x.form.strings

/-- All integers of the text are short enough to be read. -/
def WithinDigits (x : Source) : Prop := x.form.WithinDigits

end Source

end Json

end Workflow
