import Mathlib.Data.List.Forall2

/-!
How JSON is written.  The grammar is on characters and knows no tokens.  A text that stands for a
value is related to that value, and a text that nobody reads only has to be well formed.
-/

namespace RecordWire
namespace Json

def spaces : List Char :=
  [' ', '\t', '\n', '\r']

/-- White space. -/
def Spaces (cs : List Char) : Prop :=
  ∀ c ∈ cs, c ∈ spaces

instance (cs : List Char) : Decidable (Spaces cs) :=
  List.decidableBAll (· ∈ spaces) cs

/-! ## Strings -/

/-- A hexadecimal digit, in either case. -/
def SpellsDigit (n : Nat) (c : Char) : Prop :=
  "0123456789abcdef".toList[n]? = some c ∨ "0123456789ABCDEF".toList[n]? = some c

/-- A 16-bit unit as four hexadecimal digits. -/
inductive SpellsUnit : Nat → List Char → Prop where
  | digits {a b c d : Nat} {w x y z : Char} (hw : SpellsDigit a w) (hx : SpellsDigit b x)
      (hy : SpellsDigit c y) (hz : SpellsDigit d z) :
      SpellsUnit (((a * 16 + b) * 16 + c) * 16 + d) [w, x, y, z]

/-- The letters that may follow a backslash, and what they stand for. -/
def shortEscapes : List (Char × Char) :=
  [('"', '"'), ('\\', '\\'), ('/', '/'), ('b', '\x08'), ('f', '\x0c'), ('n', '\n'), ('r', '\r'),
    ('t', '\t')]

/-- Characters that need no escape. -/
def Unescaped (c : Char) : Prop :=
  0x20 ≤ c.toNat ∧ c ≠ '"' ∧ c ≠ '\\'

instance (c : Char) : Decidable (Unescaped c) :=
  inferInstanceAs (Decidable (0x20 ≤ c.toNat ∧ c ≠ '"' ∧ c ≠ '\\'))

/-- The ways to write a character of a string.  One outside the basic plane may be escaped as a pair
of surrogates. -/
inductive SpellsChar : Char → List Char → Prop where
  | plain {c : Char} (h : Unescaped c) : SpellsChar c [c]
  | short {e c : Char} (h : (e, c) ∈ shortEscapes) : SpellsChar c ['\\', e]
  | unit {c : Char} {ds : List Char} (h : SpellsUnit c.toNat ds) :
      SpellsChar c ('\\' :: 'u' :: ds)
  | pair {c : Char} {ds ds' : List Char} (hc : 0x10000 ≤ c.toNat)
      (lead : SpellsUnit (0xd800 + (c.toNat - 0x10000) / 0x400) ds)
      (trail : SpellsUnit (0xdc00 + (c.toNat - 0x10000) % 0x400) ds') :
      SpellsChar c ('\\' :: 'u' :: ds ++ '\\' :: 'u' :: ds')

def SpellsText (s : String) (cs : List Char) : Prop :=
  ∃ pieces, List.Forall₂ SpellsChar s.toList pieces ∧ cs = '"' :: pieces.flatten ++ ['"']

/-- A part of a string that nobody reads.  A surrogate may stand alone there. -/
inductive IsPiece : List Char → Prop where
  | plain {c : Char} (h : Unescaped c) : IsPiece [c]
  | short {e c : Char} (h : (e, c) ∈ shortEscapes) : IsPiece ['\\', e]
  | unit {n : Nat} {ds : List Char} (h : SpellsUnit n ds) : IsPiece ('\\' :: 'u' :: ds)

def IsString (cs : List Char) : Prop :=
  ∃ pieces : List (List Char), (∀ p ∈ pieces, IsPiece p) ∧ cs = '"' :: pieces.flatten ++ ['"']

/-! ## Numerals -/

def IsDigits (ds : List Char) : Prop :=
  ds ≠ [] ∧ ∀ d ∈ ds, d.isDigit = true

instance (ds : List Char) : Decidable (IsDigits ds) :=
  @instDecidableAnd _ _ _ (List.decidableBAll (·.isDigit = true) ds)

/-- Digits without a needless zero in front. -/
def IsWhole (ds : List Char) : Prop :=
  IsDigits ds ∧ (ds.head? = some '0' → ds = ['0'])

inductive IsFraction : List Char → Prop where
  | none : IsFraction []
  | point {ds : List Char} (h : IsDigits ds) : IsFraction ('.' :: ds)

inductive IsExponent : List Char → Prop where
  | none : IsExponent []
  | mark {e : Char} {sign ds : List Char} (he : e = 'e' ∨ e = 'E')
      (hsign : sign = [] ∨ sign = ['+'] ∨ sign = ['-']) (h : IsDigits ds) :
      IsExponent (e :: (sign ++ ds))

/-- A numeral without its sign. -/
inductive IsUnsigned : List Char → Prop where
  | parts {whole fraction exponent : List Char} (hw : IsWhole whole) (hf : IsFraction fraction)
      (he : IsExponent exponent) : IsUnsigned (whole ++ (fraction ++ exponent))

/-- A size is a natural number of 64 bits in decimal. -/
def SpellsSize (n : Nat) (cs : List Char) : Prop :=
  n < Nat.pow 2 64 ∧ cs = Nat.toDigits 10 n

/-! ## Values -/

def words : List (List Char) :=
  [['n', 'u', 'l', 'l'], ['t', 'r', 'u', 'e'], ['f', 'a', 'l', 's', 'e']]

/-- More items, each behind a comma. -/
inductive Tail : List (List Char) → List Char → Prop where
  | nil : Tail [] []
  | cons {item : List Char} {items : List (List Char)} {before after rest : List Char}
      (hbefore : Spaces before) (hafter : Spaces after) (hrest : Tail items rest) :
      Tail (item :: items) (',' :: (before ++ (item ++ (after ++ rest))))

/-- Items between brackets, with commas between them. -/
inductive Enclosed (opening closing : Char) : List (List Char) → List Char → Prop where
  | empty {blank : List Char} (h : Spaces blank) :
      Enclosed opening closing [] (opening :: (blank ++ [closing]))
  | items {item : List Char} {items : List (List Char)} {before after rest : List Char}
      (hbefore : Spaces before) (hafter : Spaces after) (hrest : Tail items rest) :
      Enclosed opening closing (item :: items)
        (opening :: (before ++ (item ++ (after ++ (rest ++ [closing])))))

/-- A member of an object as it is written. -/
structure Entry where
  key : List Char
  before : List Char
  after : List Char
  value : List Char
  spaces_before : Spaces before
  spaces_after : Spaces after

def Entry.text (e : Entry) : List Char :=
  e.key ++ (e.before ++ (':' :: (e.after ++ e.value)))

/-- A value that nobody reads. -/
inductive IsValue : List Char → Prop where
  | word {cs : List Char} (h : cs ∈ words) : IsValue cs
  | unsigned {cs : List Char} (h : IsUnsigned cs) : IsValue cs
  | minus {cs : List Char} (h : IsUnsigned cs) : IsValue ('-' :: cs)
  | string {cs : List Char} (h : IsString cs) : IsValue cs
  | list {items : List (List Char)} {cs : List Char} (h : Enclosed '[' ']' items cs)
      (values : ∀ item ∈ items, IsValue item) : IsValue cs
  | object {entries : List Entry} {cs : List Char}
      (h : Enclosed '{' '}' (entries.map Entry.text) cs)
      (keys : ∀ e ∈ entries, IsString e.key) (values : ∀ e ∈ entries, IsValue e.value) : IsValue cs

/-- A value, or null for none. -/
def SpellsOptional {α : Type} (spells : α → List Char → Prop) : Option α → List Char → Prop
  | none, cs => cs = ['n', 'u', 'l', 'l']
  | some a, cs => spells a cs

def SpellsList {α : Type} (spells : α → List Char → Prop) (as : List α) (cs : List Char) : Prop :=
  ∃ items, Enclosed '[' ']' items cs ∧ List.Forall₂ spells as items

/-! ## Objects that are read -/

/-- What may be written for one member of an object. -/
structure MemberForm where
  name : String
  /-- A second spelling of the name. -/
  otherName : Option String := none
  /-- The ways to write its value. -/
  value : List Char → Prop
  /-- It may be left out. -/
  optional : Prop := False

def MemberForm.keys (m : MemberForm) : List String :=
  m.name :: m.otherName.toList

/-- The entries are members in any order, none of them twice, and entries with unknown keys.  What
is left at the end may be left out. -/
inductive WritesMembers (declared : List MemberForm) : List MemberForm → List Entry → Prop where
  | done {left : List MemberForm} (h : ∀ m ∈ left, m.optional) : WritesMembers declared left []
  | member {before after : List MemberForm} {m : MemberForm} {key : String} {e : Entry}
      {entries : List Entry} (hkey : SpellsText key e.key) (hm : key ∈ m.keys)
      (hvalue : m.value e.value) (hrest : WritesMembers declared (before ++ after) entries) :
      WritesMembers declared (before ++ m :: after) (e :: entries)
  | unknown {left : List MemberForm} {key : String} {e : Entry} {entries : List Entry}
      (hkey : SpellsText key e.key) (hm : ∀ m ∈ declared, key ∉ m.keys)
      (hvalue : IsValue e.value) (hrest : WritesMembers declared left entries) :
      WritesMembers declared left (e :: entries)

/-- The items are the members in declared order, and what is left at the end may be left out. -/
inductive WritesInOrder : List MemberForm → List (List Char) → Prop where
  | done {left : List MemberForm} (h : ∀ m ∈ left, m.optional) : WritesInOrder left []
  | member {m : MemberForm} {left : List MemberForm} {item : List Char}
      {items : List (List Char)} (hvalue : m.value item) (hrest : WritesInOrder left items) :
      WritesInOrder (m :: left) (item :: items)

/-- An object with the given members, or the list of them. -/
inductive SpellsObject (declared : List MemberForm) : List Char → Prop where
  | object {entries : List Entry} {cs : List Char}
      (h : Enclosed '{' '}' (entries.map Entry.text) cs)
      (members : WritesMembers declared declared entries) : SpellsObject declared cs
  | list {items : List (List Char)} {cs : List Char} (h : Enclosed '[' ']' items cs)
      (members : WritesInOrder declared items) : SpellsObject declared cs

end Json
end RecordWire
