import RecordWire.Text.Case

/-!
Names of records and fields, and the Rust identifiers made from them.  Fields become snake case
and records become Pascal case.  The conversions look at Unicode case to find word boundaries but
change ASCII letters only.
-/

namespace RecordWire
namespace Name

/-! ## Case conversion -/

/-- A capital opens a word after a small letter or a digit, and after another capital when a small
letter follows, as the `C` of `HTTPCode` does. -/
def opensWord (before : Option Char) (c : Char) (after : List Char) : Bool :=
  Text.isUpper c &&
    match before with
    | none => false
    | some b =>
      Text.isLower b || b.isDigit || (Text.isUpper b && after.head?.any Text.isLower)

/-- Snake case of the rest of a name.  `before` is the character just read, and `barred` says
whether the text written so far ends in a low bar. -/
def snakeChars (before : Option Char) (barred : Bool) : List Char → List Char
  | [] => []
  | c :: rest =>
    if c = '-' ∨ c = ' ' then
      '_' :: snakeChars (some c) true rest
    else
      let low := c.toLower
      let tail := low :: snakeChars (some c) (low == '_') rest
      if opensWord before c rest && !barred then '_' :: tail else tail

def snake (s : String) : String :=
  String.ofList (snakeChars none false s.toList)

def pascalChars (capital : Bool) : List Char → List Char
  | [] => []
  | c :: rest =>
    if c = '_' ∨ c = '-' then
      pascalChars true rest
    else
      (if capital then c.toUpper else c) :: pascalChars false rest

def pascal (s : String) : String :=
  String.ofList (pascalChars true s.toList)

/-! ## Identifiers -/

def keywords : List String :=
  ["abstract", "as", "async", "await", "become", "box", "break", "const", "continue", "do",
  "dyn", "else", "enum", "extern", "false", "final", "fn", "for", "gen", "if", "impl", "in",
  "let", "loop", "macro", "match", "mod", "move", "mut", "override", "priv", "pub", "ref",
  "return", "static", "struct", "trait", "true", "try", "type", "typeof", "unsafe", "unsized",
  "use", "virtual", "where", "while", "yield"]

/-- Keywords that cannot be written as raw identifiers. -/
def reserved : List String :=
  ["crate", "self", "Self", "super"]

def isKeyword (s : String) : Bool :=
  keywords.contains s || reserved.contains s

/-- A Rust identifier for a field or a module.  Keywords become raw identifiers, and those that
cannot get a low bar at the end. -/
def fieldIdent (s : String) : String :=
  if reserved.contains s then s ++ "_"
  else if keywords.contains s then "r#" ++ s
  else s

/-- A Rust identifier for a record type. -/
def typeIdent (s : String) : String :=
  let name := pascal s
  if reserved.contains name then name ++ "_" else name

/-! ## Well-formed names -/

def isStart (c : Char) : Bool :=
  c.isAlpha || c == '_'

def isPart (c : Char) : Bool :=
  c.isAlphanum || c == '_'

def isPartOrDash (c : Char) : Bool :=
  isPart c || c == '-'

/-- An ASCII identifier in which dashes may stand after the first character.  A low bar alone is
none. -/
def isIdentifier (s : String) : Bool :=
  match s.toList with
  | [] => false
  | c :: rest => isStart c && s != "_" && rest.all isPartOrDash

/-- An ASCII identifier without dashes. -/
def isPlain (s : String) : Bool :=
  isIdentifier s && !s.toList.contains '-'

end Name
end RecordWire
