import RecordWire.Text.Visible

/-!
Blank characters and lines.  Blank means the Unicode property White_Space, so a no-break space and
an ideographic space are blank and a zero-width space is not.  A line feed ends a line, and a
carriage return right before it belongs to the line end.  A text that ends in a line feed has no
empty line after it.
-/

namespace RecordWire
namespace Text

/-! ## Blank characters -/

def blankRanges : List (Nat × Nat) :=
  [(0x9, 0xd), (0x20, 0x20), (0x85, 0x85), (0xa0, 0xa0), (0x1680, 0x1680), (0x2000, 0x200a),
  (0x2028, 0x2029), (0x202f, 0x202f), (0x205f, 0x205f), (0x3000, 0x3000)]

def isBlank (c : Char) : Bool :=
  inRanges blankRanges c.toNat

def dropBlankStart (cs : List Char) : List Char :=
  cs.dropWhile isBlank

def dropBlankEnd (cs : List Char) : List Char :=
  (cs.reverse.dropWhile isBlank).reverse

def trim (s : String) : String :=
  String.ofList (dropBlankEnd (dropBlankStart s.toList))

def trimEnd (s : String) : String :=
  String.ofList (dropBlankEnd s.toList)

/-- No character of the text is anything but blank. -/
def allBlank (s : String) : Bool :=
  s.toList.all isBlank

/-! ## Lines -/

def dropReturn (line : List Char) : List Char :=
  match line.reverse with
  | '\r' :: rest => rest.reverse
  | _ => line

/-- Splits at line feeds.  `line` holds what has been read of the current line, last character
first. -/
def splitLines (line : List Char) : List Char → List (List Char)
  | [] => if line.isEmpty then [] else [line.reverse]
  | c :: rest =>
    if c = '\n' then dropReturn line.reverse :: splitLines [] rest
    else splitLines (c :: line) rest

def lines (s : String) : List String :=
  (splitLines [] s.toList).map String.ofList

/-- Every line followed by a line feed. -/
def unlines (ls : List String) : String :=
  String.join (ls.map (· ++ "\n"))

/-- Four spaces in front of a line.  An empty line stays empty. -/
def indent (line : String) : String :=
  if line.isEmpty then line else "    " ++ line

/-! ## Braces -/

def braced (inner : String) : String :=
  String.ofList ['{'] ++ inner ++ String.ofList ['}']

/-- A line that opens a block. -/
def opened (head : String) : String :=
  head ++ String.ofList [' ', '{']

/-- The end of a block. -/
def closing : String :=
  String.ofList ['}']

end Text
end RecordWire
