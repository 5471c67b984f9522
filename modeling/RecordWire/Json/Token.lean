import RecordWire.Json.Number
import RecordWire.Json.Text

/-!
Tokens of JSON.  A text that cannot be split any further ends in a broken token, which keeps what
is wrong; a reader that gets no further than the tokens before it never learns of it.
-/

namespace RecordWire
namespace Json

inductive Token where
  | openBrace
  | closeBrace
  | openBracket
  | closeBracket
  | comma
  | colon
  | null
  | boolean (b : Bool)
  | number (n : Number)
  /-- A string, and what it reads as. -/
  | text (reading : Except Fault String)
  | brokenText (reading skipping : Fault)
  /-- A broken numeral, and what is wrong for one who reads it.  One who skips it finds it malformed
  even where the text ends. -/
  | brokenNumeral (reading : Fault)
  /-- A broken word, or a character that starts no token. -/
  | broken (fault : Fault)

def isSpace (c : Char) : Bool :=
  c == ' ' || c == '\t' || c == '\n' || c == '\r'

def punctuation? (c : Char) : Option Token :=
  match c with
  | '{' => some .openBrace
  | '}' => some .closeBrace
  | '[' => some .openBracket
  | ']' => some .closeBracket
  | ',' => some .comma
  | ':' => some .colon
  | _ => none

/-- The rest of the word that starts with `c`, and its token. -/
def word? (c : Char) : Option (List Char × Token) :=
  match c with
  | 'n' => some (['u', 'l', 'l'], .null)
  | 't' => some (['r', 'u', 'e'], .boolean true)
  | 'f' => some (['a', 'l', 's', 'e'], .boolean false)
  | _ => none

def scanWord : List Char → List Char → Except Fault (List Char)
  | [], cs => .ok cs
  | _ :: _, [] => .error .truncated
  | w :: ws, c :: cs => if w = c then scanWord ws cs else .error .malformed

theorem scanWord_length {ws cs rest : List Char} (h : scanWord ws cs = .ok rest) :
    rest.length ≤ cs.length := by
  fun_induction scanWord ws cs with
  | case1 cs =>
    cases h
    exact Nat.le_refl _
  | case2 | case4 => cases h
  | case3 ws c cs ih => exact Nat.le_succ_of_le (ih h)

/-- Scans the one token that starts with `c`, which is not white space. -/
def scanToken (c : Char) (rest : List Char) : Token × List Char :=
  match punctuation? c with
  | some t => (t, rest)
  | none =>
    if c = '"' then
      match scanText {} rest with
      | .closed reading rest' => (.text reading, rest')
      | .broken reading skipping => (.brokenText reading skipping, [])
    else if c = '-' then
      match scanNumeral true rest with
      | .ok (x, rest') => (.number x.number, rest')
      | .error f => (.brokenNumeral f, [])
    else if c.isDigit then
      match scanNumeral false (c :: rest) with
      | .ok (x, rest') => (.number x.number, rest')
      | .error f => (.brokenNumeral f, [])
    else
      match word? c with
      | some (w, t) =>
        match scanWord w rest with
        | .ok rest' => (t, rest')
        | .error f => (.broken f, [])
      | none => (.broken .malformed, [])

theorem scanToken_length (c : Char) (rest : List Char) :
    (scanToken c rest).2.length ≤ rest.length := by
  unfold scanToken
  split
  · exact Nat.le_refl _
  · split
    · split
      · rename_i h
        exact Nat.le_of_lt (scanText_length h)
      · exact Nat.zero_le _
    · split
      · split
        · rename_i h
          exact Nat.le_of_lt (scanNumeral_length h)
        · exact Nat.zero_le _
      · split
        · split
          · rename_i h
            exact Nat.le_of_lt_succ (scanNumeral_length h)
          · exact Nat.zero_le _
        · split
          · split
            · rename_i h
              exact scanWord_length h
            · exact Nat.zero_le _
          · exact Nat.zero_le _

def tokens : List Char → List Token
  | [] => []
  | c :: rest =>
    if isSpace c then tokens rest
    else (scanToken c rest).1 :: tokens (scanToken c rest).2
termination_by cs => cs.length
decreasing_by
  · exact Nat.lt_succ_self _
  · exact Nat.lt_succ_of_le (scanToken_length c rest)

end Json
end RecordWire
