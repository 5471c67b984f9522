import RecordWire.Json.Number

/-!
Strings of JSON.  One scan serves both readers: the one that needs the text, and the one that only
skips it.  Skipping asks less, since an escaped surrogate may then stand alone, so the scan keeps
the first reason why the text cannot be read and goes on to its end.
-/

namespace RecordWire
namespace Json

def hexDigit? (c : Char) : Option Nat :=
  if '0' ≤ c && c ≤ '9' then some (c.toNat - '0'.toNat)
  else if 'a' ≤ c && c ≤ 'f' then some (c.toNat - 'a'.toNat + 10)
  else if 'A' ≤ c && c ≤ 'F' then some (c.toNat - 'A'.toNat + 10)
  else none

def hexValue? (a b c d : Char) : Option Nat := do
  let a ← hexDigit? a
  let b ← hexDigit? b
  let c ← hexDigit? c
  let d ← hexDigit? d
  pure (((a * 16 + b) * 16 + c) * 16 + d)

def simpleEscape? (c : Char) : Option Char :=
  match c with
  | '"' => some '"'
  | '\\' => some '\\'
  | '/' => some '/'
  | 'b' => some '\x08'
  | 'f' => some '\x0c'
  | 'n' => some '\n'
  | 'r' => some '\r'
  | 't' => some '\t'
  | _ => none

def isLeadSurrogate (n : Nat) : Bool :=
  0xd800 ≤ n && n ≤ 0xdbff

def isTrailSurrogate (n : Nat) : Bool :=
  0xdc00 ≤ n && n ≤ 0xdfff

def joinSurrogates (lead trail : Nat) : Char :=
  Char.ofNat (0x10000 + (lead - 0xd800) * 0x400 + (trail - 0xdc00))

/-- State of a scan. -/
structure TextScan where
  /-- The text so far, last character first. -/
  chars : List Char := []
  /-- A lead surrogate that waits for its trail. -/
  lead : Option Nat := none
  /-- The first reason why the text cannot be read. -/
  fault : Option Fault := none

inductive TextEnd where
  /-- The closing quote was found. -/
  | closed (reading : Except Fault String) (rest : List Char)
  /-- The string is broken, for one who reads it and for one who skips it. -/
  | broken (reading skipping : Fault)

namespace TextScan

def fail (s : TextScan) (f : Fault) : TextScan :=
  { s with lead := none, fault := some (s.fault.getD f) }

def push (s : TextScan) (c : Char) : TextScan :=
  match s.lead with
  | some _ => s.fail .malformed
  | none => { s with chars := c :: s.chars }

/-- Takes the value of a `\u` escape. -/
def pushUnit (s : TextScan) (n : Nat) : TextScan :=
  match s.lead with
  | some lead =>
    if isTrailSurrogate n then
      { s with lead := none, chars := joinSurrogates lead n :: s.chars }
    else
      s.fail .malformed
  | none =>
    if isLeadSurrogate n then { s with lead := some n }
    else if isTrailSurrogate n then s.fail .malformed
    else { s with chars := Char.ofNat n :: s.chars }

def close (s : TextScan) (rest : List Char) : TextEnd :=
  match s.lead, s.fault with
  | _, some f => .closed (.error f) rest
  | some _, none => .closed (.error .malformed) rest
  | none, none => .closed (.ok (String.ofList s.chars.reverse)) rest

def broken (s : TextScan) (f : Fault) : TextEnd :=
  .broken (s.fault.getD f) f

end TextScan

/-- Scans a string after its opening quote.  A `\u` escape is cut short when fewer than four bytes
of UTF-8 follow it, whatever they are. -/
def scanText (s : TextScan) : List Char → TextEnd
  | [] => s.broken .truncated
  | c :: rest =>
    if c = '"' then s.close rest
    else if c = '\\' then
      match rest with
      | [] => s.broken .truncated
      | 'u' :: w :: x :: y :: z :: rest =>
        match hexValue? w x y z with
        | some n => scanText (s.pushUnit n) rest
        | none => s.broken .malformed
      | 'u' :: rest =>
        s.broken (if rest.foldl (fun n c => n + c.utf8Size) 0 < 4 then .truncated else .malformed)
      | e :: rest =>
        match simpleEscape? e with
        | some x => scanText (s.push x) rest
        | none => s.broken .malformed
    else if c.toNat < 0x20 then s.broken .malformed
    else scanText (s.push c) rest

theorem close_rest {s : TextScan} {rest rest' : List Char} {reading : Except Fault String}
    (h : s.close rest = .closed reading rest') : rest' = rest := by
  unfold TextScan.close at h
  split at h <;> cases h <;> rfl

theorem scanText_length {s : TextScan} {cs rest : List Char} {reading : Except Fault String}
    (h : scanText s cs = .closed reading rest) : rest.length < cs.length := by
  fun_induction scanText s cs with
  | case1 | case3 | case5 | case6 | case8 | case9 => cases h
  | case2 s rest' =>
    rw [close_rest h]
    exact Nat.lt_succ_self _
  | case4 | case7 | case10 =>
    rename_i ih
    have := ih h
    simp only [List.length_cons]
    omega

end Json
end RecordWire
