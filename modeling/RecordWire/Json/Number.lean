/-!
Numerals of JSON.  A number is kept as an integer while it fits in 64 bits.  Any other number only
has to lie in the range of a binary64 float, since no document has a use for its digits.
-/

namespace RecordWire
namespace Json

/-- Why a text is not JSON: it ends too early, or something in it is out of place. -/
inductive Fault where
  | truncated
  | malformed
  deriving DecidableEq

inductive Number where
  /-- Below `2 ^ 64`. -/
  | natural (n : Nat)
  /-- `-n`, with `n` positive and at most `2 ^ 63`. -/
  | negative (n : Nat)
  | fraction
  | outOfRange
  deriving DecidableEq

/-! ## Range -/

/-- The nearest number with 53 significant bits.  A tie goes to the even neighbour. -/
def roundTo53 (n : Nat) : Nat :=
  if n < Nat.pow 2 53 then n
  else
    let unit := Nat.pow 2 (n.log2 - 52)
    let q := n / unit
    let r := n % unit
    (if unit < 2 * r || (unit == 2 * r && q % 2 == 1) then q + 1 else q) * unit

/-- Whether `significand * 10 ^ exponent` overflows when both factors and their product are
rounded to binary64. -/
def overflows (significand : Nat) (exponent : Int) : Bool :=
  significand != 0 && 0 ≤ exponent &&
    (308 < exponent ||
      Nat.pow 2 1024 - Nat.pow 2 970 ≤
        roundTo53 significand * roundTo53 (Nat.pow 10 exponent.toNat))

def digitValue (c : Char) : Nat :=
  c.toNat - '0'.toNat

/-- Appends digits to a number below `2 ^ 64` until it would no longer fit, and counts the digits
that are left. -/
def appendDigits (n : Nat) : List Char → Nat × Nat
  | [] => (n, 0)
  | d :: rest =>
    let n' := n * 10 + digitValue d
    if n' < Nat.pow 2 64 then appendDigits n' rest else (n, rest.length + 1)

def digitsValue (digits : List Char) : Nat :=
  digits.foldl (fun n d => n * 10 + digitValue d) 0

/-! ## Numerals -/

structure Numeral where
  negative : Bool
  whole : List Char
  fraction : Option (List Char)
  /-- Whether the exponent is negative, and its digits. -/
  exponent : Option (Bool × List Char)

namespace Numeral

def isOutOfRange (x : Numeral) : Bool :=
  let (significand, surplus) := appendDigits 0 x.whole
  let decimals := x.fraction.getD []
  let (significand, unused) := appendDigits significand decimals
  let scale : Int := surplus - (decimals.length - unused : Nat)
  match x.exponent with
  | none => overflows significand scale
  | some (false, digits) => overflows significand (scale + digitsValue digits)
  | some (true, digits) => overflows significand (scale - digitsValue digits)

/-- The number that a numeral stands for.  A negative zero is no integer. -/
def number (x : Numeral) : Number :=
  let n := digitsValue x.whole
  let isInteger := x.fraction.isNone && x.exponent.isNone
  if isInteger && !x.negative && n < Nat.pow 2 64 then .natural n
  else if isInteger && x.negative && 0 < n && n ≤ Nat.pow 2 63 then .negative n
  else if x.isOutOfRange then .outOfRange
  else .fraction

end Numeral

/-- One digit or more, and what follows them. -/
def takeDigits (cs : List Char) : Except Fault (List Char × List Char) :=
  match cs.takeWhile Char.isDigit with
  | [] => .error (if cs.isEmpty then .truncated else .malformed)
  | d :: ds => .ok (d :: ds, cs.dropWhile Char.isDigit)

/-- Digits without a needless zero in front. -/
def takeWhole (cs : List Char) : Except Fault (List Char × List Char) :=
  match takeDigits cs with
  | .ok ('0' :: _ :: _, _) => .error .malformed
  | result => result

def takeFraction (cs : List Char) : Except Fault (Option (List Char) × List Char) :=
  match cs with
  | '.' :: rest =>
    match takeDigits rest with
    | .ok (digits, rest') => .ok (some digits, rest')
    | .error f => .error f
  | _ => .ok (none, cs)

/-- Whether a minus sign stands in front.  A plus sign may stand there too. -/
def takeSign : List Char → Bool × List Char
  | '-' :: rest => (true, rest)
  | '+' :: rest => (false, rest)
  | rest => (false, rest)

def takeExponent (cs : List Char) : Except Fault (Option (Bool × List Char) × List Char) :=
  match cs with
  | c :: rest =>
    if c = 'e' || c = 'E' then
      match takeDigits (takeSign rest).2 with
      | .ok (digits, rest') => .ok (some ((takeSign rest).1, digits), rest')
      | .error f => .error f
    else
      .ok (none, cs)
  | [] => .ok (none, cs)

/-- Scans a numeral after its sign. -/
def scanNumeral (negative : Bool) (cs : List Char) : Except Fault (Numeral × List Char) := do
  let (whole, cs) ← takeWhole cs
  let (fraction, cs) ← takeFraction cs
  let (exponent, cs) ← takeExponent cs
  pure (⟨negative, whole, fraction, exponent⟩, cs)

/-! ## What is left is shorter -/

theorem takeDigits_length {cs ds rest : List Char} (h : takeDigits cs = .ok (ds, rest)) :
    rest.length < cs.length := by
  unfold takeDigits at h
  split at h
  · cases h
  · rename_i d ds' hd
    cases h
    cases cs with
    | nil => cases hd
    | cons c cs =>
      rw [List.takeWhile_cons] at hd
      split at hd
      · rename_i hc
        rw [List.dropWhile_cons, if_pos hc]
        exact Nat.lt_succ_of_le (List.dropWhile_sublist _).length_le
      · cases hd

theorem takeWhole_length {cs ds rest : List Char} (h : takeWhole cs = .ok (ds, rest)) :
    rest.length < cs.length := by
  unfold takeWhole at h
  split at h
  · cases h
  · exact takeDigits_length h

theorem takeFraction_length {cs rest : List Char} {ds : Option (List Char)}
    (h : takeFraction cs = .ok (ds, rest)) : rest.length ≤ cs.length := by
  unfold takeFraction at h
  split at h
  · split at h
    · rename_i hd
      cases h
      exact Nat.le_succ_of_le (Nat.le_of_lt (takeDigits_length hd))
    · cases h
  · cases h
    exact Nat.le_refl _

theorem takeSign_length (cs : List Char) : (takeSign cs).2.length ≤ cs.length := by
  unfold takeSign
  split <;> simp

theorem takeExponent_length {cs rest : List Char} {ds : Option (Bool × List Char)}
    (h : takeExponent cs = .ok (ds, rest)) : rest.length ≤ cs.length := by
  unfold takeExponent at h
  split at h
  · rename_i c cs'
    split at h
    · split at h
      · rename_i hd
        cases h
        have hlt := takeDigits_length hd
        have hle := takeSign_length cs'
        simp only [List.length_cons]
        omega
      · cases h
    · cases h
      exact Nat.le_refl _
  · cases h
    exact Nat.le_refl _

theorem scanNumeral_length {negative : Bool} {cs rest : List Char} {x : Numeral}
    (h : scanNumeral negative cs = .ok (x, rest)) : rest.length < cs.length := by
  unfold scanNumeral at h
  cases hw : takeWhole cs with
  | error f => rw [hw] at h; cases h
  | ok w =>
    obtain ⟨whole, cs₁⟩ := w
    rw [hw] at h
    have h₁ := takeWhole_length hw
    change (takeFraction cs₁ >>= _) = _ at h
    cases hf : takeFraction cs₁ with
    | error f => rw [hf] at h; cases h
    | ok w =>
      obtain ⟨fraction, cs₂⟩ := w
      rw [hf] at h
      have h₂ := takeFraction_length hf
      change (takeExponent cs₂ >>= _) = _ at h
      cases he : takeExponent cs₂ with
      | error f => rw [he] at h; cases h
      | ok w =>
        obtain ⟨exponent, cs₃⟩ := w
        rw [he] at h
        have h₃ := takeExponent_length he
        cases h
        omega

end Json
end RecordWire
