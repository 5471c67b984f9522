import RecordWire.Json.Token

/-!
Skipping a value.  The brackets that are open are kept on a stack, so that a value may be nested to
any depth.
-/

namespace RecordWire
namespace Json

inductive Bracket where
  | list
  | object
  deriving DecidableEq

/-- What may come next. -/
inductive Expecting where
  | value
  /-- The first element of a list, or its end. -/
  | firstElement
  /-- The first member of an object, or its end. -/
  | firstMember
  | key
  | colon
  /-- A comma or the closing bracket. -/
  | separator
  deriving DecidableEq

/-- The open brackets, innermost first, and what may come next in them. -/
structure Skipping where
  expecting : Expecting
  brackets : List Bracket
  deriving DecidableEq

namespace Skipping

def start : Skipping :=
  ⟨.value, []⟩

/-- The value is complete once only a separator may follow and no bracket is open. -/
def isDone (s : Skipping) : Bool :=
  s.expecting == .separator && s.brackets.isEmpty

def startValue (brackets : List Bracket) : Token → Except Fault Skipping
  | .null | .boolean _ | .number _ | .text _ => .ok ⟨.separator, brackets⟩
  | .openBracket => .ok ⟨.firstElement, .list :: brackets⟩
  | .openBrace => .ok ⟨.firstMember, .object :: brackets⟩
  | .brokenText _ f | .broken f => .error f
  | .brokenNumeral _ | .closeBrace | .closeBracket | .comma | .colon => .error .malformed

def startMember (brackets : List Bracket) : Token → Except Fault Skipping
  | .text _ => .ok ⟨.colon, brackets⟩
  | .brokenText _ f => .error f
  | _ => .error .malformed

def afterItem : List Bracket → Token → Except Fault Skipping
  | .list :: brackets, .comma => .ok ⟨.value, .list :: brackets⟩
  | .list :: brackets, .closeBracket => .ok ⟨.separator, brackets⟩
  | .object :: brackets, .comma => .ok ⟨.key, .object :: brackets⟩
  | .object :: brackets, .closeBrace => .ok ⟨.separator, brackets⟩
  | _, _ => .error .malformed

def step (s : Skipping) (t : Token) : Except Fault Skipping :=
  match s.expecting, t with
  | .value, t => startValue s.brackets t
  | .firstElement, .closeBracket | .firstMember, .closeBrace => afterItem s.brackets t
  | .firstElement, t => startValue s.brackets t
  | .firstMember, t | .key, t => startMember s.brackets t
  | .colon, .colon => .ok ⟨.value, s.brackets⟩
  | .colon, _ => .error .malformed
  | .separator, t => afterItem s.brackets t

end Skipping

/-- Skips the rest of a value. -/
def skipFrom (s : Skipping) : List Token → Except Fault (List Token)
  | [] => if s.isDone then .ok [] else .error .truncated
  | t :: ts =>
    if s.isDone then .ok (t :: ts)
    else
      match s.step t with
      | .ok s' => skipFrom s' ts
      | .error f => .error f

/-- Skips one value. -/
def skip (ts : List Token) : Except Fault (List Token) :=
  skipFrom .start ts

theorem skipFrom_length {s : Skipping} {ts rest : List Token} (h : skipFrom s ts = .ok rest) :
    rest.length ≤ ts.length := by
  induction ts generalizing s with
  | nil =>
    unfold skipFrom at h
    split at h <;> cases h
    exact Nat.le_refl _
  | cons t ts ih =>
    unfold skipFrom at h
    split at h
    · cases h
      exact Nat.le_refl _
    · split at h
      · exact Nat.le_succ_of_le (ih h)
      · cases h

end Json
end RecordWire
