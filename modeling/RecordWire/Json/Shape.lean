import RecordWire.Json.Skip
import RecordWire.Text.Visible

/-!
Reading tokens as values of a given shape.  Tokens are read from left to right and the first
problem decides, so a value of the wrong type is reported although the text may be broken further
on.  An object may also be written as the list of its members in their declared order.
-/

namespace RecordWire
namespace Json

/-- What stands where something else was expected. -/
inductive Found where
  | null
  | boolean (b : Bool)
  | integer (n : Int)
  /-- A number that is no integer.  Messages leave its digits out. -/
  | fraction
  | text (s : String)
  | list
  | object
  deriving DecidableEq

def Found.description : Found → String
  | null => "null"
  | boolean b => if b then "boolean `true`" else "boolean `false`"
  | integer n => s!"integer `{n}`"
  | fraction => "floating point `_`"
  | text s => "string " ++ Text.quoted s
  | list => "sequence"
  | object => "map"

/-- Why a value does not have its shape. -/
inductive Mismatch where
  | wrongType (found : Found) (expected : String)
  | wrongValue (found : Found) (expected : String)
  | missingMember (name : String)
  | repeatedMember (name : String)
  /-- The list form of an object ends before the required member at `position`. -/
  | tooFewMembers (position : Nat) (expected : String) (members : Nat)
  deriving DecidableEq

def Mismatch.message : Mismatch → String
  | wrongType found expected => s!"invalid type: {found.description}, expected {expected}"
  | wrongValue found expected => s!"invalid value: {found.description}, expected {expected}"
  | missingMember name => s!"missing field `{name}`"
  | repeatedMember name => s!"duplicate field `{name}`"
  | tooFewMembers position expected members =>
    s!"invalid length {position}, expected {expected} with {members} elements"

inductive ReadError where
  | fault (f : Fault)
  | mismatch (m : Mismatch)
  deriving DecidableEq

/-- The error for a token that cannot start what was expected.  A scalar is read first, so a broken
one is a fault. -/
def Token.unexpected (expected : String) : Token → ReadError
  | .null => .mismatch (.wrongType .null expected)
  | .boolean b => .mismatch (.wrongType (.boolean b) expected)
  | .number (.natural n) => .mismatch (.wrongType (.integer n) expected)
  | .number (.negative n) => .mismatch (.wrongType (.integer (-n)) expected)
  | .number .fraction => .mismatch (.wrongType .fraction expected)
  | .number .outOfRange => .fault .malformed
  | .text (.ok s) => .mismatch (.wrongType (.text s) expected)
  | .text (.error f) | .brokenText f _ | .brokenNumeral f | .broken f => .fault f
  | .openBracket => .mismatch (.wrongType .list expected)
  | .openBrace => .mismatch (.wrongType .object expected)
  | .closeBrace | .closeBracket | .comma | .colon => .fault .malformed

/-- A reader that uses up at least one token when it succeeds. -/
structure Shape (α : Type) where
  read : List Token → Except ReadError (α × List Token)
  shrinks : ∀ {ts : List Token} {a : α} {rest : List Token},
    read ts = .ok (a, rest) → rest.length < ts.length

namespace Shape

variable {α β : Type}

/-- A value that is a single token. -/
def ofToken (accept : Token → Except ReadError α) : Shape α where
  read
    | [] => .error (.fault .truncated)
    | t :: ts =>
      match accept t with
      | .ok a => .ok (a, ts)
      | .error e => .error e
  shrinks {ts a rest} h := by
    cases ts with
    | nil => cases h
    | cons t ts =>
      dsimp only at h
      split at h <;> cases h
      exact Nat.lt_succ_self _

def map (f : α → β) (shape : Shape α) : Shape β where
  read ts :=
    match shape.read ts with
    | .ok (a, rest) => .ok (f a, rest)
    | .error e => .error e
  shrinks {ts a rest} h := by
    split at h
    · rename_i heq
      cases h
      exact shape.shrinks heq
    · cases h

def text : Shape String :=
  ofToken fun
    | .text (.ok s) => .ok s
    | t => .error (t.unexpected "a string")

/-- A string, or null for none. -/
def optionalText : Shape (Option String) :=
  ofToken fun
    | .null => .ok none
    | .text (.ok s) => .ok (some s)
    | t => .error (t.unexpected "a string")

/-- A machine size, or null for none. -/
def optionalSize : Shape (Option Nat) :=
  ofToken fun
    | .null => .ok none
    | .number (.natural n) => .ok (some n)
    | .number (.negative n) => .error (.mismatch (.wrongValue (.integer (-n)) "usize"))
    | t => .error (t.unexpected "usize")

/-- The elements after the first, and the end of the list. -/
def readElements (item : Shape α) (ts : List Token) : Except ReadError (List α × List Token) :=
  match ts with
  | [] => .error (.fault .truncated)
  | .closeBracket :: rest => .ok ([], rest)
  | .comma :: rest =>
    match _hread : item.read rest with
    | .error e => .error e
    | .ok (a, rest') =>
      match readElements item rest' with
      | .error e => .error e
      | .ok (as, rest'') => .ok (a :: as, rest'')
  | _ :: _ => .error (.fault .malformed)
termination_by ts.length
decreasing_by
  have := item.shrinks _hread
  simp only [List.length_cons]
  omega

theorem readElements_length {item : Shape α} {ts rest : List Token} {as : List α}
    (h : readElements item ts = .ok (as, rest)) : rest.length < ts.length := by
  fun_induction readElements item ts generalizing as with
  | case1 | case3 | case4 | case6 => cases h
  | case2 =>
    cases h
    exact Nat.lt_succ_self _
  | case5 rest' a rest'' hread as' rest₃ heq ih =>
    cases h
    have h₁ := item.shrinks hread
    have h₂ := ih heq
    simp only [List.length_cons]
    omega

def readList (item : Shape α) (ts : List Token) : Except ReadError (List α × List Token) :=
  match ts with
  | [] => .error (.fault .truncated)
  | .openBracket :: .closeBracket :: rest => .ok ([], rest)
  | .openBracket :: rest =>
    match item.read rest with
    | .error e => .error e
    | .ok (a, rest') =>
      match readElements item rest' with
      | .error e => .error e
      | .ok (as, rest'') => .ok (a :: as, rest'')
  | t :: _ => .error (t.unexpected "a sequence")

def list (item : Shape α) : Shape (List α) where
  read := readList item
  shrinks {ts as rest} h := by
    unfold readList at h
    split at h
    · cases h
    · cases h
      simp only [List.length_cons]
      omega
    · split at h
      · cases h
      · rename_i hread
        split at h
        · cases h
        · rename_i hrest
          cases h
          have h₁ := item.shrinks hread
          have h₂ := readElements_length hrest
          simp only [List.length_cons]
          omega
    · cases h

end Shape

/-! ## Objects -/

/-- A member of an object that is read into a value of type `σ`. -/
structure Member (σ : Type) where
  name : String
  /-- A second spelling of the name. -/
  otherName : Option String := none
  required : Bool := false
  value : Shape (σ → σ)

structure ObjectShape (σ : Type) where
  title : String
  members : List (Member σ)
  /-- What an object without members reads as. -/
  blank : σ

namespace ObjectShape

variable {σ : Type}

def member? (o : ObjectShape σ) (key : String) : Option (Member σ) :=
  o.members.find? fun m => m.name == key || m.otherName == some key

/-- The members read so far, and the value they make. -/
structure Progress (σ : Type) where
  seen : List String
  value : σ

/-- Reads a member after its key.  A member that comes a second time is refused at its key, and the
value of an unknown key is skipped. -/
def readValue (o : ObjectShape σ) (p : Progress σ) (key : String) (ts : List Token) :
    Except ReadError (Progress σ × List Token) :=
  match o.member? key with
  | some m =>
    if p.seen.contains m.name then .error (.mismatch (.repeatedMember m.name))
    else
      match ts with
      | .colon :: rest =>
        match m.value.read rest with
        | .ok (update, rest') => .ok (⟨m.name :: p.seen, update p.value⟩, rest')
        | .error e => .error e
      | [] => .error (.fault .truncated)
      | _ :: _ => .error (.fault .malformed)
  | none =>
    match ts with
    | .colon :: rest =>
      match skip rest with
      | .ok rest' => .ok (p, rest')
      | .error f => .error (.fault f)
    | [] => .error (.fault .truncated)
    | _ :: _ => .error (.fault .malformed)

def readMember (o : ObjectShape σ) (p : Progress σ) (ts : List Token) :
    Except ReadError (Progress σ × List Token) :=
  match ts with
  | .text (.ok key) :: rest => o.readValue p key rest
  | .text (.error f) :: _ | .brokenText f _ :: _ => .error (.fault f)
  | [] => .error (.fault .truncated)
  | _ :: _ => .error (.fault .malformed)

/-- Ends an object.  Every required member must have been read. -/
def finish (o : ObjectShape σ) (p : Progress σ) : Except ReadError σ :=
  match o.members.find? fun m => m.required && !p.seen.contains m.name with
  | some m => .error (.mismatch (.missingMember m.name))
  | none => .ok p.value

theorem readValue_length {o : ObjectShape σ} {p p' : Progress σ} {key : String}
    {ts rest : List Token} (h : o.readValue p key ts = .ok (p', rest)) :
    rest.length < ts.length := by
  unfold readValue at h
  split at h
  · split at h
    · cases h
    · split at h
      · split at h
        · rename_i hread
          cases h
          exact Nat.lt_succ_of_lt (Shape.shrinks _ hread)
        · cases h
      · cases h
      · cases h
  · split at h
    · split at h
      · rename_i hskip
        cases h
        exact Nat.lt_succ_of_le (skipFrom_length hskip)
      · cases h
    · cases h
    · cases h

theorem readMember_length {o : ObjectShape σ} {p p' : Progress σ} {ts rest : List Token}
    (h : o.readMember p ts = .ok (p', rest)) : rest.length < ts.length := by
  unfold readMember at h
  split at h
  · exact Nat.lt_succ_of_lt (readValue_length h)
  all_goals cases h

/-- Reads the members from here on, and the end of the object. -/
def readMembers (o : ObjectShape σ) (p : Progress σ) (ts : List Token) :
    Except ReadError (σ × List Token) :=
  match _hmember : o.readMember p ts with
  | .error e => .error e
  | .ok (p', .comma :: rest) => readMembers o p' rest
  | .ok (p', .closeBrace :: rest) =>
    match o.finish p' with
    | .ok value => .ok (value, rest)
    | .error e => .error e
  | .ok (_, []) => .error (.fault .truncated)
  | .ok (_, _ :: _) => .error (.fault .malformed)
termination_by ts.length
decreasing_by
  have := readMember_length _hmember
  simp only [List.length_cons] at this
  omega

/-- The tokens of the next element in a list, or none at its end.  `first` says that no comma is
due. -/
def nextElement (first : Bool) (ts : List Token) : Except Fault (Option (List Token)) :=
  match ts with
  | [] => .error .truncated
  | .closeBracket :: _ => .ok none
  | .comma :: rest => .ok (some (if first then ts else rest))
  | _ :: _ => if first then .ok (some ts) else .error .malformed

/-- Reads the list form of an object.  `position` counts the members already passed. -/
def readPositional (o : ObjectShape σ) (position : Nat) (value : σ) (first : Bool) :
    List (Member σ) → List Token → Except ReadError (σ × List Token)
  | [], ts =>
    match ts with
    | .closeBracket :: rest => .ok (value, rest)
    | [] => .error (.fault .truncated)
    | _ :: _ => .error (.fault .malformed)
  | m :: members, ts =>
    match nextElement first ts with
    | .error f => .error (.fault f)
    | .ok none =>
      if m.required then
        .error (.mismatch (.tooFewMembers position o.title o.members.length))
      else
        readPositional o (position + 1) value first members ts
    | .ok (some element) =>
      match m.value.read element with
      | .error e => .error e
      | .ok (update, rest) => readPositional o (position + 1) (update value) false members rest

def read (o : ObjectShape σ) (ts : List Token) : Except ReadError (σ × List Token) :=
  match ts with
  | [] => .error (.fault .truncated)
  | .openBrace :: .closeBrace :: rest =>
    match o.finish ⟨[], o.blank⟩ with
    | .ok value => .ok (value, rest)
    | .error e => .error e
  | .openBrace :: rest => o.readMembers ⟨[], o.blank⟩ rest
  | .openBracket :: rest => o.readPositional 0 o.blank true o.members rest
  | t :: _ => .error (t.unexpected o.title)

theorem readMembers_length {o : ObjectShape σ} {p : Progress σ} {ts rest : List Token} {value : σ}
    (h : o.readMembers p ts = .ok (value, rest)) : rest.length < ts.length := by
  fun_induction readMembers o p ts with
  | case1 | case4 | case5 | case6 => cases h
  | case2 p ts p' rest' hmember ih =>
    have h₁ := readMember_length hmember
    have h₂ := ih h
    simp only [List.length_cons] at h₁
    omega
  | case3 p ts p' rest' hmember value' hfinish =>
    cases h
    have h₁ := readMember_length hmember
    simp only [List.length_cons] at h₁
    omega

theorem nextElement_length {first : Bool} {ts element : List Token}
    (h : nextElement first ts = .ok (some element)) : element.length ≤ ts.length := by
  unfold nextElement at h
  split at h
  · cases h
  · cases h
  · split at h <;> cases h <;> simp
  · split at h <;> cases h
    exact Nat.le_refl _

theorem readPositional_length {o : ObjectShape σ} {position : Nat} {value value' : σ}
    {first : Bool} {members : List (Member σ)} {ts rest : List Token}
    (h : o.readPositional position value first members ts = .ok (value', rest)) :
    rest.length < ts.length := by
  induction members generalizing position value first ts with
  | nil =>
    unfold readPositional at h
    split at h <;> cases h
    exact Nat.lt_succ_self _
  | cons m members ih =>
    unfold readPositional at h
    split at h
    · cases h
    · split at h
      · cases h
      · exact ih h
    · rename_i hnext
      split at h
      · cases h
      · rename_i hread
        have h₁ := nextElement_length hnext
        have h₂ := m.value.shrinks hread
        have h₃ := ih h
        omega

def shape (o : ObjectShape σ) : Shape σ where
  read := o.read
  shrinks {ts value rest} h := by
    unfold read at h
    split at h
    · cases h
    · split at h <;> cases h
      simp only [List.length_cons]
      omega
    · exact Nat.lt_succ_of_lt (readMembers_length h)
    · exact Nat.lt_succ_of_lt (readPositional_length h)
    · cases h

end ObjectShape
end Json
end RecordWire
