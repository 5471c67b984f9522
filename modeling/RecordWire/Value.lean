import RecordWire.Primitive

/-!
Values that travel on the wire.  A scalar is the bit pattern of a primitive, a list holds the
elements of a fixed array or of a sequence, and a record has its fields by identifier.
-/

namespace RecordWire

inductive Value where
  | scalar (type : Primitive) (bits : BitVec type.width)
  | list (items : List Value)
  | record (fields : List (String × Value))

/-- The fields of a record in declared order. -/
abbrev Fields := List (String × Value)

namespace Value

def items : Value → List Value
  | list items => items
  | _ => []

def fields : Value → Fields
  | record fields => fields
  | _ => []

def zero (p : Primitive) : Value :=
  scalar p 0

/-- The byte of a scalar that is one byte wide. -/
def toByte : Value → UInt8
  | scalar _ bits => UInt8.ofNat bits.toNat
  | _ => 0

def ofByte (p : Primitive) (b : UInt8) : Value :=
  scalar p (BitVec.ofNat p.width b.toNat)

/-- The number of elements that a value stands for when it counts a sequence. -/
def sequenceLength : Value → Nat
  | scalar p bits => p.sequenceLength bits
  | _ => 0

end Value

namespace Fields

def get (fields : Fields) (ident : String) : Value :=
  (fields.lookup ident).getD (.list [])

/-- Replaces the value of the first field of that name. -/
def set (ident : String) (value : Value) : Fields → Fields
  | [] => []
  | (name, old) :: rest =>
    if name = ident then (name, value) :: rest else (name, old) :: set ident value rest

end Fields

/-! ## Equality of values

Scalars that are floats compare as numbers: the two zeros are equal and a NaN differs from itself.
-/

namespace Primitive

/-- The bits of a float below the sign. -/
def magnitude (p : Primitive) (bits : BitVec p.width) : Nat :=
  bits.toNat % Nat.pow 2 (p.width - 1)

/-- The magnitude of infinity.  A greater one is a NaN. -/
def infinity : Primitive → Nat
  | float => 0xff * Nat.pow 2 23
  | _ => 0x7ff * Nat.pow 2 52

def equal (p : Primitive) (a b : BitVec p.width) : Bool :=
  if p.isFloat then
    p.magnitude a ≤ p.infinity && p.magnitude b ≤ p.infinity &&
      (a.toNat == b.toNat || (p.magnitude a == 0 && p.magnitude b == 0))
  else
    a.toNat == b.toNat

end Primitive

mutual

def Value.equal : Value → Value → Bool
  | .scalar p a, .scalar q b => if h : p = q then p.equal a (h ▸ b) else false
  | .list as, .list bs => equalItems as bs
  | .record as, .record bs => equalFields as bs
  | _, _ => false

def equalItems : List Value → List Value → Bool
  | [], [] => true
  | a :: as, b :: bs => a.equal b && equalItems as bs
  | _, _ => false

def equalFields : List (String × Value) → List (String × Value) → Bool
  | [], [] => true
  | (m, a) :: as, (n, b) :: bs => m == n && a.equal b && equalFields as bs
  | _, _ => false

end

end RecordWire
