/-!
The fixed-width primitive types of a schema.
-/

namespace RecordWire

inductive Primitive where
  | char
  | int8
  | int16
  | int32
  | int64
  | uint8
  | uint16
  | uint32
  | uint64
  | float
  | double
  deriving DecidableEq

namespace Primitive

def spellings : List (String × Primitive) :=
  [("char", char),
  ("int8", int8), ("qint8", int8), ("i8", int8),
  ("int16", int16), ("qint16", int16), ("i16", int16),
  ("int32", int32), ("qint32", int32), ("i32", int32),
  ("int64", int64), ("qint64", int64), ("i64", int64),
  ("uint8", uint8), ("quint8", uint8), ("u8", uint8),
  ("uint16", uint16), ("quint16", uint16), ("u16", uint16),
  ("uint32", uint32), ("quint32", uint32), ("u32", uint32),
  ("uint64", uint64), ("quint64", uint64), ("u64", uint64),
  ("float", float), ("f32", float),
  ("double", double), ("f64", double)]

def ofName? (s : String) : Option Primitive :=
  spellings.lookup s

/-- Bytes on the wire and in memory. -/
def size : Primitive → Nat
  | char | int8 | uint8 => 1
  | int16 | uint16 => 2
  | int32 | uint32 | float => 4
  | int64 | uint64 | double => 8

def rustType : Primitive → String
  | char | uint8 => "u8"
  | int8 => "i8"
  | int16 => "i16"
  | int32 => "i32"
  | int64 => "i64"
  | uint16 => "u16"
  | uint32 => "u32"
  | uint64 => "u64"
  | float => "f32"
  | double => "f64"

def isSigned : Primitive → Bool
  | int8 | int16 | int32 | int64 => true
  | _ => false

def isUnsigned : Primitive → Bool
  | uint8 | uint16 | uint32 | uint64 => true
  | _ => false

/-- Only an integer can count the elements of a sequence, so a `char` is not one. -/
def isInteger (p : Primitive) : Bool :=
  p.isSigned || p.isUnsigned

def isFloat : Primitive → Bool
  | float | double => true
  | _ => false

/-- Arrays of these are blocks of raw bytes. -/
def isByte : Primitive → Bool
  | char | uint8 => true
  | _ => false

def zeroLiteral (p : Primitive) : String :=
  if p.isFloat then "0.0" else "0"

/-- Bits of a value.  A value of a primitive type is its bit pattern, which keeps the payload of
every NaN. -/
abbrev width (p : Primitive) : Nat :=
  8 * p.size

/-- The number of elements that a count stands for.  A negative count stands for none. -/
def sequenceLength (p : Primitive) (bits : BitVec p.width) : Nat :=
  if p.isSigned then bits.toInt.toNat else bits.toNat

end Primitive
end RecordWire
