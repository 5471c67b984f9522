/-!
Byte order of a stream, and words of any size as bytes in that order.
-/

namespace RecordWire

inductive ByteOrder where
  | bigEndian
  | littleEndian
  deriving DecidableEq

namespace ByteOrder

def name : ByteOrder → String
  | bigEndian => "BigEndian"
  | littleEndian => "LittleEndian"

def spellings : List (String × ByteOrder) :=
  [("bigendian", bigEndian), ("big-endian", bigEndian), ("be", bigEndian),
  ("littleendian", littleEndian), ("little-endian", littleEndian), ("le", littleEndian)]

/-- The order a document names.  Case does not matter.  Lowering ASCII letters alone is enough,
since the lower case of any other character holds a character that no spelling has. -/
def ofName? (s : String) : Option ByteOrder :=
  spellings.lookup (String.ofList (s.toList.map Char.toLower))

end ByteOrder

/-! ## Words as bytes

A word is a natural number below `256 ^ size`.  The little-endian form comes first because it
recurses on the size, and the big-endian form is its reverse. -/

def littleEndianBytes : Nat → Nat → List UInt8
  | 0, _ => []
  | size + 1, n => UInt8.ofNat (n % 256) :: littleEndianBytes size (n / 256)

def ofLittleEndianBytes : List UInt8 → Nat
  | [] => 0
  | b :: rest => b.toNat + 256 * ofLittleEndianBytes rest

namespace ByteOrder

def wordBytes (order : ByteOrder) (size n : Nat) : List UInt8 :=
  match order with
  | bigEndian => (littleEndianBytes size n).reverse
  | littleEndian => littleEndianBytes size n

def ofWordBytes (order : ByteOrder) (bytes : List UInt8) : Nat :=
  match order with
  | bigEndian => ofLittleEndianBytes bytes.reverse
  | littleEndian => ofLittleEndianBytes bytes

end ByteOrder

@[simp] theorem length_littleEndianBytes (size n : Nat) :
    (littleEndianBytes size n).length = size := by
  induction size generalizing n with
  | zero => rfl
  | succ size ih => simp [littleEndianBytes, ih]

@[simp] theorem ByteOrder.length_wordBytes (order : ByteOrder) (size n : Nat) :
    (order.wordBytes size n).length = size := by
  cases order <;> simp [ByteOrder.wordBytes]

end RecordWire
