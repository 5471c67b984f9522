import RecordWire.Primitive
import RecordWire.Wire.ByteOrder
import RecordWire.Wire.Error

/-!
The growing output of an encoder.
-/

namespace RecordWire

structure Writer where
  order : ByteOrder
  bytes : List UInt8 := []

namespace Writer

def putRaw (w : Writer) (block : List UInt8) : Writer :=
  { w with bytes := w.bytes ++ block }

def putScalar (w : Writer) (p : Primitive) (bits : BitVec p.width) : Writer :=
  w.putRaw (w.order.wordBytes p.size bits.toNat)

/-- Writes the 32-bit length in front of a sequence.  A longer sequence cannot be written. -/
def putLength (w : Writer) (length : Nat) : Except WireError Writer :=
  if length < Nat.pow 2 32 then
    .ok (w.putRaw (w.order.wordBytes 4 length))
  else
    .error (.lengthOverflow length)

end Writer
end RecordWire
