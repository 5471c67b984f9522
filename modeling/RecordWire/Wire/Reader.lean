import RecordWire.Primitive
import RecordWire.Wire.ByteOrder
import RecordWire.Wire.Error

/-!
A cursor over a buffer of bytes.  A read either takes all the bytes it asks for or fails and takes
none; reading the length of a sequence is the one read that can fail after it moved, when the
length it read is over the limit.
-/

namespace RecordWire

/-- Lengths that do not fit in a machine word are cut to the largest one. -/
def maxSize : Nat := Nat.pow 2 64 - 1

def saturate (n : Nat) : Nat :=
  min n maxSize

def defaultSequenceLimit : Nat := 16 * 1024 * 1024

structure Reader where
  buffer : List UInt8
  order : ByteOrder
  limit : Nat := defaultSequenceLimit
  position : Nat := 0

namespace Reader

def remaining (r : Reader) : Nat :=
  r.buffer.length - r.position

/-- The bytes not yet read. -/
def rest (r : Reader) : List UInt8 :=
  r.buffer.drop r.position

def isEmpty (r : Reader) : Bool :=
  r.remaining == 0

def getRaw (r : Reader) (n : Nat) : Except WireError (List UInt8) × Reader :=
  if r.remaining < n then
    (.error (.bufferTooShort n r.remaining), r)
  else
    (.ok (r.rest.take n), { r with position := r.position + n })

def getScalar (r : Reader) (p : Primitive) : Except WireError (BitVec p.width) × Reader :=
  match r.getRaw p.size with
  | (.ok bytes, r') => (.ok (BitVec.ofNat p.width (r.order.ofWordBytes bytes)), r')
  | (.error e, r') => (.error e, r')

/-- Passes on a length that is within the limit. -/
def checkLength (r : Reader) (n : Nat) : Except WireError Nat :=
  if r.limit < n then .error (.sequenceTooLong n r.limit) else .ok n

/-- Reads the 32-bit length in front of a sequence. -/
def getLength (r : Reader) : Except WireError Nat × Reader :=
  match r.getRaw 4 with
  | (.ok bytes, r') => (r'.checkLength (r.order.ofWordBytes bytes), r')
  | (.error e, r') => (.error e, r')

/-- Passes on the length of a sequence only when it is within the limit and the bytes that are left
could hold that many elements of at least `elementSize` bytes. -/
def checkSequence (r : Reader) (elementSize n : Nat) : Except WireError Nat :=
  match r.checkLength n with
  | .error e => .error e
  | .ok n =>
    let required := saturate (n * elementSize)
    if r.remaining < required then
      .error (.bufferTooShort required r.remaining)
    else
      .ok n

end Reader
end RecordWire
