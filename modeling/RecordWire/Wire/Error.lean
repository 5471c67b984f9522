/-!
What can go wrong on the wire.
-/

namespace RecordWire

inductive WireError where
  | bufferTooShort (required available : Nat)
  | sequenceTooLong (length limit : Nat)
  | lengthOverflow (length : Nat)
  | trailingBytes (remaining : Nat)
  deriving DecidableEq

def WireError.message : WireError → String
  | bufferTooShort required available =>
    s!"buffer too short: required {required} bytes, available {available} bytes"
  | sequenceTooLong length limit => s!"sequence length {length} exceeds limit {limit}"
  | lengthOverflow length => s!"sequence length {length} does not fit in a 32-bit length prefix"
  | trailingBytes remaining => s!"{remaining} trailing bytes after decoded value"

end RecordWire
