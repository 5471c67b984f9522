import RecordWire.Codec

/-!
A point in time with a codec of its own, for schemas that use one as a foreign type.
-/

namespace RecordWire
namespace Timestamp

/-- Seconds since the epoch, and the nanoseconds after them. -/
def ofParts (secs : BitVec Primitive.int64.width) (nanos : BitVec Primitive.uint32.width) :
    Value :=
  .record [("secs", .scalar .int64 secs), ("nanos", .scalar .uint32 nanos)]

def scalars : Element → Codec :=
  Element.codec (fun _ => .absent) []

/-- Both parts are written one after the other, and each is read into its place before the
next. -/
def codec : Codec where
  minSize := 12
  initial := ofParts 0 0
  encode v w :=
    runEncode scalars v.fields
      [.writeValue "secs" (.primitive .int64) .reference,
        .writeValue "nanos" (.primitive .uint32) .reference] w
  decodeInto v r :=
    (runDecode scalars []
      [.readValue "secs" (.primitive .int64) .reference,
        .readValue "nanos" (.primitive .uint32) .reference] v.fields r).map .record

end Timestamp
end RecordWire
