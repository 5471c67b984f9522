import RecordWire.Plan
import RecordWire.Text.Lines

/-!
The Rust text of a record's codec.
-/

namespace RecordWire
namespace Emit

def encodeStepLines : EncodeStep → List String
  | .writeValue f _ .reference => [s!"        WireEncode::encode(&self.{f}, writer)?;"]
  | .writeValue f _ .copy =>
    ["        WireEncode::encode(&" ++ Text.braced s!" self.{f} " ++ ", writer)?;"]
  | .writeBlock f => [s!"        writer.put_raw(&self.{f});"]
  | .writeElements f _ .reference =>
    [Text.opened s!"        for item in self.{f}.iter()",
      "            WireEncode::encode(item, writer)?;",
      "        " ++ Text.closing]
  | .writeElements f _ .copy =>
    [s!"        let elements = self.{f};",
      Text.opened "        for item in elements.iter()",
      "            WireEncode::encode(item, writer)?;",
      "        " ++ Text.closing]
  | .writeLengthPrefix f => [s!"        writer.put_len(self.{f}.len())?;"]

def decodeStepLines : DecodeStep → List String
  | .readValue f _ .reference => [s!"        WireDecode::decode_from(&mut self.{f}, reader)?;"]
  | .readValue f _ .copy => [s!"        self.{f} = WireDecode::decode(reader)?;"]
  | .readBlock f _ => [s!"        reader.get_raw(&mut self.{f})?;"]
  | .readElements f _ .reference =>
    [Text.opened s!"        for item in self.{f}.iter_mut()",
      "            WireDecode::decode_from(item, reader)?;",
      "        " ++ Text.closing]
  | .readElements f _ .copy =>
    [s!"        let mut elements = self.{f};",
      Text.opened "        for item in elements.iter_mut()",
      "            WireDecode::decode_from(item, reader)?;",
      "        " ++ Text.closing,
      s!"        self.{f} = elements;"]
  | .allocate count routine e =>
    [s!"        reader.check_sequence::<{e.rustType}>(SequenceLen::sequence_len(&self.{count}))?;",
      s!"        self.{routine}();"]
  | .readLengthPrefix f e =>
    ["        let len = reader.get_len()?;",
      s!"        reader.check_sequence::<{e.rustType}>(len)?;",
      s!"        self.{f}.resize_with(len, Default::default);"]

def encodeLines (typeName : String) (plan : CodecPlan) : List String :=
  let writer := if plan.encode.isEmpty then "_writer" else "writer"
  [Text.opened s!"impl WireEncode for {typeName}",
    Text.opened s!"    fn encode(&self, {writer}: &mut WireWriter) -> wire::Result<()>"] ++
  plan.encode.flatMap encodeStepLines ++
  ["        Ok(())", "    " ++ Text.closing, Text.closing, ""]

def decodeLines (typeName : String) (plan : CodecPlan) : List String :=
  let reader := if plan.decode.isEmpty then "_reader" else "reader"
  [Text.opened s!"impl WireDecode for {typeName}",
    s!"    const MIN_WIRE_SIZE: usize = {plan.minSize.expression};",
    "",
    Text.opened
      s!"    fn decode_from(&mut self, {reader}: &mut WireReader<'_>) -> wire::Result<()>"] ++
  plan.decode.flatMap decodeStepLines ++
  ["        Ok(())", "    " ++ Text.closing, Text.closing, ""]

def codecLines (typeName : String) (plan : CodecPlan) : List String :=
  encodeLines typeName plan ++ decodeLines typeName plan

end Emit
end RecordWire
