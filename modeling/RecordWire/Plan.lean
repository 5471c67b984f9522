import RecordWire.Schema.Resolved
import RecordWire.Wire.Reader

/-!
The codec plan of a record: the steps that encode it, the steps that decode it, and a lower bound
on its encoded size.  Both lists of steps go through the fields in declared order.  A sequence is
sized before its elements are read, from the field that counts it or from a 32-bit length in front
of it.
-/

namespace RecordWire

/-- How a step reaches its field.  A field of a packed record may be misaligned; it cannot be
borrowed then and is copied. -/
inductive Access where
  | reference
  | copy
  deriving DecidableEq

def FieldKind.access (packed : Bool) : FieldKind → Access
  | single (.primitive p) | array (.primitive p) _ =>
    if packed && 1 < p.size then .copy else .reference
  | _ => .reference

inductive EncodeStep where
  | writeValue (field : String) (element : Element) (access : Access)
  | writeBlock (field : String)
  | writeElements (field : String) (element : Element) (access : Access)
  | writeLengthPrefix (field : String)
  deriving DecidableEq

inductive DecodeStep where
  | readValue (field : String) (element : Element) (access : Access)
  | readBlock (field : String) (type : Primitive)
  | readElements (field : String) (element : Element) (access : Access)
  | allocate (count routine : String) (element : Element)
  | readLengthPrefix (field : String) (element : Element)
  deriving DecidableEq

/-- A lower bound on an encoded size: known bytes, and so many times the bound of another type. -/
structure WireSize where
  fixed : Nat := 0
  terms : List (Nat × Element) := []
  deriving DecidableEq

namespace WireSize

def addFixed (s : WireSize) (bytes : Nat) : WireSize :=
  { s with fixed := saturate (s.fixed + bytes) }

def addElement (s : WireSize) (repetitions : Nat) : Element → WireSize
  | .primitive p => s.addFixed (saturate (p.size * repetitions))
  | e => { s with terms := s.terms ++ [(repetitions, e)] }

def addField (s : WireSize) (f : ResolvedField) : WireSize :=
  match f.kind with
  | .single e => s.addElement 1 e
  | .array e length => s.addElement length e
  | .sequence _ => if f.countField.isSome then s else s.addFixed 4

/-- The bound as a constant expression. -/
def expression (s : WireSize) : String :=
  let known := if 0 < s.fixed || s.terms.isEmpty then [toString s.fixed] else []
  let others := s.terms.map fun (repetitions, e) =>
    let size := s!"<{e.rustType} as WireDecode>::MIN_WIRE_SIZE"
    if repetitions = 1 then size else s!"{repetitions} * {size}"
  " + ".intercalate (known ++ others)

end WireSize

structure CodecPlan where
  encode : List EncodeStep
  decode : List DecodeStep
  minSize : WireSize
  deriving DecidableEq

namespace ResolvedRecord

def encodeSteps (r : ResolvedRecord) (f : ResolvedField) : List EncodeStep :=
  let access := f.kind.access r.fixedLayout
  match f.kind with
  | .single e => [.writeValue f.ident e access]
  | .array e _ =>
    match e with
    | .primitive p =>
      if p.isByte then [.writeBlock f.ident] else [.writeElements f.ident e access]
    | _ => [.writeElements f.ident e access]
  | .sequence e =>
    if f.countField.isSome then [.writeElements f.ident e access]
    else [.writeLengthPrefix f.ident, .writeElements f.ident e access]

/-- The step that sizes a sequence before its elements are read. -/
def sizingStep (r : ResolvedRecord) (f : ResolvedField) (e : Element) : DecodeStep :=
  match f.countField.bind (r.fields[·]?), f.allocator? with
  | some count, some routine => .allocate count.ident routine e
  | _, _ => .readLengthPrefix f.ident e

def decodeSteps (r : ResolvedRecord) (f : ResolvedField) : List DecodeStep :=
  let access := f.kind.access r.fixedLayout
  match f.kind with
  | .single e => [.readValue f.ident e access]
  | .array e _ =>
    match e with
    | .primitive p =>
      if p.isByte then [.readBlock f.ident p] else [.readElements f.ident e access]
    | _ => [.readElements f.ident e access]
  | .sequence e => [r.sizingStep f e, .readElements f.ident e access]

def plan (r : ResolvedRecord) : CodecPlan :=
  { encode := r.fields.flatMap r.encodeSteps
    decode := r.fields.flatMap r.decodeSteps
    minSize := r.fields.foldl WireSize.addField {} }

end ResolvedRecord
end RecordWire
