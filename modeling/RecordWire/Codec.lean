import RecordWire.Layout
import RecordWire.Plan
import RecordWire.Value
import RecordWire.Wire.Reader
import RecordWire.Wire.Writer

/-!
Codecs, and the codec of a record as its plan carries it out.

A codec decodes into a value that is already there.  When it fails, the value is left as far as it
was decoded, and so is the reader.  `Decoded` keeps both together with the error, and with every
length a sequence was set to on the way.
-/

namespace RecordWire

/-- A sequence that was set to `length` elements of at least `elementSize` bytes, with `remaining`
bytes left to read. -/
structure Resize where
  length : Nat
  elementSize : Nat
  remaining : Nat
  deriving DecidableEq

/-- What a decode leaves behind, whether or not it came to its end. -/
structure Decoded (α : Type) where
  value : α
  reader : Reader
  resizes : List Resize := []
  error : Option WireError := none

namespace Decoded

variable {α β : Type}

def map (f : α → β) (d : Decoded α) : Decoded β :=
  ⟨f d.value, d.reader, d.resizes, d.error⟩

/-- Goes on with `next` unless there was an error. -/
def andThen (d : Decoded α) (next : α → Reader → Decoded α) : Decoded α :=
  match d.error with
  | some _ => d
  | none =>
    let d' := next d.value d.reader
    { d' with resizes := d.resizes ++ d'.resizes }

/-- Keeps `old` if there was an error. -/
def orKeep (old : α) (d : Decoded α) : Decoded α :=
  match d.error with
  | some _ => { d with value := old }
  | none => d

end Decoded

structure Codec where
  /-- No encoding is shorter than this. -/
  minSize : Nat
  initial : Value
  encode : Value → Writer → Except WireError Writer
  decodeInto : Value → Reader → Decoded Value

namespace Codec

def decode (c : Codec) (r : Reader) : Decoded Value :=
  c.decodeInto c.initial r

def encodeBytes (c : Codec) (order : ByteOrder) (v : Value) : Except WireError (List UInt8) :=
  match c.encode v { order := order } with
  | .ok w => .ok w.bytes
  | .error e => .error e

/-- Decodes a value that takes up all of `bytes`. -/
def decodeBytes (c : Codec) (order : ByteOrder) (bytes : List UInt8) : Except WireError Value :=
  let d := c.decode { buffer := bytes, order := order }
  match d.error with
  | some e => .error e
  | none =>
    if d.reader.isEmpty then .ok d.value else .error (.trailingBytes d.reader.remaining)

def scalar (p : Primitive) : Codec :=
  { minSize := p.size
    initial := .zero p
    encode := fun v w =>
      match v with
      | .scalar q bits => .ok (w.putScalar q bits)
      | _ => .ok w
    decodeInto := fun old r =>
      match r.getScalar p with
      | (.ok bits, r') => { value := .scalar p bits, reader := r' }
      | (.error e, r') => { value := old, reader := r', error := some e } }

/-- Encodes each value in turn. -/
def encodeAll (c : Codec) : List Value → Writer → Except WireError Writer
  | [], w => .ok w
  | v :: rest, w =>
    match c.encode v w with
    | .ok w' => encodeAll c rest w'
    | .error e => .error e

/-- Decodes into each value from here on.  `done` has the values before these and `resizes` their
lengths, both last first, so that a long list needs no deep recursion. -/
def decodeEachFrom (c : Codec) (done : List Value) (resizes : List Resize) :
    List Value → Reader → Decoded (List Value)
  | [], r => { value := done.reverse, reader := r, resizes := resizes.reverse }
  | v :: rest, r =>
    let d := c.decodeInto v r
    match d.error with
    | some e =>
      { value := done.reverse ++ d.value :: rest
        reader := d.reader
        resizes := resizes.reverse ++ d.resizes
        error := some e }
    | none => decodeEachFrom c (d.value :: done) (d.resizes.reverse ++ resizes) rest d.reader

/-- Decodes into each value in turn.  The values after a failure stay as they were. -/
def decodeEach (c : Codec) (items : List Value) (r : Reader) : Decoded (List Value) :=
  c.decodeEachFrom [] [] items r

theorem decodeEachFrom_eq (c : Codec) (done : List Value) (resizes : List Resize)
    (items : List Value) (r : Reader) :
    c.decodeEachFrom done resizes items r =
      { value := done.reverse ++ (c.decodeEach items r).value
        reader := (c.decodeEach items r).reader
        resizes := resizes.reverse ++ (c.decodeEach items r).resizes
        error := (c.decodeEach items r).error } := by
  induction items generalizing done resizes r with
  | nil => simp [decodeEach, decodeEachFrom]
  | cons v rest ih =>
    simp only [decodeEach, decodeEachFrom]
    split
    · simp
    · rw [ih, ih [_]]
      simp

theorem decodeEach_nil (c : Codec) (r : Reader) :
    c.decodeEach [] r = { value := [], reader := r } := rfl

theorem decodeEach_cons (c : Codec) (v : Value) (rest : List Value) (r : Reader) :
    c.decodeEach (v :: rest) r =
      let d := c.decodeInto v r
      match d.error with
      | some _ => d.map (· :: rest)
      | none =>
        let ds := c.decodeEach rest d.reader
        { value := d.value :: ds.value
          reader := ds.reader
          resizes := d.resizes ++ ds.resizes
          error := ds.error } := by
  cases h : (c.decodeInto v r).error <;>
    simp [decodeEach, decodeEachFrom, Decoded.map, h, decodeEachFrom_eq c [_]]

end Codec

/-- Gives a list `n` elements: it keeps its first ones and is filled up with `filler`. -/
def resizeTo (n : Nat) (filler : Value) (items : List Value) : List Value :=
  items.take n ++ List.replicate (n - items.length) filler

def Fields.resize (fields : Fields) (ident : String) (n : Nat) (filler : Value) : Fields :=
  fields.set ident (.list (resizeTo n filler (fields.get ident).items))

/-- Runs an allocate routine. -/
def Allocator.run (codecs : Element → Codec) (a : Allocator) (fields : Fields) : Fields :=
  fields.resize a.sequence (fields.get a.count).sequenceLength (codecs a.element).initial

/-! ## Steps of a plan -/

def EncodeStep.run (codecs : Element → Codec) (fields : Fields) (w : Writer) :
    EncodeStep → Except WireError Writer
  | .writeValue f e _ => (codecs e).encode (fields.get f) w
  | .writeBlock f => .ok (w.putRaw ((fields.get f).items.map Value.toByte))
  | .writeElements f e _ => (codecs e).encodeAll (fields.get f).items w
  | .writeLengthPrefix f => w.putLength (fields.get f).items.length

def runEncode (codecs : Element → Codec) (fields : Fields) :
    List EncodeStep → Writer → Except WireError Writer
  | [], w => .ok w
  | step :: rest, w =>
    match step.run codecs fields w with
    | .ok w' => runEncode codecs fields rest w'
    | .error e => .error e

/-- Runs the routine of that name. -/
def runRoutine (codecs : Element → Codec) (allocators : List Allocator) (routine : String)
    (fields : Fields) : Fields :=
  match allocators.find? (·.routine == routine) with
  | some a => a.run codecs fields
  | none => fields

def DecodeStep.run (codecs : Element → Codec) (allocators : List Allocator) (fields : Fields)
    (r : Reader) : DecodeStep → Decoded Fields
  | .readValue f e .reference =>
    ((codecs e).decodeInto (fields.get f) r).map (fields.set f ·)
  | .readValue f e .copy =>
    (((codecs e).decode r).map (fields.set f ·)).orKeep fields
  | .readBlock f p =>
    match r.getRaw (fields.get f).items.length with
    | (.ok bytes, r') =>
      { value := fields.set f (.list (bytes.map (Value.ofByte p))), reader := r' }
    | (.error e, r') => { value := fields, reader := r', error := some e }
  | .readElements f e .reference =>
    ((codecs e).decodeEach (fields.get f).items r).map fun items => fields.set f (.list items)
  | .readElements f e .copy =>
    (((codecs e).decodeEach (fields.get f).items r).map fun items =>
      fields.set f (.list items)).orKeep fields
  | .allocate count routine e =>
    let n := (fields.get count).sequenceLength
    let size := (codecs e).minSize
    match r.checkSequence size n with
    | .ok _ =>
      { value := runRoutine codecs allocators routine fields
        reader := r
        resizes := [⟨n, size, r.remaining⟩] }
    | .error e => { value := fields, reader := r, error := some e }
  | .readLengthPrefix f e =>
    match r.getLength with
    | (.ok n, r') =>
      let size := (codecs e).minSize
      match r'.checkSequence size n with
      | .ok _ =>
        { value := fields.resize f n (codecs e).initial
          reader := r'
          resizes := [⟨n, size, r'.remaining⟩] }
      | .error e => { value := fields, reader := r', error := some e }
    | (.error e, r') => { value := fields, reader := r', error := some e }

def runDecode (codecs : Element → Codec) (allocators : List Allocator) :
    List DecodeStep → Fields → Reader → Decoded Fields
  | [], fields, r => { value := fields, reader := r }
  | step :: rest, fields, r =>
    (step.run codecs allocators fields r).andThen (runDecode codecs allocators rest)

/-! ## Codecs of records -/

/-- The bound that the sizes of the named types give. -/
def WireSize.resolve (codecs : Element → Codec) (s : WireSize) : Nat :=
  s.terms.foldl (fun total (repetitions, e) => total + repetitions * (codecs e).minSize) s.fixed

def FieldKind.initial (codecs : Element → Codec) : FieldKind → Value
  | single e => (codecs e).initial
  | array e length => .list (List.replicate length (codecs e).initial)
  | sequence _ => .list []

def ResolvedRecord.codec (codecs : Element → Codec) (record : ResolvedRecord) : Codec :=
  { minSize := record.plan.minSize.resolve codecs
    initial := .record (record.layout.slots.map fun s => (s.ident, s.kind.initial codecs))
    encode := fun v w => runEncode codecs v.fields record.plan.encode w
    decodeInto := fun v r =>
      (runDecode codecs record.layout.allocators record.plan.decode v.fields r).map .record }

/-- Codec of a record that is not there. -/
def Codec.absent : Codec :=
  { minSize := 0
    initial := .record []
    encode := fun _ w => .ok w
    decodeInto := fun v r => { value := v, reader := r } }

/-- Finds the codec of an element.  `known` has the records built so far, and `outside` gives the
codec of each foreign type. -/
def Element.codec (outside : String → Codec) (known : List (String × Codec)) : Element → Codec
  | .primitive p => .scalar p
  | .record name => (known.lookup name).getD .absent
  | .foreign name => outside name

/-- The codecs of all records, built in dependency order so that every record finds the records it
embeds. -/
def Resolved.codecs (s : Resolved) (outside : String → Codec) : List (String × Codec) :=
  s.recordsInDependencyOrder.foldl
    (fun known record => (record.name, record.codec (Element.codec outside known)) :: known) []

def Resolved.codec? (s : Resolved) (outside : String → Codec) (name : String) : Option Codec :=
  (s.codecs outside).lookup name

end RecordWire
