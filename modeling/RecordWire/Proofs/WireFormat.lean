import RecordWire.Proofs.CodecTable
import RecordWire.Proofs.Values
import RecordWire.Proofs.Words

/-!
The wire format.  A value is put on the wire by one walk through it, with nothing between its
parts: a scalar in the byte order, a foreign value as its own codec writes it, a record field after
field, an array element after element, and a sequence behind its length unless the field right
before it is a plain integer.  The walk looks at the kinds of the fields and at nothing that is
kept for the codecs.  Every encoder writes what it gives.
-/

namespace RecordWire

/-- A sequence on the wire, and whether the field before it counts its elements. -/
structure SequenceStart where
  counted : Bool
  length : Nat
  deriving DecidableEq

/-- What is listed for a scalar, for a foreign value and at the start of a sequence. -/
structure Visitor (α : Type) where
  scalar : (p : Primitive) → BitVec p.width → List α
  foreign : String → Value → List α
  start : (counted : Bool) → (length : Nat) → List α

namespace Visitor

/-- The bytes on the wire.  `own` gives those of each foreign type. -/
def bytes (own : String → ByteOrder → Value → List UInt8) (order : ByteOrder) :
    Visitor UInt8 where
  scalar p bits := order.wordBytes p.size bits.toNat
  foreign name v := own name order v
  start counted length := if counted then [] else order.wordBytes 4 length

/-- The start of each sequence. -/
def starts : Visitor SequenceStart where
  scalar _ _ := []
  foreign _ _ := []
  start counted length := [⟨counted, length⟩]

end Visitor

/-- A single integer, neither a `char` nor a float nor an array. -/
def FieldKind.isPlainInteger : FieldKind → Bool
  | single (.primitive p) => p.isInteger
  | _ => false

namespace Resolved

section Walk

variable {α : Type} (s : Resolved) (visit : Visitor α)

mutual

/-- What a visitor lists for a value, in wire order. -/
def walk : Element → Value → List α
  | .primitive _, .scalar p bits => visit.scalar p bits
  | .foreign name, v => visit.foreign name v
  | .record name, .record fields =>
    match s.getRecord? name with
    | some r => walkFields none (r.fields.map (·.kind)) fields
    | none => []
  | _, _ => []
termination_by structural _ v => v

def walkItems (e : Element) : List Value → List α
  | [] => []
  | v :: rest => walk e v ++ walkItems e rest
termination_by structural items => items

/-- The fields of a record, where `previous` is the kind of the field before the first. -/
def walkFields (previous : Option FieldKind) : List FieldKind → List (String × Value) → List α
  | kind :: kinds, entry :: rest =>
    walkField previous kind entry ++ walkFields (some kind) kinds rest
  | _, _ => []
termination_by structural _ fields => fields

def walkField (previous : Option FieldKind) : FieldKind → String × Value → List α
  | .single e, (_, v) => walk e v
  | .array e _, (_, .list items) => walkItems e items
  | .sequence e, (_, .list items) =>
    visit.start (previous.any FieldKind.isPlainInteger) items.length ++ walkItems e items
  | _, _ => []
termination_by structural _ entry => entry

end

end Walk

def wireFormat (s : Resolved) (own : String → ByteOrder → Value → List UInt8) (order : ByteOrder) :
    Element → Value → List UInt8 :=
  s.walk (.bytes own order)

/-- The sequences of a value at every depth, an outer one before those inside it. -/
def sequences (s : Resolved) : Element → Value → List SequenceStart :=
  s.walk .starts

variable {α : Type} {s : Resolved} {visit : Visitor α}

theorem walkItems_eq (e : Element) (items : List Value) :
    s.walkItems visit e items = items.flatMap (s.walk visit e) := by
  induction items with
  | nil => rfl
  | cons v rest ih => rw [walkItems, ih, List.flatMap_cons]

theorem walk_foreign (name : String) (v : Value) :
    s.walk visit (.foreign name) v = visit.foreign name v := by
  cases v <;> rfl

theorem walk_record {name : String} {r : ResolvedRecord} (hr : s.getRecord? name = some r)
    (fields : Fields) :
    s.walk visit (.record name) (.record fields) =
      s.walkFields visit none (r.fields.map (·.kind)) fields := by
  rw [walk, hr]

end Resolved

/-! ## Which sequences are counted -/

theorem FieldKind.isSome_countType? (kind : FieldKind) :
    kind.countType?.isSome = kind.isPlainInteger := by
  cases kind with
  | single e =>
    cases e with
    | primitive p => cases h : p.isInteger <;> simp [countType?, isPlainInteger, h]
    | record name => rfl
    | foreign name => rfl
  | array e n => rfl
  | sequence e => rfl

/-- The count that a record keeps for a sequence is there exactly if the field before is a plain
integer. -/
theorem ResolvedRecord.Coherent.isSome_countField {r : ResolvedRecord} (hr : r.Coherent)
    {done rest : List ResolvedField} {f : ResolvedField} (hf : r.fields = done ++ f :: rest)
    (hs : f.kind.isSequence = true) :
    f.countField.isSome = (done.getLast?.map (·.kind)).any FieldKind.isPlainInteger := by
  rw [hr.countField_eq done f rest hf, countPosition, hs, Bool.true_and]
  cases done.getLast? with
  | none => rfl
  | some g =>
    simp only [Option.map_some, Option.bind_some, FieldKind.isSome_countType?, Option.any_some]
    cases g.kind.isPlainInteger <;> rfl

/-! ## What encoders write -/

namespace Codec

/-- The encoder puts just these bytes after what was written before. -/
def Writes (c : Codec) (typed : Value → Prop) (bytes : ByteOrder → Value → List UInt8) : Prop :=
  ∀ v w, typed v → c.encode v w = .ok (w.putRaw (bytes w.order v))

theorem Writes.all {c : Codec} {typed : Value → Prop} {bytes : ByteOrder → Value → List UInt8}
    (hc : c.Writes typed bytes) {items : List Value} (ht : ∀ v ∈ items, typed v) (w : Writer) :
    c.encodeAll items w = .ok (w.putRaw (items.flatMap (bytes w.order))) := by
  induction items generalizing w with
  | nil => exact congrArg Except.ok w.putRaw_nil.symm
  | cons v rest ih =>
    rw [List.forall_mem_cons] at ht
    rw [encodeAll_cons, hc v w ht.1]
    show c.encodeAll rest (w.putRaw (bytes w.order v)) = _
    rw [ih ht.2, Writer.putRaw_putRaw]
    rfl

end Codec

/-- A scalar of one byte is that byte in either order. -/
theorem ByteOrder.wordBytes_of_isByte (order : ByteOrder) {p : Primitive} (hp : p.isByte = true)
    (bits : BitVec p.width) :
    order.wordBytes p.size bits.toNat = [(Value.scalar p bits).toByte] := by
  have hlt : bits.toNat < 256 := by
    have h := bits.isLt
    rwa [p.two_pow_width, Primitive.size_of_isByte hp] at h
  rw [Primitive.size_of_isByte hp, Value.toByte]
  have hbyte : littleEndianBytes 1 bits.toNat = [UInt8.ofNat bits.toNat] := by
    rw [littleEndianBytes, littleEndianBytes, Nat.mod_eq_of_lt hlt]
  cases order with
  | bigEndian => rw [wordBytes, hbyte, List.reverse_singleton]
  | littleEndian => exact hbyte

section Records

variable {s : Resolved} {values : String → Value → Prop}
  {own : String → ByteOrder → Value → List UInt8} {codecs : Element → Codec}

/-- A sequence that stands behind its length can be written only if that has 32 bits. -/
def SequenceStart.Fits (q : SequenceStart) : Prop :=
  q.counted = false → q.length < 2 ^ 32

/-- The well-typed values of an element that can be written. -/
def Resolved.Writable (s : Resolved) (values : String → Value → Prop) (e : Element) (v : Value) :
    Prop :=
  s.Typed values e v ∧ ∀ q ∈ s.sequences e v, q.Fits

theorem scalar_writes (p : Primitive) :
    (Codec.scalar p).Writes (s.Writable values (.primitive p))
      fun order => s.wireFormat own order (.primitive p) := by
  intro v w hv
  cases hv.1 with
  | primitive p bits => rfl

theorem writeArray_eq {e : Element}
    (hc : (codecs e).Writes (s.Writable values e) fun order => s.wireFormat own order e)
    {items : List Value} (hv : ∀ v ∈ items, s.Writable values e v) (w : Writer) :
    e.writeArray codecs items w =
      .ok (w.putRaw (items.flatMap (s.wireFormat own w.order e))) := by
  cases e with
  | record name => exact hc.all hv w
  | foreign name => exact hc.all hv w
  | primitive p =>
    rw [Element.writeArray]
    by_cases hb : p.isByte = true
    · rw [if_pos hb]
      -- A block has the bytes that its elements would have one by one.
      have hblock : items.map Value.toByte =
          items.flatMap (s.wireFormat own w.order (.primitive p)) := by
        rw [List.map_eq_flatMap]
        apply List.flatMap_congr
        intro v hmem
        cases (hv v hmem).1 with
        | primitive p bits => exact (w.order.wordBytes_of_isByte hb bits).symm
      rw [hblock]
    · rw [if_neg hb]
      exact hc.all hv w

/-- The elements of a list can be written if they are well typed and the walk through them finds no
sequence that is too long. -/
theorem writable_of_walkItems {e : Element} {items : List Value}
    (ht : ∀ v ∈ items, s.Typed values e v) (hq : ∀ q ∈ s.walkItems .starts e items, q.Fits) :
    ∀ v ∈ items, s.Writable values e v := by
  intro v hv
  refine ⟨ht v hv, fun q hmem => hq q ?_⟩
  rw [Resolved.walkItems_eq, List.mem_flatMap]
  exact ⟨v, hv, hmem⟩

theorem ResolvedField.write_eq {f : ResolvedField} {previous : Option FieldKind}
    (hc : (codecs f.kind.element).Writes (s.Writable values f.kind.element)
      fun order => s.wireFormat own order f.kind.element)
    (hcount : f.kind.isSequence = true →
      f.countField.isSome = previous.any FieldKind.isPlainInteger)
    {v : Value} (hs : f.kind.HasShape v)
    (ht : ∀ u ∈ f.kind.parts v, s.Typed values f.kind.element u)
    (hq : ∀ q ∈ s.walkField .starts previous f.kind (f.ident, v), q.Fits) (w : Writer) :
    f.write codecs v w =
      .ok (w.putRaw (s.walkField (.bytes own w.order) previous f.kind (f.ident, v))) := by
  rw [ResolvedField.write]
  cases hk : f.kind with
  | single e =>
    rw [hk] at hc ht hq
    exact hc v w ⟨ht v (List.mem_singleton.mpr rfl), hq⟩
  | array e n =>
    rw [hk] at hc hs ht hq
    obtain ⟨items, rfl, -⟩ := hs
    show e.writeArray codecs items w = .ok (w.putRaw (s.walkItems (.bytes own w.order) e items))
    rw [Resolved.walkItems_eq]
    exact writeArray_eq hc (writable_of_walkItems ht hq) w
  | sequence e =>
    rw [hk] at hc hcount hs ht hq
    obtain ⟨items, rfl⟩ := hs
    rw [Resolved.walkField, List.forall_mem_append] at hq
    have hall : ∀ w : Writer, (codecs e).encodeAll items w =
        .ok (w.putRaw (items.flatMap (s.wireFormat own w.order e))) :=
      hc.all (writable_of_walkItems ht hq.2)
    simp only [hcount rfl, Value.items, Resolved.walkField, Resolved.walkItems_eq]
    by_cases hp : previous.any FieldKind.isPlainInteger = true
    · simp only [hp, if_true, Visitor.bytes, List.nil_append]
      exact hall w
    · have hp' : previous.any FieldKind.isPlainInteger = false := by simpa using hp
      have hlength : items.length < Nat.pow 2 32 := hq.1 _ (List.mem_singleton.mpr rfl) hp'
      rw [hp', if_neg Bool.false_ne_true, Writer.putLength, if_pos hlength]
      show (codecs e).encodeAll items (w.putRaw (w.order.wordBytes 4 items.length)) = _
      rw [hall, Writer.putRaw_putRaw]
      rfl

theorem ResolvedRecord.Coherent.writeFields_eq {r : ResolvedRecord} (hr : r.Coherent)
    {done fs : List ResolvedField} (hf : r.fields = done ++ fs)
    (hc : ∀ f ∈ fs, (codecs f.kind.element).Writes (s.Writable values f.kind.element)
      fun order => s.wireFormat own order f.kind.element)
    {fields : Fields} (hs : ∀ f ∈ fs, f.kind.HasShape (fields.get f.ident))
    (ht : ∀ f ∈ fs, ∀ v ∈ f.kind.parts (fields.get f.ident), s.Typed values f.kind.element v)
    (hq : ∀ q ∈ s.walkFields .starts (done.getLast?.map (·.kind)) (fs.map (·.kind))
      (fs.map fun f => (f.ident, fields.get f.ident)), q.Fits) (w : Writer) :
    writeFields codecs fields fs w =
      .ok (w.putRaw (s.walkFields (.bytes own w.order) (done.getLast?.map (·.kind))
        (fs.map (·.kind)) (fs.map fun f => (f.ident, fields.get f.ident)))) := by
  induction fs generalizing done w with
  | nil => exact congrArg Except.ok w.putRaw_nil.symm
  | cons f fs ih =>
    rw [List.forall_mem_cons] at hc hs ht
    rw [List.map_cons, List.map_cons, Resolved.walkFields, List.forall_mem_append] at hq
    have hsplit : r.fields = (done ++ [f]) ++ fs := by simp [hf]
    have hlast : (done ++ [f]).getLast?.map (·.kind) = some f.kind := by simp
    have hfield := ResolvedField.write_eq hc.1 (hr.isSome_countField hf) hs.1 ht.1 hq.1 w
    rw [← hlast] at hq
    rw [writeFields, hfield, List.map_cons, List.map_cons, Resolved.walkFields]
    have hrest := ih hsplit hc.2 hs.2 ht.2 hq.2
      (w.putRaw (s.walkField (.bytes own w.order) (done.getLast?.map (·.kind)) f.kind
        (f.ident, fields.get f.ident)))
    rw [hlast, Writer.putRaw_putRaw] at hrest
    exact hrest

theorem ResolvedRecord.Coherent.writes {r : ResolvedRecord} (hr : r.Coherent)
    (hd : (r.fields.map (·.ident)).Nodup) (hfound : s.getRecord? r.name = some r)
    (hc : ∀ f ∈ r.fields, (codecs f.kind.element).Writes (s.Writable values f.kind.element)
      fun order => s.wireFormat own order f.kind.element) :
    (r.codec codecs).Writes (s.Writable values (.record r.name))
      fun order => s.wireFormat own order (.record r.name) := by
  intro v w hv
  obtain ⟨fields, rfl, ht⟩ := Resolved.typed_record hfound hv.1
  have hfields : (r.fields.map fun f => (f.ident, Fields.get fields f.ident)) = fields := by
    have h := Fields.map_get ht.names hd
    rwa [List.map_map] at h
  have hq := hv.2
  rw [Resolved.sequences, Resolved.walk_record hfound] at hq
  rw [encode_eq]
  show _ = Except.ok (w.putRaw (s.walk (.bytes own w.order) (.record r.name) (.record fields)))
  rw [Resolved.walk_record hfound]
  have h := hr.writeFields_eq (List.nil_append r.fields).symm hc ht.shape ht.parts
    (by rw [hfields]; exact hq) w
  rw [hfields] at h
  exact h

end Records

/-! ## Schemas -/

namespace Timestamp

/-- Seconds, then nanoseconds. -/
def bytes (order : ByteOrder) (v : Value) : List UInt8 :=
  v.fields.flatMap fun part =>
    match part.2 with
    | .scalar p bits => order.wordBytes p.size bits.toNat
    | _ => []

theorem writes : codec.Writes IsValue bytes := by
  intro v w hv
  obtain ⟨secs, nanos, rfl⟩ := hv
  show Except.ok ((w.putScalar .int64 secs).putScalar .uint32 nanos) = _
  rw [Writer.putScalar, Writer.putScalar, Writer.putRaw_putRaw]
  simp only [bytes, ofParts, Value.fields, List.flatMap_cons, List.flatMap_nil, List.append_nil]
  rfl

end Timestamp

theorem Resolved.Sound.codec_writes {s : Resolved} {outside : String → Codec}
    {values : String → Value → Prop} {own : String → ByteOrder → Value → List UInt8} (hs : s.Sound)
    (hd : ∀ r ∈ s.records, (r.fields.map (·.ident)).Nodup)
    (ho : ∀ name ∈ s.foreignTypes, (outside name).Writes (values name) (own name))
    {r : ResolvedRecord} (hr : r ∈ s.records) :
    ∃ c, s.codec? outside r.name = some c ∧ c.Writes (s.Writable values (.record r.name))
      fun order => s.wireFormat own order (.record r.name) := by
  refine hs.codec_induction
    (P := fun e c => c.Writes (s.Writable values e) fun order => s.wireFormat own order e)
    scalar_writes (fun name hname => ?_) (fun r hr codecs _ hfields => ?_) hr
  · intro v w hv
    cases hv.1 with
    | foreign h =>
      show _ = Except.ok (w.putRaw (s.walk (.bytes own w.order) (.foreign name) v))
      rw [walk_foreign]
      exact ho name hname v w h
  · exact (hs.coherent r hr).writes (hd r hr) (hs.getRecord?_eq_some.mpr ⟨hr, rfl⟩) hfields

/-- For every accepted schema, either byte order and whatever was written before, an encoder puts
the wire format of its value behind it, as long as every length that is written fits. -/
theorem encode_eq_wireFormat {schema : Schema} {s : Resolved} {outside : String → Codec}
    {values : String → Value → Prop} {own : String → ByteOrder → Value → List UInt8}
    (built : schema.Built) (accepted : schema.resolve.result = .ok s)
    (distinct : ∀ r ∈ s.records, (r.fields.map (·.ident)).Nodup)
    (lawful : ∀ name ∈ s.foreignTypes, (outside name).Writes (values name) (own name))
    {r : ResolvedRecord} (mem : r ∈ s.records) :
    ∃ c, s.codec? outside r.name = some c ∧
      ∀ order before v, s.Typed values (.record r.name) v →
        (∀ q ∈ s.sequences (.record r.name) v, q.counted = false → q.length < 2 ^ 32) →
          c.encode v { order := order, bytes := before } =
            .ok { order := order
                  bytes := before ++ s.wireFormat own order (.record r.name) v } := by
  obtain ⟨c, hc, hwrites⟩ := (built.sound accepted).codec_writes distinct lawful mem
  exact ⟨c, hc, fun order before v ht hq => hwrites v _ ⟨ht, hq⟩⟩

/-- A track has one counted sequence and one that stands behind its length. -/
theorem track_wireFormat :
    Sample.resolved.sequences (.record "Track") (Sample.track 1) = [⟨true, 1⟩, ⟨false, 1⟩] ∧
    Sample.resolved.wireFormat (fun _ => Timestamp.bytes) .bigEndian (.record "Track")
      (Sample.track 1) = Sample.trackBytes ∧
    ∃ c, Sample.resolved.codec? Sample.outside "Track" = some c ∧
      c.encode (Sample.track 1) { order := .bigEndian, bytes := [0xff] } =
        .ok { order := .bigEndian, bytes := 0xff :: Sample.trackBytes } := by
  have hstarts : Sample.resolved.sequences (.record "Track") (Sample.track 1) =
      [⟨true, 1⟩, ⟨false, 1⟩] := by
    decide +kernel
  have hbytes : Sample.resolved.wireFormat (fun _ => Timestamp.bytes) .bigEndian (.record "Track")
      (Sample.track 1) = Sample.trackBytes := by
    decide +kernel
  have mem : Sample.trackRecord ∈ Sample.resolved.records := by simp [Sample.records]
  have lawful : ∀ name ∈ Sample.resolved.foreignTypes,
      (Sample.outside name).Writes Timestamp.IsValue Timestamp.bytes :=
    fun _ _ => Timestamp.writes
  obtain ⟨c, hc, h⟩ :=
    encode_eq_wireFormat Sample.built Sample.accepted Sample.distinct lawful mem
  have hencode := h .bigEndian [0xff] (Sample.track 1) (Sample.track_typed 1) (by
    show ∀ q ∈ Sample.resolved.sequences (.record "Track") (Sample.track 1),
      q.counted = false → q.length < 2 ^ 32
    rw [hstarts]
    decide)
  refine ⟨hstarts, hbytes, c, hc, hencode.trans ?_⟩
  rw [← hbytes]
  rfl

end RecordWire
