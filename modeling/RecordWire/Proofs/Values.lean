import RecordWire.Proofs.Resolution
import RecordWire.Timestamp

/-!
The values of a record type.  A record has a value under the identifier of each field, an array is
a list of its length, and a sequence is a list of any length.  Such a value is consistent when no
sequence is over the limit and each counted sequence has as many elements as its count says, at
every depth.
-/

namespace RecordWire

namespace FieldKind

/-- The elements that a field holds. -/
def parts (v : Value) : FieldKind → List Value
  | single _ => [v]
  | array _ _ | sequence _ => v.items

def HasShape (v : Value) : FieldKind → Prop
  | single _ => True
  | array _ n => ∃ items, v = .list items ∧ items.length = n
  | sequence _ => ∃ items, v = .list items

end FieldKind

namespace ResolvedRecord

/-- The values of a record, given those of its elements. -/
structure Typed (typed : Element → Value → Prop) (r : ResolvedRecord) (fields : Fields) : Prop where
  names : fields.map Prod.fst = r.fields.map (·.ident)
  shape : ∀ f ∈ r.fields, f.kind.HasShape (fields.get f.ident)
  parts : ∀ f ∈ r.fields, ∀ v ∈ f.kind.parts (fields.get f.ident), typed f.kind.element v

structure Consistent (limit : Nat) (consistent : Element → Value → Prop) (r : ResolvedRecord)
    (fields : Fields) : Prop where
  bounded : ∀ f ∈ r.fields, f.kind.isSequence = true → (fields.get f.ident).items.length ≤ limit
  counted : ∀ f count, (f, count) ∈ r.countedSequences →
    (fields.get f.ident).items.length = (fields.get count.ident).sequenceLength
  parts : ∀ f ∈ r.fields, ∀ v ∈ f.kind.parts (fields.get f.ident), consistent f.kind.element v

end ResolvedRecord

namespace Resolved

/-- The values of an element.  `values` has those of each foreign type. -/
inductive Typed (s : Resolved) (values : String → Value → Prop) : Element → Value → Prop
  | primitive (p : Primitive) (bits : BitVec p.width) :
    Typed s values (.primitive p) (.scalar p bits)
  | foreign {name : String} {v : Value} : values name v → Typed s values (.foreign name) v
  | record {name : String} {r : ResolvedRecord} {fields : Fields} :
    s.getRecord? name = some r → fields.map Prod.fst = r.fields.map (·.ident) →
      (∀ f ∈ r.fields, f.kind.HasShape (fields.get f.ident)) →
      (∀ f ∈ r.fields, ∀ v ∈ f.kind.parts (fields.get f.ident),
        Typed s values f.kind.element v) →
      Typed s values (.record name) (.record fields)

/-- A foreign type has no sequence. -/
inductive Consistent (s : Resolved) (limit : Nat) : Element → Value → Prop
  | primitive (p : Primitive) (v : Value) : Consistent s limit (.primitive p) v
  | foreign (name : String) (v : Value) : Consistent s limit (.foreign name) v
  | record {name : String} {r : ResolvedRecord} {fields : Fields} :
    s.getRecord? name = some r →
      (∀ f ∈ r.fields, f.kind.isSequence = true →
        (fields.get f.ident).items.length ≤ limit) →
      (∀ f count, (f, count) ∈ r.countedSequences →
        (fields.get f.ident).items.length = (fields.get count.ident).sequenceLength) →
      (∀ f ∈ r.fields, ∀ v ∈ f.kind.parts (fields.get f.ident),
        Consistent s limit f.kind.element v) →
      Consistent s limit (.record name) (.record fields)

variable {s : Resolved} {values : String → Value → Prop} {limit : Nat} {name : String}
  {r : ResolvedRecord}

theorem typed_record (hr : s.getRecord? name = some r) {v : Value}
    (h : s.Typed values (.record name) v) :
    ∃ fields, v = .record fields ∧ r.Typed (s.Typed values) fields := by
  cases h with
  | record hr' names shape parts =>
    obtain rfl := Option.some.inj (hr.symm.trans hr')
    exact ⟨_, rfl, names, shape, parts⟩

theorem consistent_record (hr : s.getRecord? name = some r) {fields : Fields} :
    s.Consistent limit (.record name) (.record fields) ↔
      r.Consistent limit (s.Consistent limit) fields := by
  refine ⟨fun h => ?_, fun h => .record hr h.bounded h.counted h.parts⟩
  cases h with
  | record hr' bounded counted parts =>
    obtain rfl := Option.some.inj (hr.symm.trans hr')
    exact ⟨bounded, counted, parts⟩

end Resolved

theorem forall_mem_pair {α : Type} {p : α → Prop} {a b : α} :
    (∀ x ∈ [a, b], p x) ↔ p a ∧ p b := by
  rw [List.forall_mem_cons, List.forall_mem_singleton]

/-! ## Timestamps -/

/-- The values of primitives alone. -/
def Element.IsScalar (v : Value) : Element → Prop
  | .primitive p => ∃ bits, v = .scalar p bits
  | _ => False

namespace Timestamp

/-- The parts of a timestamp as the fields of a record. -/
def record : ResolvedRecord where
  name := "Timestamp"
  typeName := "Timestamp"
  comment := none
  fields := [
    { name := "secs", snakeName := "secs", ident := "secs", typeName := "int64", comment := none
      kind := .single (.primitive .int64), countField := none },
    { name := "nanos", snakeName := "nanos", ident := "nanos", typeName := "uint32", comment := none
      kind := .single (.primitive .uint32), countField := none }]
  fixedLayout := false

/-- A timestamp is coded like the record of its parts. -/
theorem codec_eq : codec = record.codec scalars := rfl

theorem element_of_mem {f : ResolvedField} (hf : f ∈ record.fields) :
    f.countField = none ∧ ∃ p, f.kind = .single (.primitive p) := by
  rcases List.mem_pair.mp hf with rfl | rfl
  · exact ⟨rfl, .int64, rfl⟩
  · exact ⟨rfl, .uint32, rfl⟩

theorem coherent : record.Coherent where
  nodup_snakeNames := by decide
  countField_eq done f rest hf := by
    have hmem : f ∈ record.fields := by simp [hf]
    obtain ⟨hcount, p, hkind⟩ := element_of_mem hmem
    rw [hcount, hkind]
    rfl

theorem nodup_idents : (record.fields.map (·.ident)).Nodup := by decide

def IsValue (v : Value) : Prop :=
  ∃ secs nanos, v = ofParts secs nanos

theorem isValue_iff {v : Value} :
    IsValue v ↔ ∃ fields, v = .record fields ∧ record.Typed (fun e v => e.IsScalar v) fields := by
  constructor
  · rintro ⟨secs, nanos, rfl⟩
    refine ⟨_, rfl, rfl, forall_mem_pair.mpr ⟨trivial, trivial⟩, forall_mem_pair.mpr ⟨?_, ?_⟩⟩
    · exact List.forall_mem_singleton.mpr ⟨secs, rfl⟩
    · exact List.forall_mem_singleton.mpr ⟨nanos, rfl⟩
  · rintro ⟨fields, rfl, ht⟩
    have hparts := forall_mem_pair.mp ht.parts
    obtain ⟨secs, hsecs⟩ := hparts.1 _ (List.mem_singleton.mpr rfl)
    obtain ⟨nanos, hnanos⟩ := hparts.2 _ (List.mem_singleton.mpr rfl)
    refine ⟨secs, nanos, congrArg Value.record ?_⟩
    have hfields := Fields.map_get ht.names nodup_idents
    simp only [record, List.map_cons, List.map_nil] at hfields
    rw [← hfields]
    exact congrArg₂ (fun a b => [("secs", a), ("nanos", b)]) hsecs hnanos

end Timestamp

/-! ## A schema to try things on -/

namespace Sample

def fixDef : RecordDef where
  name := "Fix"
  fields := [{ name := "taken", typeName := "Timestamp" },
    { name := "tag", typeName := "char", length := some 2 }]

def trackDef : RecordDef where
  name := "Track"
  fields := [{ name := "n", typeName := "int8" }, { name := "fixes", typeName := "sequence<Fix>" },
    { name := "notes", typeName := "QVector<uint16>" }]

/-- A record that embeds another, a foreign type, a block, and a sequence of either sort. -/
def schema : Schema :=
  (({ moduleName := "tracks" } : Schema).addRecord fixDef).addRecord trackDef

def fixKinds : List FieldKind :=
  [.single (.foreign "Timestamp"), .array (.primitive .char) 2]

def trackKinds : List FieldKind :=
  [.single (.primitive .int8), .sequence (.record "Fix"), .sequence (.primitive .uint16)]

def resolved : Resolved :=
  schema.resolved [fixKinds, trackKinds] [0, 1]

theorem built : schema.Built :=
  .add trackDef (.add fixDef (.new "tracks" .bigEndian))

theorem accepted : schema.resolve.result = .ok resolved := by
  refine Schema.resolve_ok_iff.mpr ⟨?_, [fixKinds, trackKinds], [0, 1], ?_, ?_, rfl⟩
  · decide +kernel
  · decide +kernel
  · decide +kernel

theorem distinct : ∀ r ∈ resolved.records, (r.fields.map (·.ident)).Nodup := by
  decide +kernel

def fixRecord : ResolvedRecord where
  name := "Fix"
  typeName := "Fix"
  comment := none
  fields := [
    { name := "taken", snakeName := "taken", ident := "taken", typeName := "Timestamp"
      comment := none, kind := .single (.foreign "Timestamp"), countField := none },
    { name := "tag", snakeName := "tag", ident := "tag", typeName := "char", comment := none
      kind := .array (.primitive .char) 2, countField := none }]
  fixedLayout := false

def trackRecord : ResolvedRecord where
  name := "Track"
  typeName := "Track"
  comment := none
  fields := [
    { name := "n", snakeName := "n", ident := "n", typeName := "int8", comment := none
      kind := .single (.primitive .int8), countField := none },
    { name := "fixes", snakeName := "fixes", ident := "fixes", typeName := "sequence<Fix>"
      comment := none, kind := .sequence (.record "Fix"), countField := some 0 },
    { name := "notes", snakeName := "notes", ident := "notes", typeName := "QVector<uint16>"
      comment := none, kind := .sequence (.primitive .uint16), countField := none }]
  fixedLayout := false

theorem records : resolved.records = [fixRecord, trackRecord] := by
  decide +kernel

theorem getRecord?_fix : resolved.getRecord? "Fix" = some fixRecord := by
  decide +kernel

theorem getRecord?_track : resolved.getRecord? "Track" = some trackRecord := by
  decide +kernel

def fix : Value :=
  .record [("taken", Timestamp.ofParts 7 9),
    ("tag", .list [.scalar .char 0x6f, .scalar .char 0x6b])]

/-- A track with one fix, and a count of fixes that need not be right. -/
def track (n : BitVec Primitive.int8.width) : Value :=
  .record [("n", .scalar .int8 n), ("fixes", .list [fix]), ("notes", .list [.scalar .uint16 513])]

theorem fix_typed_of {s : Resolved} (hr : s.getRecord? "Fix" = some fixRecord) :
    s.Typed (fun _ => Timestamp.IsValue) (.record "Fix") fix := by
  refine .record hr rfl ?_ ?_
  · refine forall_mem_pair.mpr ⟨trivial, _, rfl, rfl⟩
  · refine forall_mem_pair.mpr ⟨?_, ?_⟩
    · exact List.forall_mem_singleton.mpr (.foreign ⟨7, 9, rfl⟩)
    · exact forall_mem_pair.mpr ⟨.primitive .char _, .primitive .char _⟩

theorem fix_typed : resolved.Typed (fun _ => Timestamp.IsValue) (.record "Fix") fix :=
  fix_typed_of getRecord?_fix

theorem track_typed (n : BitVec Primitive.int8.width) :
    resolved.Typed (fun _ => Timestamp.IsValue) (.record "Track") (track n) := by
  refine .record getRecord?_track rfl ?_ ?_
  · refine List.forall_mem_cons.mpr ⟨trivial, forall_mem_pair.mpr ⟨⟨_, rfl⟩, _, rfl⟩⟩
  · refine List.forall_mem_cons.mpr ⟨?_, forall_mem_pair.mpr ⟨?_, ?_⟩⟩
    · exact List.forall_mem_singleton.mpr (.primitive .int8 n)
    · exact List.forall_mem_singleton.mpr fix_typed
    · exact List.forall_mem_singleton.mpr (.primitive .uint16 _)

theorem fix_consistent (limit : Nat) : resolved.Consistent limit (.record "Fix") fix := by
  refine .record getRecord?_fix ?_ (by simp [ResolvedRecord.countedSequences, fixRecord]) ?_
  · exact forall_mem_pair.mpr ⟨by simp [FieldKind.isSequence], by simp [FieldKind.isSequence]⟩
  · refine forall_mem_pair.mpr ⟨?_, ?_⟩
    · exact fun v _ => .foreign "Timestamp" v
    · exact fun v _ => .primitive .char v

theorem track_consistent :
    resolved.Consistent defaultSequenceLimit (.record "Track") (track 1) := by
  refine .record getRecord?_track ?_ ?_ ?_
  · refine List.forall_mem_cons.mpr ⟨nofun, forall_mem_pair.mpr ⟨fun _ => ?_, fun _ => ?_⟩⟩
    · decide
    · decide
  · intro f count h
    obtain ⟨rfl, rfl⟩ := Prod.mk.inj (List.mem_singleton.mp h)
    decide
  · refine List.forall_mem_cons.mpr ⟨fun v _ => .primitive .int8 v, forall_mem_pair.mpr ⟨?_, ?_⟩⟩
    · exact List.forall_mem_singleton.mpr (fix_consistent _)
    · exact fun v _ => .primitive .uint16 v

theorem not_track_consistent :
    ¬ resolved.Consistent defaultSequenceLimit (.record "Track") (track 2) := by
  intro h
  have hcounted := ((Resolved.consistent_record getRecord?_track).mp h).counted
  exact absurd (hcounted _ _ (List.mem_singleton.mpr rfl)) (by decide)

def outside : String → Codec :=
  fun _ => Timestamp.codec

/-- The track with the right count on the wire. -/
def trackBytes : List UInt8 :=
  [1, 0, 0, 0, 0, 0, 0, 0, 7, 0, 0, 0, 9, 0x6f, 0x6b, 0, 0, 0, 1, 2, 1]

theorem encode_track :
    (resolved.codec? outside "Track").map (·.encodeBytes .bigEndian (track 1)) =
      some (.ok trackBytes) := by
  decide +kernel

theorem decode_track :
    (resolved.codec? outside "Track").map (·.decodeBytes .bigEndian trackBytes) =
      some (.ok (track 1)) :=
  rfl

/-- The track with a wrong count on the wire, in the other order. -/
def miscountedBytes : List UInt8 :=
  [2, 7, 0, 0, 0, 0, 0, 0, 0, 9, 0, 0, 0, 0x6f, 0x6b, 1, 0, 0, 0, 1, 2]

theorem encode_miscounted :
    (resolved.codec? outside "Track").map (·.encodeBytes .littleEndian (track 2)) =
      some (.ok miscountedBytes) := by
  decide +kernel

end Sample
end RecordWire
