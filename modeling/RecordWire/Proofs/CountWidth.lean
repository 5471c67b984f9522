import RecordWire.Proofs.TypedDecoding
import RecordWire.Proofs.WireFormat

/-!
The two ways to put a sequence on the wire, side by side.  A sequence that a field counts stands
behind that count, one that no field counts behind a length of four bytes, and the elements are the
same.  So the two agree if the count has four bytes, and otherwise not even their lengths do.

This rests on what encoders have in common: none looks at what was written before.
-/

namespace RecordWire

/-! ## Encoders that do not look back -/

/-- `write` fails, or puts bytes behind what is there, and looks at nothing but the byte order. -/
def Standalone (write : Writer → Except WireError Writer) : Prop :=
  ∃ bytes : ByteOrder → Except WireError (List UInt8),
    ∀ w, write w = (bytes w.order).map w.putRaw

namespace Standalone

variable {write next : Writer → Except WireError Writer}

theorem of_putRaw (bytes : ByteOrder → List UInt8)
    (h : ∀ w, write w = .ok (w.putRaw (bytes w.order))) : Standalone write :=
  ⟨fun order => .ok (bytes order), h⟩

theorem bind (h : Standalone write) (h' : Standalone next) :
    Standalone fun w => write w >>= next := by
  obtain ⟨bytes, hbytes⟩ := h
  obtain ⟨bytes', hbytes'⟩ := h'
  refine ⟨fun order => bytes order >>= fun bs => (bytes' order).map (bs ++ ·), fun w => ?_⟩
  dsimp only
  rw [hbytes]
  cases bytes w.order with
  | error e => rfl
  | ok bs =>
    show next (w.putRaw bs) = ((bytes' w.order).map (bs ++ ·)).map w.putRaw
    rw [hbytes', Writer.putRaw]
    cases bytes' w.order with
    | error e => rfl
    | ok bs' => exact congrArg Except.ok (w.putRaw_putRaw bs bs')

end Standalone

theorem putLength_standalone (n : Nat) : Standalone (·.putLength n) := by
  by_cases hn : n < Nat.pow 2 32
  · refine .of_putRaw (fun order => order.wordBytes 4 n) fun w => ?_
    show w.putLength n = _
    rw [Writer.putLength, if_pos hn]
  · refine ⟨fun _ => .error (.lengthOverflow n), fun w => ?_⟩
    show w.putLength n = _
    rw [Writer.putLength, if_neg hn]
    rfl

theorem Codec.encodeAll_standalone {c : Codec} {items : List Value}
    (h : ∀ v ∈ items, Standalone (c.encode v)) : Standalone (c.encodeAll items) := by
  induction items with
  | nil => exact .of_putRaw (fun _ => []) fun w => congrArg Except.ok w.putRaw_nil.symm
  | cons v items ih =>
    rw [List.forall_mem_cons] at h
    rw [funext (c.encodeAll_cons v items)]
    exact h.1.bind (ih h.2)

section Records

variable {codecs : Element → Codec}

theorem Element.writeArray_standalone {e : Element} {items : List Value}
    (h : ∀ v ∈ items, Standalone ((codecs e).encode v)) :
    Standalone fun w => e.writeArray codecs items w := by
  cases e with
  | record name => exact Codec.encodeAll_standalone h
  | foreign name => exact Codec.encodeAll_standalone h
  | primitive p =>
    by_cases hb : p.isByte = true
    · simp only [writeArray, if_pos hb]
      exact .of_putRaw (fun _ => items.map Value.toByte) fun w => rfl
    · simp only [writeArray, if_neg hb]
      exact Codec.encodeAll_standalone h

theorem ResolvedField.write_standalone {f : ResolvedField} {v : Value}
    (h : ∀ u ∈ f.kind.parts v, Standalone ((codecs f.kind.element).encode u)) :
    Standalone (f.write codecs v) := by
  show Standalone fun w => f.write codecs v w
  simp only [write]
  cases hk : f.kind with
  | single e =>
    rw [hk] at h
    exact h v (List.mem_singleton.mpr rfl)
  | array e n =>
    rw [hk] at h
    exact Element.writeArray_standalone h
  | sequence e =>
    rw [hk] at h
    by_cases hc : f.countField.isSome = true
    · simp only [hc, if_true]
      exact Codec.encodeAll_standalone h
    · simp only [hc, Bool.false_eq_true, if_false]
      exact (putLength_standalone _).bind (Codec.encodeAll_standalone h)

theorem writeFields_standalone {fields : Fields} {fs : List ResolvedField}
    (h : ∀ f ∈ fs, ∀ u ∈ f.kind.parts (fields.get f.ident),
      Standalone ((codecs f.kind.element).encode u)) :
    Standalone (writeFields codecs fields fs) := by
  induction fs with
  | nil => exact .of_putRaw (fun _ => []) fun w => congrArg Except.ok w.putRaw_nil.symm
  | cons f fs ih =>
    rw [List.forall_mem_cons] at h
    exact (ResolvedField.write_standalone h.1).bind (ih h.2)

end Records

/-- Every well-typed value is written without a look at what was written before, if the foreign
values in it are. -/
theorem Resolved.Sound.encode_standalone {s : Resolved} {outside : String → Codec}
    {values : String → Value → Prop} (hs : s.Sound)
    (ho : ∀ name v, values name v → Standalone ((outside name).encode v)) {e : Element} {v : Value}
    (h : s.Typed values e v) : Standalone ((s.elementCodec outside e).encode v) := by
  induction h with
  | primitive p bits =>
    exact .of_putRaw (fun order => order.wordBytes p.size bits.toNat) fun w => rfl
  | foreign hv => exact ho _ _ hv
  | @record name r fields hfound _ _ _ ih =>
    obtain ⟨hr, rfl⟩ := hs.getRecord?_eq_some.mp hfound
    rw [hs.elementCodec_record hr, funext (ResolvedRecord.encode_eq _ fields r)]
    exact writeFields_standalone ih

/-! ## Behind a count and behind a length -/

/-- Elements that can be written one by one can be written in a row, and take the same bytes
wherever they stand. -/
theorem Codec.exists_body {c : Codec} {order : ByteOrder} {items : List Value}
    (h : ∀ v ∈ items, Standalone (c.encode v))
    (he : ∀ v ∈ items, ∃ bytes, c.encodeBytes order v = .ok bytes) :
    ∃ body, ∀ w : Writer, w.order = order → c.encodeAll items w = .ok (w.putRaw body) := by
  induction items with
  | nil => exact ⟨[], fun w _ => congrArg Except.ok w.putRaw_nil.symm⟩
  | cons v items ih =>
    rw [List.forall_mem_cons] at h he
    obtain ⟨body, hbody⟩ := ih h.2 he.2
    obtain ⟨bytes, hbytes⟩ := h.1
    obtain ⟨first, hfirst⟩ : ∃ first, bytes order = .ok first := by
      obtain ⟨whole, hwhole⟩ := he.1
      rw [encodeBytes, hbytes] at hwhole
      cases hb : bytes order with
      | error e => simp [hb, Except.map] at hwhole
      | ok first => exact ⟨first, rfl⟩
    refine ⟨first ++ body, fun w hw => ?_⟩
    rw [encodeAll_cons, hbytes, hw, hfirst]
    show c.encodeAll items (w.putRaw first) = _
    rw [hbody (w.putRaw first) hw, Writer.putRaw_putRaw]

theorem Codec.encodeBytes_eq_ok {c : Codec} {order : ByteOrder} {v : Value} {bytes : List UInt8}
    (h : c.encode v { order := order } = .ok (Writer.putRaw { order := order } bytes)) :
    c.encodeBytes order v = .ok bytes := by
  rw [encodeBytes, h]
  rfl

theorem ByteOrder.wordBytes_append_eq_iff (order : ByteOrder) (m k n : Nat) (body : List UInt8) :
    order.wordBytes m n ++ body = order.wordBytes k n ++ body ↔ m = k := by
  constructor
  · intro h
    have hl := congrArg List.length h
    rw [List.length_append, List.length_append, length_wordBytes, length_wordBytes] at hl
    omega
  · rintro rfl
    rfl

namespace ResolvedRecord

variable {r : ResolvedRecord} {codecs : Element → Codec} {order : ByteOrder} {e : Element}
  {items : List Value} {body : List UInt8}

/-- The value of a record with the values of its fields in declared order. -/
def valueOf (r : ResolvedRecord) (values : List Value) : Value :=
  .record ((r.fields.map (·.ident)).zip values)

/-- A sequence alone is written behind its length. -/
theorem encode_prefixed {f : ResolvedField} (hf : r.fields = [f]) (hk : f.kind = .sequence e)
    (hc : f.countField = none)
    (hbody : ∀ w : Writer, w.order = order → (codecs e).encodeAll items w = .ok (w.putRaw body))
    (hl : items.length < 2 ^ 32) :
    (r.codec codecs).encodeBytes order (r.valueOf [.list items]) =
      .ok (order.wordBytes 4 items.length ++ body) := by
  have hget : Fields.get ((r.fields.map (·.ident)).zip [.list items]) f.ident = .list items := by
    rw [hf]
    exact (Fields.get_cons ..).trans (if_pos rfl)
  have hwrite : ∀ w : Writer, w.order = order → f.write codecs (.list items) w =
      .ok (w.putRaw (order.wordBytes 4 items.length ++ body)) := by
    intro w hw
    have hlength : w.putLength items.length =
        .ok (w.putRaw (order.wordBytes 4 items.length)) := by
      rw [← hw]
      exact if_pos hl
    rw [ResolvedField.write, hk]
    simp only [hc, Option.isSome_none, Bool.false_eq_true, if_false, Value.items, hlength]
    show (codecs e).encodeAll items (w.putRaw (order.wordBytes 4 items.length)) = _
    rw [hbody (w.putRaw _) hw, Writer.putRaw_putRaw]
  apply Codec.encodeBytes_eq_ok
  rw [valueOf, encode_eq, hf, writeFields, ← hf, hget, hwrite _ rfl]
  rfl

/-- A sequence behind the field that counts it is written behind that alone. -/
theorem encode_counted {p : Primitive} {count f : ResolvedField} (hf : r.fields = [count, f])
    (hk : count.kind = .single (.primitive p)) (hk' : f.kind = .sequence e)
    (hc : f.countField.isSome = true) (hd : (r.fields.map (·.ident)).Nodup)
    (hscalar : codecs (.primitive p) = .scalar p)
    (hbody : ∀ w : Writer, w.order = order → (codecs e).encodeAll items w = .ok (w.putRaw body))
    (bits : BitVec p.width) :
    (r.codec codecs).encodeBytes order (r.valueOf [.scalar p bits, .list items]) =
      .ok (order.wordBytes p.size bits.toNat ++ body) := by
  have hne : f.ident ≠ count.ident := by
    rw [hf] at hd
    simpa [eq_comm] using hd
  have hget : Fields.get ((r.fields.map (·.ident)).zip [.scalar p bits, .list items])
      count.ident = .scalar p bits := by
    rw [hf]
    exact (Fields.get_cons ..).trans (if_pos rfl)
  have hget' : Fields.get ((r.fields.map (·.ident)).zip [.scalar p bits, .list items]) f.ident =
      .list items := by
    rw [hf]
    exact (Fields.get_cons ..).trans ((if_neg hne).trans ((Fields.get_cons ..).trans (if_pos rfl)))
  have hwrite : ∀ w : Writer, count.write codecs (.scalar p bits) w = .ok (w.putScalar p bits) := by
    intro w
    rw [ResolvedField.write, hk]
    show (codecs (.primitive p)).encode (.scalar p bits) w = _
    rw [hscalar]
    rfl
  have hwrite' : ∀ w : Writer, w.order = order →
      f.write codecs (.list items) w = .ok (w.putRaw body) := by
    intro w hw
    rw [ResolvedField.write, hk']
    simp only [hc, if_true, Value.items]
    exact hbody w hw
  apply Codec.encodeBytes_eq_ok
  rw [valueOf, encode_eq, hf, writeFields, ← hf, hget, hwrite]
  show f.write codecs _ _ >>= writeFields codecs _ [] = _
  rw [hget', hwrite' _ rfl]
  exact congrArg Except.ok (Writer.putRaw_putRaw ..)

end ResolvedRecord

/-- For every accepted schema and every type of elements, a record that counts its sequence and one
that does not are written alike, with the same elements and a count that is right, if and only if
the count has four bytes.  The two may be records of the schema or new ones over its types. -/
theorem counted_eq_prefixed_iff {schema : Schema} {s : Resolved} {outside : String → Codec}
    {values : String → Value → Prop} (built : schema.Built)
    (accepted : schema.resolve.result = .ok s)
    (lawful : ∀ name v, values name v → Standalone ((outside name).encode v))
    {e : Element} {p : Primitive} (integer : p.isInteger = true)
    {counted plain : ResolvedRecord} {count items items' : FieldDef}
    (declared : counted.fields =
      resolveFields none 0 [(count, .single (.primitive p)), (items, .sequence e)])
    (declared' : plain.fields = resolveFields none 0 [(items', .sequence e)])
    (distinct : (counted.fields.map (·.ident)).Nodup) {order : ByteOrder} {xs : List Value}
    (typed : ∀ x ∈ xs, s.Typed values e x)
    (encodable : ∀ x ∈ xs, ∃ bytes, (s.elementCodec outside e).encodeBytes order x = .ok bytes)
    {bits : BitVec p.width} (fits : p.number bits = xs.length) (fits' : xs.length < 2 ^ 32) :
    (∀ r ∈ s.records, s.codec? outside r.name = some (r.codec (s.elementCodec outside))) ∧
    ∃ a b, (counted.codec (s.elementCodec outside)).encodeBytes order
        (counted.valueOf [.scalar p bits, .list xs]) = .ok a ∧
      (plain.codec (s.elementCodec outside)).encodeBytes order (plain.valueOf [.list xs]) = .ok b ∧
      (a = b ↔ p.size = 4) := by
  have hs := built.sound accepted
  refine ⟨fun r hr => hs.lookup_codecs hr, ?_⟩
  obtain ⟨body, hbody⟩ :=
    Codec.exists_body (fun x hx => hs.encode_standalone lawful (typed x hx)) encodable
  have hcount : (countPosition (some (.single (.primitive p))) 1 (.sequence e)).isSome = true := by
    simp [countPosition, FieldKind.isSequence, FieldKind.countType?, integer]
  refine ⟨_, _, ResolvedRecord.encode_counted declared rfl rfl hcount distinct rfl hbody bits,
    ResolvedRecord.encode_prefixed declared' rfl rfl hbody fits', ?_⟩
  rw [Primitive.toNat_of_number fits]
  exact order.wordBytes_append_eq_iff p.size 4 xs.length body

namespace Sample

def ringDef : RecordDef where
  name := "Ring"
  fields := [{ name := "n", typeName := "i32" }, { name := "fixes", typeName := "sequence<Fix>" }]

def coilDef : RecordDef where
  name := "Coil"
  fields := [{ name := "n", typeName := "i16" }, { name := "fixes", typeName := "sequence<Fix>" }]

def heapDef : RecordDef where
  name := "Heap"
  fields := [{ name := "fixes", typeName := "QVector<Fix>" }]

/-- The same sequence behind a count of four bytes, behind a count of two, and alone. -/
def loops : Schema :=
  (((({ moduleName := "loops" } : Schema).addRecord fixDef).addRecord ringDef).addRecord
    coilDef).addRecord heapDef

def loopsKinds : List (List FieldKind) :=
  [fixKinds, [.single (.primitive .int32), .sequence (.record "Fix")],
    [.single (.primitive .int16), .sequence (.record "Fix")], [.sequence (.record "Fix")]]

def loopsResolved : Resolved :=
  loops.resolved loopsKinds [0, 1, 2, 3]

theorem loops_built : loops.Built :=
  .add heapDef (.add coilDef (.add ringDef (.add fixDef (.new "loops" .bigEndian))))

theorem loops_accepted : loops.resolve.result = .ok loopsResolved := by
  refine Schema.resolve_ok_iff.mpr ⟨?_, loopsKinds, [0, 1, 2, 3], ?_, ?_, rfl⟩
  · decide +kernel
  · decide +kernel
  · decide +kernel

def ringRecord : ResolvedRecord :=
  .ofDef ringDef [.single (.primitive .int32), .sequence (.record "Fix")]

def coilRecord : ResolvedRecord :=
  .ofDef coilDef [.single (.primitive .int16), .sequence (.record "Fix")]

def heapRecord : ResolvedRecord :=
  .ofDef heapDef [.sequence (.record "Fix")]

theorem loops_records :
    loopsResolved.records = [fixRecord, ringRecord, coilRecord, heapRecord] := by
  decide +kernel

theorem getRecord?_loops : loopsResolved.getRecord? "Fix" = some fixRecord := by
  decide +kernel

theorem encode_fix :
    (loopsResolved.elementCodec outside (.record "Fix")).encodeBytes .littleEndian fix =
      .ok [7, 0, 0, 0, 0, 0, 0, 0, 9, 0, 0, 0, 0x6f, 0x6b] := by
  decide +kernel

end Sample

/-- A fix behind a count of four bytes takes the bytes that it takes behind a length, and not so
behind a count of two. -/
theorem ring_written_like_heap :
    ∃ ring coil heap, Sample.loopsResolved.codec? Sample.outside "Ring" = some ring ∧
      Sample.loopsResolved.codec? Sample.outside "Coil" = some coil ∧
      Sample.loopsResolved.codec? Sample.outside "Heap" = some heap ∧
      ∃ a b c,
        ring.encodeBytes .littleEndian
          (Sample.ringRecord.valueOf [.scalar .int32 1, .list [Sample.fix]]) = .ok a ∧
        coil.encodeBytes .littleEndian
          (Sample.coilRecord.valueOf [.scalar .int16 1, .list [Sample.fix]]) = .ok b ∧
        heap.encodeBytes .littleEndian (Sample.heapRecord.valueOf [.list [Sample.fix]]) = .ok c ∧
        a = c ∧ b ≠ c := by
  have lawful : ∀ name v, Timestamp.IsValue v → Standalone ((Sample.outside name).encode v) :=
    fun _ v hv => .of_putRaw (fun order => Timestamp.bytes order v) fun w => Timestamp.writes v w hv
  have typed : ∀ x ∈ [Sample.fix],
      Sample.loopsResolved.Typed (fun _ => Timestamp.IsValue) (.record "Fix") x :=
    List.forall_mem_singleton.mpr (Sample.fix_typed_of Sample.getRecord?_loops)
  have encodable : ∀ x ∈ [Sample.fix], ∃ bytes, (Sample.loopsResolved.elementCodec Sample.outside
      (.record "Fix")).encodeBytes .littleEndian x = .ok bytes :=
    List.forall_mem_singleton.mpr ⟨_, Sample.encode_fix⟩
  have ring : Sample.ringRecord.fields = resolveFields none 0
      [({ name := "n", typeName := "i32" }, .single (.primitive .int32)),
        ({ name := "fixes", typeName := "sequence<Fix>" }, .sequence (.record "Fix"))] := rfl
  have coil : Sample.coilRecord.fields = resolveFields none 0
      [({ name := "n", typeName := "i16" }, .single (.primitive .int16)),
        ({ name := "fixes", typeName := "sequence<Fix>" }, .sequence (.record "Fix"))] := rfl
  have heap : Sample.heapRecord.fields = resolveFields none 0
      [({ name := "fixes", typeName := "QVector<Fix>" }, .sequence (.record "Fix"))] := rfl
  have fits : Primitive.int32.number 1 = [Sample.fix].length := by decide
  have fits' : Primitive.int16.number 1 = [Sample.fix].length := by decide
  obtain ⟨table, a, c, ha, hc, hac⟩ := counted_eq_prefixed_iff Sample.loops_built
    Sample.loops_accepted lawful rfl ring heap (by decide +kernel) typed encodable fits (by decide)
  obtain ⟨-, b, c', hb, hc', hbc⟩ := counted_eq_prefixed_iff Sample.loops_built
    Sample.loops_accepted lawful rfl coil heap (by decide +kernel) typed encodable fits'
    (by decide)
  cases hc.symm.trans hc'
  rw [Sample.loops_records] at table
  refine ⟨_, _, _, table Sample.ringRecord (by simp), table Sample.coilRecord (by simp),
    table Sample.heapRecord (by simp), a, b, c, ha, hb, hc, hac.mpr rfl, fun h => ?_⟩
  exact absurd (hbc.mp h) (by decide)

end RecordWire
