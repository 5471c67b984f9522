import RecordWire.Proofs.CodecTable
import RecordWire.Proofs.PlanSize
import RecordWire.Proofs.Values
import RecordWire.Proofs.Words

/-!
Round trip.  What is encoded decodes to the same value exactly when the value is consistent: a
count that does not match its sequence makes the decoder read another number of elements, and a
sequence over the limit is refused.
-/

namespace RecordWire

/-! ## Reading back -/

namespace Reading

variable {α β γ : Type} {order : ByteOrder} {limit : Nat}

/-- With `bytes` in front, `p` gives `a` exactly if `cond` holds, and then takes just these
bytes. -/
def Recovers (p : Reading α) (order : ByteOrder) (limit : Nat) (bytes : List UInt8) (a : α)
    (cond : Prop) : Prop :=
  ∀ r : Reader, r.order = order → r.limit = limit → bytes <+: r.rest →
    (cond → p r = .ok (a, r.skip bytes.length)) ∧ ∀ r', p r = .ok (a, r') → cond

theorem Recovers.congr {p : Reading α} {bytes : List UInt8} {a : α} {c c' : Prop}
    (h : p.Recovers order limit bytes a c) (hc : c ↔ c') : p.Recovers order limit bytes a c' := by
  rw [propext hc] at h
  exact h

theorem recovers_pure (a : α) : (pure a : Reading α).Recovers order limit [] a True :=
  fun _ _ _ _ => ⟨fun _ => rfl, fun _ _ => trivial⟩

/-- Two readings one after the other, where the result shows what each has read. -/
theorem Recovers.pair {p : Reading α} {q : α → Reading β} {g : α → β → γ}
    {bytes bytes' : List UInt8} {a : α} {b : β} {c c' : Prop}
    (hp : p.Recovers order limit bytes a c) (hq : (q a).Recovers order limit bytes' b c')
    (hg : ∀ x y, g x y = g a b → x = a ∧ y = b) :
    (do
      let x ← p
      let y ← q x
      pure (g x y)).Recovers order limit (bytes ++ bytes') (g a b) (c ∧ c') := by
  intro r ho hl hb
  obtain ⟨after, hafter⟩ := hb
  rw [List.append_assoc] at hafter
  obtain ⟨hp₁, hp₂⟩ := hp r ho hl ⟨_, hafter⟩
  have hrest : bytes' <+: (r.skip bytes.length).rest := by
    rw [Reader.rest_skip, ← hafter, List.drop_left]
    exact List.prefix_append ..
  obtain ⟨hq₁, hq₂⟩ := hq (r.skip bytes.length) ho hl hrest
  constructor
  · rintro ⟨hc, hc'⟩
    simp only [bind_apply, hp₁ hc, hq₁ hc', pure_apply, Reader.skip_skip, List.length_append]
  · intro r' h
    obtain ⟨x, r₁, hx, h⟩ := bind_eq_ok.mp h
    obtain ⟨y, r₂, hy, h⟩ := bind_eq_ok.mp h
    rw [pure_apply, Except.ok.injEq, Prod.mk.injEq] at h
    obtain ⟨rfl, rfl⟩ := hg x y h.1
    have hc := hp₂ r₁ hx
    obtain rfl : r.skip bytes.length = r₁ := by simpa [hp₁ hc] using hx
    exact ⟨hc, hq₂ r₂ hy⟩

theorem Recovers.map {p : Reading α} {g : α → β} {bytes : List UInt8} {a : α} {c : Prop}
    (hp : p.Recovers order limit bytes a c) (hg : ∀ x, g x = g a → x = a) :
    (g <$> p).Recovers order limit bytes (g a) c := by
  intro r ho hl hb
  obtain ⟨hp₁, hp₂⟩ := hp r ho hl hb
  constructor
  · intro hc
    rw [map_apply, hp₁ hc]
  · intro r' h
    obtain ⟨x, hx, hgx⟩ := map_eq_ok.mp h
    obtain rfl := hg x hgx
    exact hp₂ r' hx

theorem word_of_starts {size n : Nat} (hn : n < 256 ^ size) {r : Reader}
    (h : r.order.wordBytes size n <+: r.rest) : word size r = .ok (n, r.skip size) :=
  word_eq_ok.mpr ⟨_, h, ByteOrder.length_wordBytes .., rfl, ByteOrder.ofWordBytes_wordBytes _ hn⟩

theorem recovers_raw (bytes : List UInt8) :
    (raw bytes.length).Recovers order limit bytes bytes True :=
  fun _ _ _ hb => ⟨fun _ => raw_eq_ok.mpr ⟨hb, rfl, rfl⟩, fun _ _ => trivial⟩

theorem recovers_word {size n : Nat} (hn : n < 256 ^ size) :
    (word size).Recovers order limit (order.wordBytes size n) n True := by
  rintro r rfl - hb
  refine ⟨fun _ => ?_, fun _ _ => trivial⟩
  rw [word_of_starts hn hb, ByteOrder.length_wordBytes]

end Reading

/-! ## Codecs -/

namespace Codec

/-- What is written for a typed value is read back, whatever follows it, exactly if the value is
consistent.  It is never shorter than the least size. -/
def RoundTrips (c : Codec) (typed : Value → Prop) (consistent : Nat → Value → Prop) : Prop :=
  ∀ v w w', typed v → c.encode v w = .ok w' →
    ∃ bytes, w' = w.putRaw bytes ∧ c.minSize ≤ bytes.length ∧
      ∀ limit, c.read.Recovers w.order limit bytes v (consistent limit v)

theorem scalar_recovers (p : Primitive) (bits : BitVec p.width) (order : ByteOrder) (limit : Nat) :
    (scalar p).read.Recovers order limit (order.wordBytes p.size bits.toNat) (.scalar p bits)
      True := by
  have hlt : bits.toNat < 256 ^ p.size := by
    rw [← p.two_pow_width]
    exact bits.isLt
  intro r ho hl hb
  refine ⟨fun _ => ?_, fun _ _ => trivial⟩
  rw [scalar_read, Reading.map_apply, ((Reading.recovers_word hlt) r ho hl hb).1 trivial]
  simp only [BitVec.ofNat_toNat, BitVec.setWidth_eq]

variable {c : Codec} {typed : Value → Prop} {consistent : Nat → Value → Prop}

theorem RoundTrips.all (hc : c.RoundTrips typed consistent) {items : List Value} {w w' : Writer}
    (ht : ∀ v ∈ items, typed v) (he : c.encodeAll items w = .ok w') :
    ∃ bytes, w' = w.putRaw bytes ∧ items.length * c.minSize ≤ bytes.length ∧
      ∀ limit, (c.readEach items.length).Recovers w.order limit bytes items
        (∀ v ∈ items, consistent limit v) := by
  induction items generalizing w with
  | nil =>
    obtain rfl : w = w' := by simpa [encodeAll] using he
    refine ⟨[], w.putRaw_nil.symm, by simp, fun limit => ?_⟩
    exact (Reading.recovers_pure []).congr (by simp)
  | cons v items ih =>
    rw [encodeAll_cons] at he
    obtain ⟨w₁, hv, hitems⟩ := bind_eq_ok.mp he
    obtain ⟨bytes, rfl, hsize, hread⟩ := hc v w w₁ (ht v (List.mem_cons_self ..)) hv
    obtain ⟨bytes', rfl, hsize', hread'⟩ := ih (fun u hu => ht u (List.mem_cons_of_mem _ hu)) hitems
    refine ⟨bytes ++ bytes', w.putRaw_putRaw .., ?_, fun limit => ?_⟩
    · rw [List.length_cons, Nat.add_mul, Nat.one_mul, List.length_append]
      omega
    · rw [List.forall_mem_cons]
      exact (hread limit).pair (hread' limit) fun x y h => List.cons.inj h

end Codec

/-! ## Sequences and arrays -/

theorem readElements_recovers {c : Codec} {order : ByteOrder} {limit : Nat} {bytes : List UInt8}
    {items : List Value} {cond : Prop}
    (hread : (c.readEach items.length).Recovers order limit bytes items cond)
    (hsize : items.length * c.minSize ≤ bytes.length) (n : Nat) :
    (do
      Reading.check c.minSize n
      Value.list <$> c.readEach n).Recovers order limit bytes (.list items)
        ((items.length ≤ limit ∧ items.length = n) ∧ cond) := by
  intro r ho hl hb
  obtain ⟨hread₁, hread₂⟩ := hread r ho hl hb
  constructor
  · rintro ⟨⟨hlimit, rfl⟩, hcond⟩
    have hcheck : Reading.check c.minSize items.length r = .ok ((), r) := by
      have hsat := saturate_le (items.length * c.minSize)
      have hrest := hb.length_le
      exact Reading.check_eq_ok.mpr ⟨by omega, by omega, rfl⟩
    simp only [Reading.bind_apply, hcheck, Reading.map_apply, hread₁ hcond]
  · intro r' h
    obtain ⟨u, r₁, hcheck, h⟩ := Reading.bind_eq_ok.mp h
    obtain ⟨hlimit, -, rfl⟩ := Reading.check_eq_ok.mp hcheck
    obtain ⟨vs, hvs, heq⟩ := Reading.map_eq_ok.mp h
    obtain rfl : vs = items := Value.list.inj heq
    obtain rfl := Codec.length_of_readEach hvs
    exact ⟨⟨hl ▸ hlimit, rfl⟩, hread₂ r' hvs⟩

theorem lengthPrefix_recovers {α : Type} {p : Nat → Reading α} {order : ByteOrder} {limit n : Nat}
    {bytes : List UInt8} {a : α} {cond : Prop} (hn : n < 2 ^ 32)
    (hp : (p n).Recovers order limit bytes a cond) :
    (Reading.length >>= p).Recovers order limit (order.wordBytes 4 n ++ bytes) a
      (n ≤ limit ∧ cond) := by
  intro r ho hl hb
  obtain ⟨after, hafter⟩ := hb
  rw [List.append_assoc] at hafter
  have hword : Reading.word 4 r = .ok (n, r.skip 4) :=
    Reading.word_of_starts hn (ho ▸ ⟨_, hafter⟩)
  have hrest : bytes <+: (r.skip 4).rest := by
    have hdrop : (order.wordBytes 4 n ++ (bytes ++ after)).drop 4 = bytes ++ after :=
      List.drop_left' (order.length_wordBytes 4 n)
    rw [Reader.rest_skip, ← hafter, hdrop]
    exact List.prefix_append ..
  obtain ⟨hp₁, hp₂⟩ := hp (r.skip 4) ho hl hrest
  rw [Reading.bind_apply, Reading.length_eq, Reading.bind_apply, hword]
  simp only [Reading.bind_apply, Reading.bounded, Reader.skip_limit, hl]
  by_cases hlimit : limit < n
  · rw [if_pos hlimit]
    exact ⟨fun h => absurd h.1 (by omega), fun r' h => by cases h⟩
  · rw [if_neg hlimit, List.length_append, ByteOrder.length_wordBytes, ← Reader.skip_skip]
    exact ⟨fun h => hp₁ h.2, fun r' h => ⟨by omega, hp₂ r' h⟩⟩

/-- A sequence behind its length is read back unless it is over the limit. -/
theorem writePrefixed_recovers {c : Codec} {typed : Value → Prop} {consistent : Nat → Value → Prop}
    (hc : c.RoundTrips typed consistent) {items : List Value} (ht : ∀ v ∈ items, typed v)
    {w w' : Writer} (he : w.putLength items.length >>= c.encodeAll items = .ok w') :
    ∃ bytes, w' = w.putRaw bytes ∧ 4 ≤ bytes.length ∧
      ∀ limit, (do
        let n ← Reading.length
        Reading.check c.minSize n
        Value.list <$> c.readEach n).Recovers w.order limit bytes (.list items)
          (items.length ≤ limit ∧ ∀ v ∈ items, consistent limit v) := by
  obtain ⟨w₁, hlength, hitems⟩ := bind_eq_ok.mp he
  rw [Writer.putLength] at hlength
  split at hlength
  · rename_i hlt
    obtain rfl := Except.ok.inj hlength
    obtain ⟨bytes, rfl, hsize, hread⟩ := hc.all ht hitems
    refine ⟨_, Writer.putRaw_putRaw .., ?_, fun limit => ?_⟩
    · rw [List.length_append, ByteOrder.length_wordBytes]
      exact Nat.le_add_right ..
    · refine (lengthPrefix_recovers hlt (readElements_recovers (hread limit) hsize _)).congr ?_
      simp
  · cases hlength

/-- A block of bytes is read back element by element. -/
theorem block_recovers {p : Primitive} (hp : p.isByte = true) {items : List Value}
    (ht : ∀ v ∈ items, ∃ bits, v = .scalar p bits) (order : ByteOrder) (limit : Nat) :
    (List.map (Value.ofByte p) <$> Reading.raw items.length).Recovers order limit
      (items.map Value.toByte) items True := by
  have hitems : (items.map Value.toByte).map (Value.ofByte p) = items := by
    rw [List.map_map]
    refine (List.map_congr_left fun v hv => ?_).trans (List.map_id items)
    obtain ⟨bits, rfl⟩ := ht v hv
    exact Value.ofByte_toByte hp bits
  have hinj : Function.Injective (List.map (Value.ofByte p)) := by
    refine List.map_injective_iff.mpr fun b b' h => ?_
    rw [← Value.toByte_ofByte hp b, h, Value.toByte_ofByte hp]
  have hraw : (Reading.raw (items.map Value.toByte).length).Recovers order limit
      (items.map Value.toByte) (items.map Value.toByte) True :=
    Reading.recovers_raw _
  have h := hraw.map fun x h => hinj h
  rwa [hitems, List.length_map] at h

section Elements

variable {codecs : Element → Codec} {typed : Element → Value → Prop}
  {consistent : Nat → Element → Value → Prop}

/-- A primitive is a scalar, and always consistent. -/
structure PrimitiveLaws (codecs : Element → Codec) (typed : Element → Value → Prop)
    (consistent : Nat → Element → Value → Prop) : Prop where
  scalar : ∀ p, codecs (.primitive p) = .scalar p
  exists_bits : ∀ p v, typed (.primitive p) v → ∃ bits, v = .scalar p bits
  consistent : ∀ limit p v, consistent limit (.primitive p) v

theorem PrimitiveLaws.roundTrips (hp : PrimitiveLaws codecs typed consistent) (p : Primitive) :
    (codecs (.primitive p)).RoundTrips (typed (.primitive p)) (consistent · (.primitive p)) := by
  rw [hp.scalar]
  intro v w w' ht he
  obtain ⟨bits, rfl⟩ := hp.exists_bits p v ht
  obtain rfl : w.putScalar p bits = w' := Except.ok.inj he
  refine ⟨_, rfl, Nat.le_of_eq (ByteOrder.length_wordBytes ..).symm, fun limit => ?_⟩
  exact (Codec.scalar_recovers p bits w.order limit).congr (by simp [hp.consistent])

theorem writeArray_recovers (hp : PrimitiveLaws codecs typed consistent) {e : Element}
    (hc : (codecs e).RoundTrips (typed e) (consistent · e)) {items : List Value} {w w' : Writer}
    (ht : ∀ v ∈ items, typed e v) (he : e.writeArray codecs items w = .ok w') :
    ∃ bytes, w' = w.putRaw bytes ∧ items.length * (codecs e).minSize ≤ bytes.length ∧
      ∀ limit, (e.readArray codecs items.length).Recovers w.order limit bytes items
        (∀ v ∈ items, consistent limit e v) := by
  cases e with
  | record name => exact hc.all ht he
  | foreign name => exact hc.all ht he
  | primitive p =>
    rw [Element.writeArray] at he
    simp only [Element.readArray]
    by_cases hb : p.isByte = true
    · rw [if_pos hb] at he
      simp only [if_pos hb]
      obtain rfl := Except.ok.inj he
      refine ⟨_, rfl, ?_, fun limit => ?_⟩
      · rw [minSize_of_isByte hp.scalar hb, List.length_map, Nat.mul_one]
      · refine (block_recovers hb (fun v hv => hp.exists_bits p v (ht v hv)) w.order limit).congr ?_
        simp [hp.consistent]
    · rw [if_neg hb] at he
      simp only [if_neg hb]
      exact hc.all ht he

/-! ## Fields -/

/-- A sequence is within the limit, and as long as the value before it says if that counts it. -/
def ResolvedField.Sized (limit : Nat) (before v : Value) (f : ResolvedField) : Prop :=
  f.kind.isSequence = true →
    v.items.length ≤ limit ∧ (f.countField.isSome = true → v.items.length = before.sequenceLength)

theorem ResolvedField.write_recovers (hp : PrimitiveLaws codecs typed consistent)
    {f : ResolvedField}
    (hc : (codecs f.kind.element).RoundTrips (typed f.kind.element) (consistent · f.kind.element))
    {v : Value} (hs : f.kind.HasShape v) (ht : ∀ u ∈ f.kind.parts v, typed f.kind.element u)
    {w w' : Writer} (he : f.write codecs v w = .ok w') :
    ∃ bytes, w' = w.putRaw bytes ∧ f.minSize codecs ≤ bytes.length ∧
      ∀ before limit, (f.read codecs before).Recovers w.order limit bytes v
        (f.Sized limit before v ∧ ∀ u ∈ f.kind.parts v, consistent limit f.kind.element u) := by
  rw [ResolvedField.write] at he
  simp only [ResolvedField.minSize, ResolvedField.read, ResolvedField.Sized]
  cases hk : f.kind with
  | single e =>
    rw [hk] at hc ht he
    obtain ⟨bytes, hw, hsize, hread⟩ := hc v w w' (ht v (List.mem_singleton.mpr rfl)) he
    refine ⟨bytes, hw, hsize, fun before limit => (hread limit).congr ?_⟩
    simp [FieldKind.isSequence, FieldKind.parts, FieldKind.element]
  | array e n =>
    rw [hk] at hc hs ht he
    obtain ⟨items, rfl, rfl⟩ := hs
    obtain ⟨bytes, hw, hsize, hread⟩ := writeArray_recovers hp hc ht he
    refine ⟨bytes, hw, hsize, fun before limit => ?_⟩
    have h := (hread limit).map fun x h => Value.list.inj h
    exact h.congr (by simp [FieldKind.isSequence, FieldKind.parts, FieldKind.element, Value.items])
  | sequence e =>
    rw [hk] at hc hs ht he
    obtain ⟨items, rfl⟩ := hs
    by_cases hcount : f.countField.isSome = true
    · simp only [hcount, if_true] at he ⊢
      obtain ⟨bytes, hw, hsize, hread⟩ := hc.all ht he
      refine ⟨bytes, hw, Nat.zero_le _, fun before limit => ?_⟩
      rw [pure_bind]
      refine (readElements_recovers (hread limit) hsize _).congr ?_
      simp [FieldKind.isSequence, FieldKind.parts, FieldKind.element, Value.items]
    · simp only [hcount] at he ⊢
      obtain ⟨bytes, hw, hsize, hread⟩ := writePrefixed_recovers hc ht he
      refine ⟨bytes, hw, hsize, fun before limit => (hread limit).congr ?_⟩
      simp [FieldKind.isSequence, FieldKind.parts, FieldKind.element, Value.items]

/-- The fields are consistent one after the other.  `before` is the value before the first. -/
def FieldsConsistent (limit : Nat) (consistent : Element → Value → Prop) (fields : Fields) :
    Value → List ResolvedField → Prop
  | _, [] => True
  | before, f :: rest =>
    let v := fields.get f.ident
    (f.Sized limit before v ∧ ∀ u ∈ f.kind.parts v, consistent f.kind.element u) ∧
      FieldsConsistent limit consistent fields v rest

theorem writeFields_recovers (hp : PrimitiveLaws codecs typed consistent)
    {fs : List ResolvedField} {fields : Fields}
    (hc : ∀ f ∈ fs, (codecs f.kind.element).RoundTrips (typed f.kind.element)
      (consistent · f.kind.element))
    (hs : ∀ f ∈ fs, f.kind.HasShape (fields.get f.ident))
    (ht : ∀ f ∈ fs, ∀ v ∈ f.kind.parts (fields.get f.ident), typed f.kind.element v)
    {w w' : Writer} (he : writeFields codecs fields fs w = .ok w') :
    ∃ bytes, w' = w.putRaw bytes ∧ (fs.map (·.minSize codecs)).sum ≤ bytes.length ∧
      ∀ before limit, (readFields codecs before fs).Recovers w.order limit bytes
        (fs.map fun f => (f.ident, fields.get f.ident))
        (FieldsConsistent limit (consistent limit) fields before fs) := by
  induction fs generalizing w with
  | nil =>
    obtain rfl : w = w' := by simpa [writeFields] using he
    exact ⟨[], w.putRaw_nil.symm, Nat.le_refl 0, fun before limit => Reading.recovers_pure []⟩
  | cons f fs ih =>
    rw [List.forall_mem_cons] at hc hs ht
    obtain ⟨w₁, hf, hrest⟩ := bind_eq_ok.mp he
    obtain ⟨bytes, rfl, hsize, hread⟩ := ResolvedField.write_recovers hp hc.1 hs.1 ht.1 hf
    obtain ⟨bytes', rfl, hsize', hread'⟩ := ih hc.2 hs.2 ht.2 hrest
    refine ⟨bytes ++ bytes', w.putRaw_putRaw .., ?_, fun before limit => ?_⟩
    · rw [List.map_cons, List.sum_cons, List.length_append]
      omega
    · refine (hread before limit).pair (hread' _ limit) fun x y h => ?_
      simp only [List.cons.injEq, Prod.mk.injEq, true_and] at h
      exact h

end Elements

/-! ## Records -/

namespace ResolvedRecord

variable {r : ResolvedRecord}

theorem mem_countedSequences {f count : ResolvedField} :
    (f, count) ∈ r.countedSequences ↔
      f ∈ r.fields ∧ ∃ i, f.countField = some i ∧ r.fields[i]? = some count := by
  simp only [countedSequences, List.mem_filterMap, Option.bind_eq_some_iff,
    Option.map_eq_some_iff, Prod.mk.injEq]
  constructor
  · rintro ⟨f', hf, i, hi, count', hcount, rfl, rfl⟩
    exact ⟨hf, i, hi, hcount⟩
  · rintro ⟨hf, i, hi, hcount⟩
    exact ⟨f, hf, i, hi, count, hcount, rfl, rfl⟩

variable {limit : Nat} {consistent : Element → Value → Prop} {fields : Fields}
  {done fs : List ResolvedField} {f : ResolvedField} {before : Value}

theorem Coherent.isSequence_of_counted (hr : r.Coherent) (hf : r.fields = done ++ f :: fs)
    {i : Nat} (hc : f.countField = some i) : f.kind.isSequence = true := by
  rw [hr.countField_eq done f fs hf, countPosition] at hc
  split at hc
  · rename_i h
    exact (Bool.and_eq_true_iff.mp h).1
  · cases hc

theorem Coherent.sized_iff (hr : r.Coherent) (hf : r.fields = done ++ f :: fs)
    (hb : ∀ last ∈ done.getLast?, before = fields.get last.ident) (v : Value) :
    f.Sized limit before v ↔ (f.kind.isSequence = true → v.items.length ≤ limit) ∧
      ∀ i count, f.countField = some i → r.fields[i]? = some count →
        v.items.length = (fields.get count.ident).sequenceLength := by
  rw [ResolvedField.Sized]
  cases hc : f.countField with
  | none => simp
  | some i =>
    have hseq := hr.isSequence_of_counted hf hc
    obtain ⟨first, count, rfl, rfl⟩ := hr.counted hf hc
    have hcount : r.fields[first.length]? = some count := by simp [hf]
    have hbefore : before = fields.get count.ident := hb count (by simp)
    rw [hbefore]
    constructor
    · intro h
      refine ⟨fun _ => (h hseq).1, fun i count' hi hcount' => ?_⟩
      cases hi
      obtain rfl := Option.some.inj (hcount.symm.trans hcount')
      exact (h hseq).2 rfl
    · exact fun h _ => ⟨h.1 hseq, fun _ => h.2 _ count rfl hcount⟩

/-- Going through the fields one by one asks for the same as looking up each count. -/
theorem Coherent.fieldsConsistent_iff (hr : r.Coherent) (hf : r.fields = done ++ fs)
    (hb : ∀ last ∈ done.getLast?, before = fields.get last.ident) :
    FieldsConsistent limit consistent fields before fs ↔
      ∀ f ∈ fs, (f.kind.isSequence = true → (fields.get f.ident).items.length ≤ limit) ∧
        (∀ i count, f.countField = some i → r.fields[i]? = some count →
          (fields.get f.ident).items.length = (fields.get count.ident).sequenceLength) ∧
        ∀ v ∈ f.kind.parts (fields.get f.ident), consistent f.kind.element v := by
  induction fs generalizing done before with
  | nil => simp [FieldsConsistent]
  | cons f fs ih =>
    have hsplit : r.fields = (done ++ [f]) ++ fs := by simp [hf]
    have hlast : ∀ last ∈ (done ++ [f]).getLast?, fields.get f.ident = fields.get last.ident := by
      simp
    rw [FieldsConsistent, ih hsplit hlast, hr.sized_iff hf hb, List.forall_mem_cons]
    simp only [and_assoc]

theorem Coherent.consistent_iff (hr : r.Coherent) :
    FieldsConsistent limit consistent fields (.list []) r.fields ↔
      r.Consistent limit consistent fields := by
  have hb : ∀ last ∈ ([] : List ResolvedField).getLast?,
      Value.list [] = fields.get last.ident := by simp
  rw [hr.fieldsConsistent_iff (List.nil_append r.fields).symm hb]
  constructor
  · intro h
    refine ⟨fun f hf => (h f hf).1, fun f count hmem => ?_, fun f hf => (h f hf).2.2⟩
    obtain ⟨hf, i, hi, hcount⟩ := mem_countedSequences.mp hmem
    exact (h f hf).2.1 i count hi hcount
  · intro h f hf
    refine ⟨h.bounded f hf, fun i count hi hcount => ?_, h.parts f hf⟩
    exact h.counted f count (mem_countedSequences.mpr ⟨hf, i, hi, hcount⟩)

/-- A record gives back what it is given if its elements do. -/
theorem Coherent.roundTrips (hr : r.Coherent) (hd : (r.fields.map (·.ident)).Nodup)
    {codecs : Element → Codec} {typed : Element → Value → Prop}
    {consistent : Nat → Element → Value → Prop} (hp : PrimitiveLaws codecs typed consistent)
    (hc : ∀ f ∈ r.fields, (codecs f.kind.element).RoundTrips (typed f.kind.element)
      (consistent · f.kind.element)) :
    (r.codec codecs).RoundTrips (fun v => ∃ fields, v = .record fields ∧ r.Typed typed fields)
      (fun limit v => r.Consistent limit (consistent limit) v.fields) := by
  rintro _ w w' ⟨fields, rfl, ht⟩ he
  rw [encode_eq] at he
  obtain ⟨bytes, hw, hsize, hread⟩ := writeFields_recovers hp hc ht.shape ht.parts he
  refine ⟨bytes, hw, Nat.le_trans (r.minSize_le hp.scalar) hsize, fun limit => ?_⟩
  have hfields : (r.fields.map fun f => (f.ident, Fields.get fields f.ident)) = fields := by
    have h := Fields.map_get ht.names hd
    rwa [List.map_map] at h
  have h := (hread (.list []) limit).map fun x h => Value.record.inj h
  rw [hfields] at h
  rw [hr.read_eq codecs hd]
  exact h.congr hr.consistent_iff

end ResolvedRecord

/-! ## Schemas -/

theorem Codec.RoundTrips.congr {c : Codec} {typed typed' : Value → Prop}
    {consistent consistent' : Nat → Value → Prop} (h : c.RoundTrips typed consistent)
    (ht : ∀ v, typed' v → typed v)
    (hc : ∀ limit v, typed' v → (consistent limit v ↔ consistent' limit v)) :
    c.RoundTrips typed' consistent' := by
  intro v w w' hv he
  obtain ⟨bytes, hw, hsize, hread⟩ := h v w w' (ht v hv) he
  exact ⟨bytes, hw, hsize, fun limit => (hread limit).congr (hc limit v hv)⟩

/-- A whole buffer decodes to the value it was encoded from exactly if that is consistent. -/
theorem Codec.RoundTrips.decodeBytes_iff {c : Codec} {typed : Value → Prop}
    {consistent : Nat → Value → Prop} (h : c.RoundTrips typed consistent) {order : ByteOrder}
    {v : Value} {bytes : List UInt8} (ht : typed v) (he : c.encodeBytes order v = .ok bytes) :
    c.decodeBytes order bytes = .ok v ↔ consistent defaultSequenceLimit v := by
  rw [encodeBytes] at he
  split at he
  · rename_i w hw
    obtain ⟨bytes', rfl, -, hread⟩ := h v _ w ht hw
    obtain rfl : bytes' = bytes := by simpa [Writer.putRaw] using he
    obtain ⟨hread₁, hread₂⟩ := hread defaultSequenceLimit { buffer := bytes', order := order }
      rfl rfl List.prefix_rfl
    rw [decodeBytes_eq_ok]
    constructor
    · rintro ⟨r, hr, -⟩
      exact hread₂ r hr
    · intro hc
      exact ⟨_, hread₁ hc, by simp [Reader.rest, Reader.skip]⟩
  · cases he

namespace Resolved

variable {s : Resolved} {outside : String → Codec} {values : String → Value → Prop}

theorem primitiveLaws {codecs : Element → Codec} (hc : ∀ p, codecs (.primitive p) = .scalar p) :
    PrimitiveLaws codecs (s.Typed values) s.Consistent where
  scalar := hc
  exists_bits p v h := by
    cases h with
    | primitive p bits => exact ⟨bits, rfl⟩
  consistent limit p v := .primitive p v

theorem Sound.codec_roundTrips (hs : s.Sound)
    (hd : ∀ r ∈ s.records, (r.fields.map (·.ident)).Nodup)
    (ho : ∀ name ∈ s.foreignTypes, (outside name).RoundTrips (values name) fun _ _ => True)
    {r : ResolvedRecord} (hr : r ∈ s.records) :
    ∃ c, s.codec? outside r.name = some c ∧
      c.RoundTrips (s.Typed values (.record r.name)) (s.Consistent · (.record r.name)) := by
  refine hs.codec_induction (P := fun e c => c.RoundTrips (s.Typed values e) (s.Consistent · e))
    (fun p => ?_) (fun name hname => ?_) (fun r hr codecs hscalar hfields => ?_) hr
  · have hlaws : PrimitiveLaws (Element.codec outside []) (s.Typed values) s.Consistent :=
      primitiveLaws fun _ => rfl
    exact hlaws.roundTrips p
  · refine (ho name hname).congr (fun v hv => ?_) (fun limit v _ => ?_)
    · cases hv with
      | foreign h => exact h
    · simp [Resolved.Consistent.foreign]
  · have hfound := hs.getRecord?_eq_some.mpr ⟨hr, rfl⟩
    refine ((hs.coherent r hr).roundTrips (hd r hr) (primitiveLaws hscalar) hfields).congr
      (fun v hv => typed_record hfound hv) (fun limit v hv => ?_)
    obtain ⟨fields, rfl, -⟩ := typed_record hfound hv
    exact (consistent_record hfound).symm

end Resolved

theorem Timestamp.roundTrips : codec.RoundTrips IsValue fun _ _ => True := by
  have hlaws : PrimitiveLaws scalars (fun e v => e.IsScalar v) fun _ _ _ => True :=
    ⟨fun _ => rfl, fun _ _ h => h, fun _ _ _ => trivial⟩
  have hfields : ∀ f ∈ record.fields,
      (scalars f.kind.element).RoundTrips (fun v => f.kind.element.IsScalar v) fun _ _ => True := by
    intro f hf
    obtain ⟨-, p, hkind⟩ := element_of_mem hf
    rw [hkind]
    exact hlaws.roundTrips p
  rw [codec_eq]
  refine (coherent.roundTrips nodup_idents hlaws hfields).congr (fun v hv => isValue_iff.mp hv)
    (fun limit v hv => ?_)
  refine iff_true_intro ⟨forall_mem_pair.mpr ⟨nofun, nofun⟩, ?_, fun _ _ _ _ => trivial⟩
  exact fun f count h => absurd h List.not_mem_nil

/-- For every accepted schema and either byte order, encoding a value and decoding the bytes gives
the value again if and only if it is consistent. -/
theorem decode_encode_iff_consistent {schema : Schema} {s : Resolved} {outside : String → Codec}
    {values : String → Value → Prop} (built : schema.Built)
    (accepted : schema.resolve.result = .ok s)
    (distinct : ∀ r ∈ s.records, (r.fields.map (·.ident)).Nodup)
    (lawful : ∀ name ∈ s.foreignTypes, (outside name).RoundTrips (values name) fun _ _ => True)
    {r : ResolvedRecord} (mem : r ∈ s.records) :
    ∃ c, s.codec? outside r.name = some c ∧
      ∀ order v bytes, s.Typed values (.record r.name) v → c.encodeBytes order v = .ok bytes →
        (c.decodeBytes order bytes = .ok v ↔
          s.Consistent defaultSequenceLimit (.record r.name) v) := by
  obtain ⟨c, hc, hround⟩ := (built.sound accepted).codec_roundTrips distinct lawful mem
  exact ⟨c, hc, fun order v bytes ht he => hround.decodeBytes_iff ht he⟩

/-- A track with the right count comes back, and one with a wrong count does not. -/
theorem track_decode_encode :
    ∃ c, Sample.resolved.codec? Sample.outside "Track" = some c ∧
      c.encodeBytes .bigEndian (Sample.track 1) = .ok Sample.trackBytes ∧
      c.decodeBytes .bigEndian Sample.trackBytes = .ok (Sample.track 1) ∧
      c.encodeBytes .littleEndian (Sample.track 2) = .ok Sample.miscountedBytes ∧
      c.decodeBytes .littleEndian Sample.miscountedBytes ≠ .ok (Sample.track 2) := by
  have mem : Sample.trackRecord ∈ Sample.resolved.records := by simp [Sample.records]
  have lawful : ∀ name ∈ Sample.resolved.foreignTypes,
      (Sample.outside name).RoundTrips Timestamp.IsValue fun _ _ => True :=
    fun _ _ => Timestamp.roundTrips
  obtain ⟨c, hc, h⟩ :=
    decode_encode_iff_consistent Sample.built Sample.accepted Sample.distinct lawful mem
  have hc' : Sample.resolved.codec? Sample.outside "Track" = some c := hc
  have hright : c.encodeBytes .bigEndian (Sample.track 1) = .ok Sample.trackBytes := by
    simpa [hc'] using Sample.encode_track
  have hwrong : c.encodeBytes .littleEndian (Sample.track 2) = .ok Sample.miscountedBytes := by
    simpa [hc'] using Sample.encode_miscounted
  refine ⟨c, hc, hright, ?_, hwrong, fun hd => ?_⟩
  · exact (h _ _ _ (Sample.track_typed 1) hright).mpr Sample.track_consistent
  · exact Sample.not_track_consistent ((h _ _ _ (Sample.track_typed 2) hwrong).mp hd)

end RecordWire
