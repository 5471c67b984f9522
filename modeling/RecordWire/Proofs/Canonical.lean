import RecordWire.Proofs.CodecTable
import RecordWire.Proofs.Values
import RecordWire.Proofs.Words

/-!
There is one encoding of each value.  Whatever bytes a decoder takes, encoding the value it gives
puts the same bytes back, so no two byte strings decode to one value.
-/

namespace RecordWire

/-! ## Putting bytes back -/

/-- `write` puts back the bytes between `r` and `r'`. -/
def Restores (write : Writer → Except WireError Writer) (r r' : Reader) : Prop :=
  ∃ bytes, bytes <+: r.rest ∧ r' = r.skip bytes.length ∧
    ∀ w : Writer, w.order = r.order → write w = .ok (w.putRaw bytes)

namespace Restores

variable {write write' : Writer → Except WireError Writer} {r r₁ r' : Reader}

theorem refl (r : Reader) : Restores .ok r r :=
  ⟨[], List.nil_prefix, rfl, fun w _ => by rw [w.putRaw_nil]⟩

theorem trans (h : Restores write r r₁) (h' : Restores write' r₁ r') :
    Restores (fun w => write w >>= write') r r' := by
  obtain ⟨bytes, ⟨after, hafter⟩, rfl, hw⟩ := h
  obtain ⟨bytes', hb', rfl, hw'⟩ := h'
  refine ⟨bytes ++ bytes', ?_, ?_, fun w ho => ?_⟩
  · rw [Reader.rest_skip, ← hafter, List.drop_left] at hb'
    rw [← hafter]
    exact (List.prefix_append_right_inj bytes).mpr hb'
  · rw [Reader.skip_skip, List.length_append]
  · show write w >>= write' = _
    rw [hw w ho, ← w.putRaw_putRaw]
    exact hw' (w.putRaw bytes) ho

end Restores

namespace Reading

variable {r r' : Reader}

theorem raw_restores {n : Nat} {bytes : List UInt8} (h : raw n r = .ok (bytes, r')) :
    Restores (fun w => .ok (w.putRaw bytes)) r r' := by
  obtain ⟨hb, rfl, rfl⟩ := raw_eq_ok.mp h
  exact ⟨bytes, hb, rfl, fun _ _ => rfl⟩

theorem word_restores {size n : Nat} (h : word size r = .ok (n, r')) :
    Restores (fun w => .ok (w.putRaw (w.order.wordBytes size n))) r r' ∧ n < 256 ^ size := by
  obtain ⟨bytes, hb, rfl, rfl, rfl⟩ := word_eq_ok.mp h
  refine ⟨⟨bytes, hb, rfl, fun w ho => ?_⟩, ByteOrder.ofWordBytes_lt ..⟩
  show Except.ok (w.putRaw (w.order.wordBytes bytes.length (r.order.ofWordBytes bytes))) = _
  rw [ho, ByteOrder.wordBytes_ofWordBytes _ rfl]

theorem length_restores {n : Nat} (h : length r = .ok (n, r')) : Restores (·.putLength n) r r' := by
  rw [length_eq] at h
  obtain ⟨n', r₁, hword, h⟩ := bind_eq_ok.mp h
  obtain ⟨u, r₂, hbounded, h⟩ := bind_eq_ok.mp h
  obtain ⟨-, rfl⟩ := bounded_eq_ok.mp hbounded
  cases h
  obtain ⟨⟨bytes, hb, hr, hw⟩, hlt⟩ := word_restores hword
  have hfits : n < Nat.pow 2 32 := hlt
  refine ⟨bytes, hb, hr, fun w ho => ?_⟩
  show w.putLength n = _
  rw [Writer.putLength, if_pos hfits]
  exact hw w ho

end Reading

/-! ## Codecs -/

namespace Codec

/-- Whatever bytes the decoder takes, the encoder puts back. -/
def Canonical (c : Codec) : Prop :=
  ∀ r v r', c.read r = .ok (v, r') → Restores (c.encode v) r r'

theorem scalar_canonical (p : Primitive) : (scalar p).Canonical := by
  intro r v r' h
  rw [scalar_read] at h
  obtain ⟨n, hn, rfl⟩ := Reading.map_eq_ok.mp h
  obtain ⟨⟨bytes, hb, hr, hw⟩, hlt⟩ := Reading.word_restores hn
  refine ⟨bytes, hb, hr, fun w ho => ?_⟩
  show Except.ok (w.putScalar p (BitVec.ofNat p.width n)) = _
  rw [← p.two_pow_width] at hlt
  rw [Writer.putScalar, BitVec.toNat_ofNat, Nat.mod_eq_of_lt hlt]
  exact hw w ho

theorem Canonical.readEach {c : Codec} (hc : c.Canonical) {n : Nat} {vs : List Value}
    {r r' : Reader} (h : c.readEach n r = .ok (vs, r')) : Restores (c.encodeAll vs) r r' := by
  induction n generalizing vs r with
  | zero =>
    cases h
    exact .refl _
  | succ n ih =>
    obtain ⟨v, r₁, hv, h⟩ := Reading.bind_eq_ok.mp h
    obtain ⟨vs', r₂, hvs, h⟩ := Reading.bind_eq_ok.mp h
    cases h
    have hall := (hc r v r₁ hv).trans (ih hvs)
    rwa [← funext (c.encodeAll_cons v vs')] at hall

end Codec

/-! ## Fields and records -/

section Records

variable {codecs : Element → Codec} {r r' : Reader}

theorem readArray_restores {e : Element} (hc : (codecs e).Canonical) {n : Nat} {vs : List Value}
    (h : e.readArray codecs n r = .ok (vs, r')) :
    Restores (fun w => e.writeArray codecs vs w) r r' := by
  cases e with
  | record name => exact hc.readEach h
  | foreign name => exact hc.readEach h
  | primitive p =>
    rw [Element.readArray] at h
    by_cases hb : p.isByte = true
    · rw [if_pos hb] at h
      obtain ⟨bytes, hbytes, rfl⟩ := Reading.map_eq_ok.mp h
      have hmap : (bytes.map (Value.ofByte p)).map Value.toByte = bytes := by
        rw [List.map_map]
        exact (List.map_congr_left fun b _ => Value.toByte_ofByte hb b).trans (List.map_id bytes)
      simp only [Element.writeArray, if_pos hb, hmap]
      exact Reading.raw_restores hbytes
    · rw [if_neg hb] at h
      simp only [Element.writeArray, if_neg hb]
      exact hc.readEach h

theorem field_restores {f : ResolvedField} (hc : (codecs f.kind.element).Canonical)
    {before v : Value} (h : f.read codecs before r = .ok (v, r')) :
    Restores (f.write codecs v) r r' := by
  rw [ResolvedField.read] at h
  show Restores (fun w => f.write codecs v w) r r'
  simp only [ResolvedField.write]
  cases hk : f.kind with
  | single e =>
    rw [hk] at hc h
    exact hc r v r' h
  | array e n =>
    rw [hk] at hc h
    obtain ⟨vs, hvs, rfl⟩ := Reading.map_eq_ok.mp h
    exact readArray_restores hc hvs
  | sequence e =>
    rw [hk] at hc h
    obtain ⟨n, r₁, hn, h⟩ := Reading.bind_eq_ok.mp h
    obtain ⟨u, r₂, hcheck, h⟩ := Reading.bind_eq_ok.mp h
    obtain ⟨-, -, rfl⟩ := Reading.check_eq_ok.mp hcheck
    obtain ⟨vs, hvs, rfl⟩ := Reading.map_eq_ok.mp h
    by_cases hcount : f.countField.isSome = true
    · rw [if_pos hcount] at hn
      cases hn
      simp only [if_pos hcount]
      exact hc.readEach hvs
    · rw [if_neg hcount] at hn
      simp only [if_neg hcount, Value.items]
      rw [Codec.length_of_readEach hvs]
      exact (Reading.length_restores hn).trans (hc.readEach hvs)

/-- The fields are written back from any record value that has them. -/
theorem readFields_restores {fs : List ResolvedField}
    (hc : ∀ f ∈ fs, (codecs f.kind.element).Canonical) {before : Value} {fields : Fields}
    (h : readFields codecs before fs r = .ok (fields, r')) :
    fields.map Prod.fst = fs.map (·.ident) ∧ ∀ whole : Fields,
      (∀ entry ∈ fields, whole.get entry.1 = entry.2) →
        Restores (writeFields codecs whole fs) r r' := by
  induction fs generalizing before fields r with
  | nil =>
    cases h
    exact ⟨rfl, fun _ _ => .refl _⟩
  | cons f fs ih =>
    rw [List.forall_mem_cons] at hc
    obtain ⟨v, r₁, hv, h⟩ := Reading.bind_eq_ok.mp h
    obtain ⟨fields', r₂, hfields, h⟩ := Reading.bind_eq_ok.mp h
    cases h
    obtain ⟨hnames, hrest⟩ := ih hc.2 hfields
    refine ⟨by rw [List.map_cons, List.map_cons, hnames], fun whole hwhole => ?_⟩
    rw [List.forall_mem_cons] at hwhole
    have hget : whole.get f.ident = v := hwhole.1
    have hf := field_restores hc.1 hv
    rw [← hget] at hf
    exact hf.trans (hrest whole hwhole.2)

theorem ResolvedRecord.Coherent.canonical {record : ResolvedRecord} (hr : record.Coherent)
    (hd : (record.fields.map (·.ident)).Nodup)
    (hc : ∀ f ∈ record.fields, (codecs f.kind.element).Canonical) :
    (record.codec codecs).Canonical := by
  intro r v r' h
  rw [hr.read_eq codecs hd] at h
  obtain ⟨fields, hfields, rfl⟩ := Reading.map_eq_ok.mp h
  obtain ⟨hnames, hrest⟩ := readFields_restores hc hfields
  have hwhole : ∀ entry ∈ fields, Fields.get fields entry.1 = entry.2 := by
    intro entry hentry
    rw [← hnames] at hd
    exact Fields.get_of_mem hd hentry
  have h' := hrest fields hwhole
  rwa [← funext (encode_eq codecs fields record)] at h'

end Records

/-! ## Schemas -/

theorem Codec.Canonical.encodeBytes {c : Codec} (hc : c.Canonical) {order : ByteOrder}
    {bytes : List UInt8} {v : Value} (h : c.decodeBytes order bytes = .ok v) :
    c.encodeBytes order v = .ok bytes := by
  obtain ⟨r', hr, hempty⟩ := decodeBytes_eq_ok.mp h
  obtain ⟨taken, htaken, rfl, hw⟩ := hc _ v r' hr
  have hall : taken = bytes := by
    rw [Reader.rest_skip, List.drop_eq_nil_iff] at hempty
    exact htaken.eq_of_length_le hempty
  rw [Codec.encodeBytes, hw { order := order } rfl, hall]
  rfl

theorem Timestamp.canonical : codec.Canonical := by
  rw [codec_eq]
  refine coherent.canonical nodup_idents fun f hf => ?_
  obtain ⟨-, p, hkind⟩ := element_of_mem hf
  rw [hkind]
  exact Codec.scalar_canonical p

/-- For every accepted schema and either byte order, whatever bytes decode to a value are the bytes
that the value encodes to. -/
theorem encode_decode_eq {schema : Schema} {s : Resolved} {outside : String → Codec}
    (built : schema.Built) (accepted : schema.resolve.result = .ok s)
    (distinct : ∀ r ∈ s.records, (r.fields.map (·.ident)).Nodup)
    (lawful : ∀ name ∈ s.foreignTypes, (outside name).Canonical)
    {r : ResolvedRecord} (mem : r ∈ s.records) :
    ∃ c, s.codec? outside r.name = some c ∧
      ∀ order bytes v, c.decodeBytes order bytes = .ok v → c.encodeBytes order v = .ok bytes := by
  have hs := built.sound accepted
  obtain ⟨c, hc, hcanonical⟩ := hs.codec_induction (P := fun _ c => c.Canonical)
    Codec.scalar_canonical lawful
    (fun r hr codecs _ hfields => (hs.coherent r hr).canonical (distinct r hr) hfields) mem
  exact ⟨c, hc, fun order bytes v h => hcanonical.encodeBytes h⟩

theorem track_encode_decode :
    ∃ c, Sample.resolved.codec? Sample.outside "Track" = some c ∧
      c.decodeBytes .bigEndian Sample.trackBytes = .ok (Sample.track 1) ∧
      c.encodeBytes .bigEndian (Sample.track 1) = .ok Sample.trackBytes := by
  have mem : Sample.trackRecord ∈ Sample.resolved.records := by simp [Sample.records]
  have lawful : ∀ name ∈ Sample.resolved.foreignTypes, (Sample.outside name).Canonical :=
    fun _ _ => Timestamp.canonical
  obtain ⟨c, hc, h⟩ := encode_decode_eq Sample.built Sample.accepted Sample.distinct lawful mem
  have hc' : Sample.resolved.codec? Sample.outside "Track" = some c := hc
  have hdecode : c.decodeBytes .bigEndian Sample.trackBytes = .ok (Sample.track 1) := by
    simpa [hc'] using Sample.decode_track
  exact ⟨c, hc, hdecode, h _ _ _ hdecode⟩

end RecordWire
