import RecordWire.Proofs.CodecTable
import RecordWire.Proofs.Values

/-!
Where an encoding ends.  A buffer that decodes is the only one among its extensions and its
beginnings that does: with more bytes after it the decoder stops in the same place and finds them
left over, and a beginning of it is too short.
-/

namespace RecordWire

/-! ## Longer and shorter buffers -/

namespace Reader

def extend (r : Reader) (more : List UInt8) : Reader :=
  { r with buffer := r.buffer ++ more }

def truncate (r : Reader) (n : Nat) : Reader :=
  { r with buffer := r.buffer.take n }

/-- The reader has not run past its buffer. -/
def InBounds (r : Reader) : Prop :=
  r.position ≤ r.buffer.length

variable {r : Reader}

theorem length_rest (r : Reader) : r.rest.length = r.buffer.length - r.position := by
  rw [rest, List.length_drop]

theorem rest_extend (h : r.InBounds) (more : List UInt8) : (r.extend more).rest = r.rest ++ more :=
  List.drop_append_of_le_length h

theorem rest_truncate (r : Reader) (n : Nat) :
    (r.truncate n).rest = r.rest.take (n - r.position) :=
  List.drop_take ..

theorem extend_nil (r : Reader) : r.extend [] = r := by
  rw [extend, List.append_nil]

theorem truncate_length (r : Reader) : r.truncate r.buffer.length = r := by
  rw [truncate, List.take_length]

/-- A buffer that was cut at `m` is one that was cut at `n` with the bytes between put back. -/
theorem extend_truncate {m n : Nat} (h : n ≤ m) (r : Reader) (more : List UInt8) :
    (r.truncate n).extend ((r.buffer.take m).drop n ++ more) = (r.truncate m).extend more := by
  have hbuffer : r.buffer.take n ++ ((r.buffer.take m).drop n ++ more) =
      r.buffer.take m ++ more := by
    have htake : r.buffer.take n = (r.buffer.take m).take n := by
      rw [List.take_take, Nat.min_eq_left h]
    rw [htake, ← List.append_assoc, List.take_append_drop]
  simp only [extend, truncate, hbuffer]

theorem InBounds.skip (h : r.InBounds) {n : Nat} (hn : n ≤ r.rest.length) :
    (r.skip n).InBounds := by
  rw [length_rest] at hn
  show r.position + n ≤ r.buffer.length
  have h' : r.position ≤ r.buffer.length := h
  omega

end Reader

namespace Reading

variable {α β : Type} {slack : Prop}

/-- The result stays the same in a longer buffer, and in a shorter one unless that is too short.
Without `slack` a buffer is too short only if it ends before the reading does. -/
def Framed (p : Reading α) (slack : Prop) : Prop :=
  ∀ r a r', r.InBounds → p r = .ok (a, r') →
    (∃ n ≤ r.rest.length, r' = r.skip n) ∧
    (∀ more, p (r.extend more) = .ok (a, r'.extend more)) ∧
    ∀ n, r.position ≤ n →
      (r'.position ≤ n ∧ p (r.truncate n) = .ok (a, r'.truncate n)) ∨
      (slack ∨ n < r'.position) ∧
        ∃ required available, p (r.truncate n) = .error (.bufferTooShort required available)

theorem framed_pure (a : α) : (pure a : Reading α).Framed slack := by
  intro r b r' hin h
  cases h
  exact ⟨⟨0, Nat.zero_le _, rfl⟩, fun _ => rfl, fun n hn => .inl ⟨hn, rfl⟩⟩

theorem Framed.bind {p : Reading α} {q : α → Reading β} (hp : p.Framed slack)
    (hq : ∀ a, (q a).Framed slack) : (p >>= q).Framed slack := by
  intro r b r' hin h
  obtain ⟨a, r₁, ha, hb⟩ := bind_eq_ok.mp h
  obtain ⟨⟨k, hk, rfl⟩, hlong, hshort⟩ := hp r a r₁ hin ha
  obtain ⟨⟨k', hk', rfl⟩, hlong', hshort'⟩ := hq a _ b r' (hin.skip hk) hb
  refine ⟨⟨k + k', ?_, r.skip_skip ..⟩, fun more => ?_, fun n hn => ?_⟩
  · rw [Reader.rest_skip, List.length_drop] at hk'
    omega
  · exact bind_eq_ok.mpr ⟨a, _, hlong more, hlong' more⟩
  · rcases hshort n hn with ⟨hle, hp'⟩ | ⟨hslack, required, available, hp'⟩
    · rcases hshort' n hle with ⟨hle', hq'⟩ | ⟨hslack, required, available, hq'⟩
      · exact .inl ⟨hle', bind_eq_ok.mpr ⟨a, _, hp', hq'⟩⟩
      · refine .inr ⟨hslack, required, available, ?_⟩
        rw [bind_apply, hp']
        exact hq'
    · refine .inr ⟨hslack.imp_right fun h => ?_, required, available, ?_⟩
      · exact Nat.lt_of_lt_of_le h (Nat.le_add_right ..)
      · rw [bind_apply, hp']

theorem Framed.map {p : Reading α} (hp : p.Framed slack) (f : α → β) : (f <$> p).Framed slack := by
  rw [map_eq_pure_bind]
  exact hp.bind fun a => framed_pure (f a)

theorem Framed.mono {p : Reading α} (hp : p.Framed slack) : p.Framed True := by
  intro r a r' hin h
  obtain ⟨hskip, hlong, hshort⟩ := hp r a r' hin h
  exact ⟨hskip, hlong, fun n hn => (hshort n hn).imp_right fun h => ⟨.inl trivial, h.2⟩⟩

theorem framed_raw (n : Nat) : (raw n).Framed slack := by
  intro r bytes r' hin h
  obtain ⟨hb, rfl, rfl⟩ := raw_eq_ok.mp h
  refine ⟨⟨bytes.length, hb.length_le, rfl⟩, fun more => ?_, fun n hn => ?_⟩
  · refine raw_eq_ok.mpr ⟨?_, rfl, rfl⟩
    rw [Reader.rest_extend hin]
    exact hb.trans (List.prefix_append ..)
  · by_cases hle : r.position + bytes.length ≤ n
    · refine .inl ⟨hle, raw_eq_ok.mpr ⟨?_, rfl, rfl⟩⟩
      rw [Reader.rest_truncate, List.prefix_take_iff]
      exact ⟨hb, by omega⟩
    · have hlt : (r.truncate n).rest.length < bytes.length := by
        rw [Reader.rest_truncate, List.length_take]
        omega
      exact .inr ⟨.inr (Nat.not_le.mp hle), _, _, (raw_apply ..).trans (if_pos hlt)⟩

theorem framed_word (size : Nat) : (word size).Framed slack := by
  intro r n r' hin h
  exact (framed_raw size).map r.order.ofWordBytes r n r' hin h

theorem framed_bounded (n : Nat) : (bounded n).Framed slack := by
  intro r u r' hin h
  obtain ⟨hn, rfl⟩ := bounded_eq_ok.mp h
  refine ⟨⟨0, Nat.zero_le _, rfl⟩, fun more => bounded_eq_ok.mpr ⟨hn, rfl⟩, fun m hm => ?_⟩
  exact .inl ⟨hm, bounded_eq_ok.mpr ⟨hn, rfl⟩⟩

/-- Asking for bytes without taking them is what needs slack. -/
theorem framed_enough (n : Nat) (hs : slack) : (enough n).Framed slack := by
  intro r u r' hin h
  obtain ⟨hn, rfl⟩ := enough_eq_ok.mp h
  refine ⟨⟨0, Nat.zero_le _, rfl⟩, fun more => enough_eq_ok.mpr ⟨?_, rfl⟩, fun m hm => ?_⟩
  · rw [Reader.rest_extend hin, List.length_append]
    omega
  · by_cases hlt : (r.truncate m).rest.length < n
    · exact .inr ⟨.inl hs, _, _, if_pos hlt⟩
    · exact .inl ⟨hm, enough_eq_ok.mpr ⟨Nat.not_lt.mp hlt, rfl⟩⟩

theorem framed_length : length.Framed slack := by
  rw [length_eq]
  exact (framed_word 4).bind fun n => (framed_bounded n).bind fun _ => framed_pure n

theorem framed_check (elementSize n : Nat) (hs : slack) : (check elementSize n).Framed slack := by
  rw [check_eq]
  exact (framed_bounded n).bind fun _ => framed_enough _ hs

end Reading

/-! ## Fields and records -/

section Records

variable {codecs : Element → Codec} {slack : Prop}

theorem Codec.scalar_framed (p : Primitive) : (scalar p).read.Framed slack := by
  rw [scalar_read]
  exact (Reading.framed_word p.size).map _

theorem readEach_framed {c : Codec} (hc : c.read.Framed slack) (n : Nat) :
    (c.readEach n).Framed slack := by
  induction n with
  | zero => exact Reading.framed_pure []
  | succ n ih => exact hc.bind fun v => ih.bind fun vs => Reading.framed_pure (v :: vs)

theorem readArray_framed {e : Element} (hc : (codecs e).read.Framed slack) (n : Nat) :
    (e.readArray codecs n).Framed slack := by
  cases e with
  | record name => exact readEach_framed hc n
  | foreign name => exact readEach_framed hc n
  | primitive p =>
    rw [Element.readArray]
    by_cases hb : p.isByte = true
    · rw [if_pos hb]
      exact (Reading.framed_raw n).map _
    · rw [if_neg hb]
      exact readEach_framed hc n

theorem field_framed {f : ResolvedField} (hc : (codecs f.kind.element).read.Framed slack)
    (hs : f.kind.isSequence = true → slack) (before : Value) :
    (f.read codecs before).Framed slack := by
  rw [ResolvedField.read]
  cases hk : f.kind with
  | single e =>
    rw [hk] at hc
    exact hc
  | array e n =>
    rw [hk] at hc
    exact (readArray_framed hc n).map _
  | sequence e =>
    rw [hk] at hc hs
    have hlength : (if f.countField.isSome then pure before.sequenceLength
        else Reading.length).Framed slack := by
      by_cases hcount : f.countField.isSome = true
      · rw [if_pos hcount]
        exact Reading.framed_pure _
      · rw [if_neg hcount]
        exact Reading.framed_length
    exact hlength.bind fun n => (Reading.framed_check _ n (hs rfl)).bind fun _ =>
      (readEach_framed hc n).map _

theorem readFields_framed {fs : List ResolvedField}
    (hc : ∀ f ∈ fs, (codecs f.kind.element).read.Framed slack)
    (hs : ∀ f ∈ fs, f.kind.isSequence = true → slack) (before : Value) :
    (readFields codecs before fs).Framed slack := by
  induction fs generalizing before with
  | nil => exact Reading.framed_pure []
  | cons f fs ih =>
    rw [List.forall_mem_cons] at hc hs
    exact (field_framed hc.1 hs.1 before).bind fun v => (ih hc.2 hs.2 v).bind fun fields =>
      Reading.framed_pure ((f.ident, v) :: fields)

theorem ResolvedRecord.Coherent.framed {record : ResolvedRecord} (hr : record.Coherent)
    (hd : (record.fields.map (·.ident)).Nodup)
    (hc : ∀ f ∈ record.fields, (codecs f.kind.element).read.Framed slack)
    (hs : ∀ f ∈ record.fields, f.kind.isSequence = true → slack) :
    (record.codec codecs).read.Framed slack := by
  rw [hr.read_eq codecs hd]
  exact (readFields_framed hc hs _).map _

end Records

/-! ## Schemas -/

namespace Codec

variable {c : Codec}

/-- The result is the same whatever follows the bytes that were taken, and a beginning of these
that is not all of them is too short. -/
def SelfDelimiting (c : Codec) : Prop :=
  ∀ r v r', r.InBounds → c.read r = .ok (v, r') →
    (∃ n ≤ r.rest.length, r' = r.skip n) ∧
    (∀ more, c.read ((r.truncate r'.position).extend more) =
      .ok (v, (r'.truncate r'.position).extend more)) ∧
    ∀ n, r.position ≤ n → n < r'.position →
      ∃ required available, c.read (r.truncate n) = .error (.bufferTooShort required available)

theorem SelfDelimiting.framed (hc : c.SelfDelimiting) : c.read.Framed False := by
  intro r v r' hin h
  obtain ⟨⟨k, hk, rfl⟩, hlong, hshort⟩ := hc r v r' hin h
  -- The reading goes the same way in any buffer that has the bytes it takes.
  have hread : ∀ m, r.position + k ≤ m → ∀ more,
      c.read ((r.truncate m).extend more) = .ok (v, ((r.skip k).truncate m).extend more) := by
    intro m hm more
    rw [← Reader.extend_truncate hm, ← Reader.extend_truncate hm]
    exact hlong _
  refine ⟨⟨k, hk, rfl⟩, fun more => ?_, fun n hn => ?_⟩
  · have hall := hread r.buffer.length (hin.skip hk) more
    have hskip : (r.skip k).truncate r.buffer.length = r.skip k := (r.skip k).truncate_length
    rwa [Reader.truncate_length, hskip] at hall
  · by_cases hle : r.position + k ≤ n
    · have hcut := hread n hle []
      rw [Reader.extend_nil, Reader.extend_nil] at hcut
      exact .inl ⟨hle, hcut⟩
    · exact .inr ⟨.inr (Nat.not_le.mp hle), hshort n hn (Nat.not_le.mp hle)⟩

theorem selfDelimiting_of_framed (hc : c.read.Framed False) : c.SelfDelimiting := by
  intro r v r' hin h
  obtain ⟨⟨k, hk, rfl⟩, -, hshort⟩ := hc r v r' hin h
  refine ⟨⟨k, hk, rfl⟩, fun more => ?_, fun n hn hlt => ?_⟩
  · rcases hshort (r.position + k) (Nat.le_add_right ..) with ⟨-, hcut⟩ | ⟨hlt, -⟩
    · have hin' : (r.truncate (r.position + k)).InBounds := by
        show r.position ≤ (r.buffer.take (r.position + k)).length
        have hin' : r.position ≤ r.buffer.length := hin
        rw [List.length_take]
        omega
      exact (hc _ v _ hin' hcut).2.1 more
    · exact absurd hlt (by simp [Reader.skip])
  · rcases hshort n hn with ⟨hle, -⟩ | ⟨-, herror⟩
    · exact absurd hle (Nat.not_le.mpr hlt)
    · exact herror

end Codec

theorem Codec.decodeBytes_of_framed {c : Codec} {slack : Prop} (hc : c.read.Framed slack)
    {order : ByteOrder} {bytes : List UInt8} {v : Value} (h : c.decodeBytes order bytes = .ok v) :
    (∀ start, start <+: bytes → start ≠ bytes → ∃ required available,
      c.decodeBytes order start = .error (.bufferTooShort required available)) ∧
    ∀ more, more ≠ [] →
      c.decodeBytes order (bytes ++ more) = .error (.trailingBytes more.length) := by
  obtain ⟨r', hr, hempty⟩ := decodeBytes_eq_ok.mp h
  obtain ⟨⟨k, hk, rfl⟩, hlong, hshort⟩ := hc _ v r' (Nat.zero_le _) hr
  -- All of the buffer was taken.
  obtain rfl : k = bytes.length := by
    rw [Reader.rest_skip, List.drop_eq_nil_iff] at hempty
    exact Nat.le_antisymm hk hempty
  constructor
  · intro start hstart hne
    have hlt : start.length < bytes.length :=
      Nat.lt_of_le_of_ne hstart.length_le fun hl => hne (hstart.eq_of_length hl)
    rw [List.prefix_iff_eq_take.mp hstart, decodeBytes_eq]
    rcases hshort start.length (Nat.zero_le _) with ⟨hle, -⟩ | ⟨-, required, available, herror⟩
    · have hle' : 0 + bytes.length ≤ start.length := hle
      omega
    · refine ⟨required, available, ?_⟩
      have herror' : c.read { buffer := bytes.take start.length, order := order } =
          .error (.bufferTooShort required available) := herror
      rw [herror']
  · intro more hmore
    have hlong' : c.read { buffer := bytes ++ more, order := order } = _ := hlong more
    rw [decodeBytes_eq, hlong']
    have hremaining : ((Reader.skip { buffer := bytes, order := order } bytes.length).extend
        more).remaining = more.length := by
      simp [Reader.remaining, Reader.extend, Reader.skip]
    have hne : more.length ≠ 0 := fun h => hmore (List.length_eq_zero_iff.mp h)
    simp [Reader.isEmpty, hremaining, hne]

theorem Timestamp.selfDelimiting : codec.SelfDelimiting := by
  rw [codec_eq]
  refine Codec.selfDelimiting_of_framed (coherent.framed nodup_idents (fun f hf => ?_)
    fun f hf hseq => ?_)
  · obtain ⟨-, p, hkind⟩ := element_of_mem hf
    rw [hkind]
    exact Codec.scalar_framed p
  · obtain ⟨-, p, hkind⟩ := element_of_mem hf
    rw [hkind] at hseq
    cases hseq

/-- For every accepted schema and either byte order, a buffer that decodes no longer does when
bytes are cut off its end or put after it, and the error says which of the two it was. -/
theorem decode_prefix_free {schema : Schema} {s : Resolved} {outside : String → Codec}
    (built : schema.Built) (accepted : schema.resolve.result = .ok s)
    (distinct : ∀ r ∈ s.records, (r.fields.map (·.ident)).Nodup)
    (lawful : ∀ name ∈ s.foreignTypes, (outside name).SelfDelimiting)
    {r : ResolvedRecord} (mem : r ∈ s.records) :
    ∃ c, s.codec? outside r.name = some c ∧
      ∀ order bytes v, c.decodeBytes order bytes = .ok v →
        (∀ start, start <+: bytes → start ≠ bytes → ∃ required available,
          c.decodeBytes order start = .error (.bufferTooShort required available)) ∧
        ∀ more, more ≠ [] →
          c.decodeBytes order (bytes ++ more) = .error (.trailingBytes more.length) := by
  have hs := built.sound accepted
  obtain ⟨c, hc, hframed⟩ := hs.codec_induction (P := fun _ c => c.read.Framed True)
    Codec.scalar_framed (fun name hname => (lawful name hname).framed.mono)
    (fun r hr codecs _ hfields =>
      (hs.coherent r hr).framed (distinct r hr) hfields fun _ _ _ => trivial) mem
  exact ⟨c, hc, fun order bytes v h => Codec.decodeBytes_of_framed hframed h⟩

theorem track_prefix_free :
    ∃ c, Sample.resolved.codec? Sample.outside "Track" = some c ∧
      c.decodeBytes .bigEndian Sample.trackBytes = .ok (Sample.track 1) ∧
      (∃ required available, c.decodeBytes .bigEndian (Sample.trackBytes.take 20) =
        .error (.bufferTooShort required available)) ∧
      c.decodeBytes .bigEndian (Sample.trackBytes ++ [0, 0, 0]) = .error (.trailingBytes 3) := by
  have mem : Sample.trackRecord ∈ Sample.resolved.records := by simp [Sample.records]
  have lawful : ∀ name ∈ Sample.resolved.foreignTypes, (Sample.outside name).SelfDelimiting :=
    fun _ _ => Timestamp.selfDelimiting
  obtain ⟨c, hc, h⟩ := decode_prefix_free Sample.built Sample.accepted Sample.distinct lawful mem
  have hc' : Sample.resolved.codec? Sample.outside "Track" = some c := hc
  have hdecode : c.decodeBytes .bigEndian Sample.trackBytes = .ok (Sample.track 1) := by
    simpa [hc'] using Sample.decode_track
  obtain ⟨hshort, hlong⟩ := h _ _ _ hdecode
  refine ⟨c, hc, hdecode, hshort _ (List.take_prefix ..) (by decide), ?_⟩
  exact hlong [0, 0, 0] (by decide)

end RecordWire
