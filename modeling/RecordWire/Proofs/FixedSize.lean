import RecordWire.Proofs.EncodedSize

/-!
Records of one size.  Where the layout is fixed every value is written in the same number of bytes,
and every buffer of that length decodes.  A decoder can only find its buffer too short or too long.
-/

namespace RecordWire

/-! ## Readings of one length -/

namespace Reading

variable {α β : Type} {m n : Nat}

/-- Takes just `n` bytes whatever they are, and fails only if there are fewer. -/
def TakesJust (p : Reading α) (n : Nat) : Prop :=
  ∀ r, (n ≤ r.rest.length ∧ ∃ a, p r = .ok (a, r.skip n)) ∨
    (r.rest.length < n ∧
      ∃ required available, p r = .error (.bufferTooShort required available))

theorem takesJust_pure (a : α) : (pure a : Reading α).TakesJust 0 :=
  fun _ => .inl ⟨Nat.zero_le _, a, rfl⟩

theorem TakesJust.bind {p : Reading α} {q : α → Reading β} (hp : p.TakesJust m)
    (hq : ∀ a, (q a).TakesJust n) : (p >>= q).TakesJust (m + n) := by
  intro r
  rw [bind_apply]
  rcases hp r with ⟨hm, a, hr⟩ | ⟨hm, required, available, hr⟩
  · have hrest : (r.skip m).rest.length = r.rest.length - m := by
      rw [Reader.rest_skip, List.length_drop]
    rw [hr]
    dsimp only
    rcases hq a (r.skip m) with ⟨hn, b, hr'⟩ | ⟨hn, hfail⟩
    · refine .inl ⟨by omega, b, ?_⟩
      rw [hr', Reader.skip_skip]
    · exact .inr ⟨by omega, hfail⟩
  · rw [hr]
    exact .inr ⟨by omega, required, available, rfl⟩

theorem TakesJust.map {p : Reading α} (hp : p.TakesJust n) (f : α → β) :
    (f <$> p).TakesJust n := by
  rw [map_eq_pure_bind]
  exact hp.bind fun a => takesJust_pure (f a)

theorem takesJust_raw (n : Nat) : (raw n).TakesJust n := by
  intro r
  rw [raw_apply]
  by_cases h : r.rest.length < n
  · rw [if_pos h]
    exact .inr ⟨h, _, _, rfl⟩
  · rw [if_neg h]
    exact .inl ⟨Nat.le_of_not_lt h, _, rfl⟩

theorem takesJust_word (size : Nat) : (word size).TakesJust size :=
  fun r => (takesJust_raw size).map r.order.ofWordBytes r

end Reading

/-! ## Records -/

namespace Codec

theorem scalar_takesJust (p : Primitive) : (scalar p).read.TakesJust (scalar p).minSize := by
  rw [scalar_read]
  exact (Reading.takesJust_word p.size).map _

theorem readEach_takesJust {c : Codec} (hc : c.read.TakesJust c.minSize) (n : Nat) :
    (c.readEach n).TakesJust (n * c.minSize) := by
  induction n with
  | zero =>
    rw [Nat.zero_mul]
    exact Reading.takesJust_pure []
  | succ n ih =>
    rw [Nat.add_mul, Nat.one_mul, Nat.add_comm (n * c.minSize)]
    exact hc.bind fun v => ih.map (v :: ·)

end Codec

section Records

variable {codecs : Element → Codec} (hscalar : ∀ p, codecs (.primitive p) = .scalar p)
include hscalar

theorem readArray_takesJust {e : Element} (h : (codecs e).read.TakesJust (codecs e).minSize)
    (n : Nat) : (e.readArray codecs n).TakesJust (n * (codecs e).minSize) := by
  cases e with
  | record name => exact Codec.readEach_takesJust h n
  | foreign name => exact Codec.readEach_takesJust h n
  | primitive p =>
    rw [Element.readArray]
    by_cases hb : p.isByte = true
    · rw [if_pos hb, minSize_of_isByte hscalar hb, Nat.mul_one]
      exact (Reading.takesJust_raw n).map _
    · rw [if_neg hb]
      exact Codec.readEach_takesJust h n

theorem field_takesJust {f : ResolvedField} (hs : f.kind.isSequence = false)
    (h : (codecs f.kind.element).read.TakesJust (codecs f.kind.element).minSize) (before : Value) :
    (f.read codecs before).TakesJust (f.minSize codecs) := by
  rw [ResolvedField.read, ResolvedField.minSize]
  cases hk : f.kind with
  | single e =>
    rw [hk] at h
    exact h
  | array e n =>
    rw [hk] at h
    exact (readArray_takesJust hscalar h n).map _
  | sequence e =>
    rw [hk] at hs
    cases hs

theorem readFields_takesJust {fs : List ResolvedField}
    (hs : ∀ f ∈ fs, f.kind.isSequence = false)
    (h : ∀ f ∈ fs, (codecs f.kind.element).read.TakesJust (codecs f.kind.element).minSize)
    (before : Value) :
    (readFields codecs before fs).TakesJust (fs.map (·.minSize codecs)).sum := by
  induction fs generalizing before with
  | nil => exact Reading.takesJust_pure []
  | cons f fs ih =>
    rw [List.forall_mem_cons] at hs h
    rw [readFields, List.map_cons, List.sum_cons]
    have hfield := field_takesJust hscalar hs.1 h.1 before
    exact hfield.bind fun v => (ih hs.2 h.2 v).map ((f.ident, v) :: ·)

theorem ResolvedRecord.Coherent.takesJust {r : ResolvedRecord} (hr : r.Coherent)
    (hd : (r.fields.map (·.ident)).Nodup) (hs : ∀ f ∈ r.fields, f.kind.isSequence = false)
    (hsize : r.Unsaturated)
    (h : ∀ f ∈ r.fields,
      (codecs f.kind.element).read.TakesJust (codecs f.kind.element).minSize) :
    (r.codec codecs).read.TakesJust (r.codec codecs).minSize := by
  rw [hr.read_eq codecs hd, minSize_eq hscalar hsize]
  exact (readFields_takesJust hscalar hs h _).map _

end Records

/-- A whole buffer decodes if and only if it has the right length, and otherwise the error says
which way it is wrong. -/
theorem Codec.decodeBytes_of_takesJust {c : Codec} {n : Nat} (hc : c.read.TakesJust n)
    (order : ByteOrder) (bytes : List UInt8) :
    ((∃ v, c.decodeBytes order bytes = .ok v) ↔ bytes.length = n) ∧
    (bytes.length < n → ∃ required available,
      c.decodeBytes order bytes = .error (.bufferTooShort required available)) ∧
    (n < bytes.length →
      c.decodeBytes order bytes = .error (.trailingBytes (bytes.length - n))) := by
  have hremaining : ((({ buffer := bytes, order := order } : Reader)).skip n).remaining =
      bytes.length - n := by
    show bytes.length - (0 + n) = _
    rw [Nat.zero_add]
  rw [decodeBytes_eq]
  rcases hc { buffer := bytes, order := order } with ⟨hn, v, hr⟩ | ⟨hn, required, available, hr⟩
  · have hn : n ≤ bytes.length := hn
    rw [hr]
    dsimp only
    rw [Reader.isEmpty, hremaining]
    by_cases heq : bytes.length = n
    · have hzero : bytes.length - n = 0 := by omega
      rw [hzero]
      exact ⟨⟨fun _ => heq, fun _ => ⟨v, rfl⟩⟩, fun h => absurd h (by omega),
        fun h => absurd h (by omega)⟩
    · have hpos : (bytes.length - n == 0) = false := beq_eq_false_iff_ne.mpr (by omega)
      rw [hpos, if_neg Bool.false_ne_true]
      exact ⟨⟨fun h => absurd h (by simp), fun h => absurd h heq⟩, fun h => absurd h (by omega),
        fun _ => rfl⟩
  · have hn : bytes.length < n := hn
    rw [hr]
    exact ⟨⟨fun h => absurd h (by simp), fun h => absurd h (by omega)⟩,
      fun _ => ⟨required, available, rfl⟩, fun h => absurd h (by omega)⟩

theorem Codec.encodeBytes_of_appends {c : Codec} {v : Value} {n : Nat}
    (h : Appends (c.encode v) n True) (order : ByteOrder) :
    ∃ bytes, c.encodeBytes order v = .ok bytes ∧ bytes.length = n := by
  obtain ⟨bytes, hencode, hlength⟩ := appends_true_iff.mp h { order := order }
  refine ⟨bytes, ?_, hlength⟩
  rw [encodeBytes, hencode]
  rfl

/-! ## Schemas -/

theorem Resolved.Sound.takesJust {s : Resolved} {outside : String → Codec} (hs : s.Sound)
    (hd : ∀ r ∈ s.records, (r.fields.map (·.ident)).Nodup) {r : ResolvedRecord}
    (hr : r ∈ s.records) :
    (∀ r', Relation.ReflTransGen s.Inlines r r' → r'.Rigid ∧ r'.Unsaturated) →
      (r.codec (s.elementCodec outside)).read.TakesJust
        (r.codec (s.elementCodec outside)).minSize := by
  apply hs.embeds_induction (P := fun r =>
    (∀ r', Relation.ReflTransGen s.Inlines r r' → r'.Rigid ∧ r'.Unsaturated) →
      (r.codec (s.elementCodec outside)).read.TakesJust
        (r.codec (s.elementCodec outside)).minSize) ?_ hr
  intro r hr ih hinside
  obtain ⟨hrigid, hsize⟩ := hinside r .refl
  refine (hs.coherent r hr).takesJust (fun _ => rfl) (hd r hr) (fun f hf => (hrigid f hf).1) hsize
    fun f hf => ?_
  rcases hs.field_cases hr hf with ⟨p, he⟩ | ⟨name, -, he⟩ | ⟨r', hr', he⟩
  · rw [he]
    exact Codec.scalar_takesJust p
  · exact absurd he (hrigid.element_ne_foreign hf name)
  · rw [he, hs.elementCodec_record hr'.1]
    refine ih r' hr' fun r'' hreach => hinside r'' (.head ?_ hreach)
    exact inlines_of_element hf (hrigid f hf).1 he hr'.1

/-- For every accepted schema, the values of a record with a fixed layout are all written in as many
bytes as its least size, and a buffer decodes if and only if it has that many. -/
theorem fixedLayout_one_size {schema : Schema} {s : Resolved} {outside : String → Codec}
    {values : String → Value → Prop} (built : schema.Built)
    (accepted : schema.resolve.result = .ok s)
    (distinct : ∀ r ∈ s.records, (r.fields.map (·.ident)).Nodup)
    {r : ResolvedRecord} (mem : r ∈ s.records) (fixed : r.fixedLayout = true)
    (unsaturated : ∀ r', Relation.ReflTransGen s.Inlines r r' → r'.Unsaturated) :
    ∃ c, s.codec? outside r.name = some c ∧
      (∀ order v, s.Typed values (.record r.name) v →
        ∃ bytes, c.encodeBytes order v = .ok bytes ∧ bytes.length = c.minSize) ∧
      ∀ order bytes,
        ((∃ v, c.decodeBytes order bytes = .ok v) ↔ bytes.length = c.minSize) ∧
        (bytes.length < c.minSize → ∃ required available,
          c.decodeBytes order bytes = .error (.bufferTooShort required available)) ∧
        (c.minSize < bytes.length →
          c.decodeBytes order bytes = .error (.trailingBytes (bytes.length - c.minSize))) := by
  have hs := built.sound accepted
  have hl := built.settled accepted
  have hinside : ∀ r', Relation.ReflTransGen s.Inlines r r' → r'.Rigid ∧ r'.Unsaturated := by
    intro r' hreach
    have hfixed := hs.fixedLayout_of_reaches hl mem fixed hreach
    have hmem := Resolved.mem_of_reaches hreach mem
    exact ⟨((hs.fixedLayout_step hl hmem).mp hfixed).1, unsaturated r' hreach⟩
  refine ⟨r.codec (s.elementCodec outside), ?_, fun order v hv => ?_, fun order bytes => ?_⟩
  · rw [hs.codec?_eq mem, hs.elementCodec_record mem]
  · apply Codec.encodeBytes_of_appends
    exact hs.encode_appends (fun hloose => absurd trivial hloose) mem (fun _ => hinside) v hv
  · exact Codec.decodeBytes_of_takesJust (hs.takesJust distinct mem hinside) order bytes

namespace Sample

def point (x y : BitVec Primitive.int16.width) : Value :=
  .record [("x", .scalar .int16 x), ("y", .scalar .int16 y)]

def board : Value :=
  .record [("corners", .list [point 1 2, point 3 4]), ("mark", .scalar .char 0x78)]

theorem point_typed (x y : BitVec Primitive.int16.width) :
    boardsResolved.Typed (fun _ _ => False) (.record "Point") (point x y) := by
  have hfound : boardsResolved.getRecord? "Point" = some pointRecord := by decide +kernel
  refine .record hfound rfl (forall_mem_pair.mpr ⟨trivial, trivial⟩) ?_
  refine forall_mem_pair.mpr ⟨?_, ?_⟩
  · exact List.forall_mem_singleton.mpr (.primitive .int16 x)
  · exact List.forall_mem_singleton.mpr (.primitive .int16 y)

theorem board_typed : boardsResolved.Typed (fun _ _ => False) (.record "Board") board := by
  have hfound : boardsResolved.getRecord? "Board" = some boardRecord := by decide +kernel
  refine .record hfound rfl (forall_mem_pair.mpr ⟨⟨_, rfl, rfl⟩, trivial⟩) ?_
  refine forall_mem_pair.mpr ⟨?_, ?_⟩
  · exact forall_mem_pair.mpr ⟨point_typed 1 2, point_typed 3 4⟩
  · exact List.forall_mem_singleton.mpr (.primitive .char 0x78)

end Sample

/-- A board takes nine bytes: two points of four, and a mark. -/
theorem board_one_size :
    ∃ c, Sample.boardsResolved.codec? (fun _ => .absent) "Board" = some c ∧ c.minSize = 9 ∧
      (∃ bytes, c.encodeBytes .bigEndian Sample.board = .ok bytes ∧ bytes.length = 9) ∧
      (∃ v, c.decodeBytes .littleEndian [1, 0, 2, 0, 3, 0, 4, 0, 0x78] = .ok v) ∧
      (∃ required available, c.decodeBytes .littleEndian [1, 0, 2, 0, 3, 0, 4, 0] =
        .error (.bufferTooShort required available)) ∧
      c.decodeBytes .littleEndian [1, 0, 2, 0, 3, 0, 4, 0, 0x78, 0, 0] =
        .error (.trailingBytes 2) := by
  have mem : Sample.boardRecord ∈ Sample.boardsResolved.records := by
    simp [Sample.boards_records]
  have distinct : ∀ r ∈ Sample.boardsResolved.records, (r.fields.map (·.ident)).Nodup := by
    decide +kernel
  have unsaturated : ∀ r ∈ Sample.boardsResolved.records, r.Unsaturated := by decide +kernel
  obtain ⟨c, hc, hencode, hdecode⟩ := fixedLayout_one_size Sample.boards_built
    Sample.boards_accepted distinct mem rfl fun r hreach =>
      unsaturated r (Resolved.mem_of_reaches hreach mem)
  have hsize : c.minSize = 9 := by
    have h : (Sample.boardsResolved.codec? (fun _ => .absent) "Board").map (·.minSize) =
        some 9 := by
      decide +kernel
    have hc' : Sample.boardsResolved.codec? (fun _ => .absent) "Board" = some c := hc
    rw [hc'] at h
    exact Option.some.inj h
  rw [hsize] at hencode hdecode
  refine ⟨c, hc, hsize, hencode .bigEndian _ Sample.board_typed, ?_, ?_, ?_⟩
  · exact (hdecode .littleEndian _).1.mpr rfl
  · exact (hdecode .littleEndian _).2.1 (by decide)
  · exact (hdecode .littleEndian _).2.2 (by decide)

end RecordWire
