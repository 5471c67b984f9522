import RecordWire.Proofs.EncodedSize

/-!
The least size is a bound that is reached.  No value of a record is written in fewer bytes and no
decode takes fewer.  A new value is written in just as many, unless the bound was cut to a machine
word.
-/

namespace RecordWire

/-! ## Decoding -/

namespace Decoded

variable {α β : Type} {d : Decoded α} {start : Reader} {m n : Nat}

/-- If the decode came to its end, it took at least `n` bytes. -/
def Takes (d : Decoded α) (start : Reader) (n : Nat) : Prop :=
  d.error = none → start.position + n ≤ d.reader.position

theorem takes_of_error {e : WireError} (h : d.error = some e) : d.Takes start n := by
  intro hnone
  cases h.symm.trans hnone

theorem Takes.weaken (h : d.Takes start n) (hle : m ≤ n) : d.Takes start m :=
  fun hnone => Nat.le_trans (Nat.add_le_add_left hle _) (h hnone)

theorem Takes.map (h : d.Takes start n) (f : α → β) : (d.map f).Takes start n :=
  h

theorem Takes.orKeep (h : d.Takes start n) (old : α) : (d.orKeep old).Takes start n := by
  rw [Decoded.orKeep]
  cases he : d.error with
  | some e => exact takes_of_error rfl
  | none => exact h

theorem Takes.andThen {next : α → Reader → Decoded α} (h : d.Takes start m)
    (h' : (next d.value d.reader).Takes d.reader n) : (d.andThen next).Takes start (m + n) := by
  rw [Decoded.andThen]
  cases he : d.error with
  | some e => exact takes_of_error he
  | none =>
    intro hnone
    have hfirst := h he
    have hnext := h' hnone
    show start.position + (m + n) ≤ (next d.value d.reader).reader.position
    omega

theorem takes_iff : d.Takes start n ↔
    ∀ a reader, d.outcome = (.ok a, reader) → start.position + n ≤ reader.position := by
  rw [Takes, outcome]
  cases he : d.error with
  | some e =>
    constructor
    · intro _ a reader hd
      cases hd
    · intro _ hnone
      cases hnone
  | none =>
    constructor
    · intro h a reader hd
      cases hd
      exact h rfl
    · exact fun h _ => h _ _ rfl

theorem andThen_assoc (d : Decoded α) (f g : α → Reader → Decoded α) :
    (d.andThen f).andThen g = d.andThen fun a r => (f a r).andThen g := by
  simp only [Decoded.andThen]
  cases hd : d.error with
  | some e => simp only [hd]
  | none =>
    dsimp only
    cases hf : (f d.value d.reader).error with
    | some e => simp only [hf]
    | none => simp only [List.append_assoc]

end Decoded

section Steps

variable (codecs : Element → Codec) (allocators : List Allocator)

theorem runDecode_singleton (step : DecodeStep) (fields : Fields) (reader : Reader) :
    runDecode codecs allocators [step] fields reader =
      step.run codecs allocators fields reader := by
  simp only [runDecode, Decoded.andThen]
  cases h : (step.run codecs allocators fields reader).error with
  | some e => rfl
  | none =>
    dsimp only
    rw [List.append_nil, ← h]

theorem runDecode_append (steps rest : List DecodeStep) (fields : Fields) (reader : Reader) :
    runDecode codecs allocators (steps ++ rest) fields reader =
      (runDecode codecs allocators steps fields reader).andThen
        (runDecode codecs allocators rest) := by
  induction steps generalizing fields reader with
  | nil => rfl
  | cons step steps ih =>
    rw [List.cons_append, runDecode, runDecode, Decoded.andThen_assoc]
    exact congrArg _ (funext fun fields => funext fun reader => ih fields reader)

end Steps

theorem Codec.decodeEach_takes {c : Codec} {items : List Value}
    (h : ∀ v ∈ items, ∀ reader, (c.decodeInto v reader).Takes reader c.minSize) (reader : Reader) :
    (c.decodeEach items reader).Takes reader (items.length * c.minSize) := by
  induction items generalizing reader with
  | nil =>
    rw [decodeEach_nil, List.length_nil, Nat.zero_mul]
    exact fun _ => Nat.le_refl _
  | cons v items ih =>
    rw [List.forall_mem_cons] at h
    have hv := h.1 reader
    have hitems := ih h.2 (c.decodeInto v reader).reader
    rw [decodeEach_cons]
    cases he : (c.decodeInto v reader).error with
    | some e =>
      simp only [he]
      exact Decoded.takes_of_error he
    | none =>
      simp only [he]
      intro hnone
      have hfirst := hv he
      have hrest := hitems hnone
      rw [List.length_cons, Nat.add_mul, Nat.one_mul]
      dsimp only at hnone hrest ⊢
      omega

theorem Reader.position_getRaw {reader reader' : Reader} {n : Nat} {bytes : List UInt8}
    (h : reader.getRaw n = (.ok bytes, reader')) : reader'.position = reader.position + n := by
  rw [getRaw] at h
  by_cases hn : reader.remaining < n
  · rw [if_pos hn] at h
    cases h
  · rw [if_neg hn] at h
    cases h
    rfl

theorem Codec.scalar_takes (p : Primitive) (v : Value) (reader : Reader) :
    ((scalar p).decodeInto v reader).Takes reader (scalar p).minSize := by
  simp only [scalar, Reader.getScalar]
  cases hraw : reader.getRaw p.size with
  | mk result reader' =>
    cases result with
    | error e => exact Decoded.takes_of_error rfl
    | ok bytes => exact fun _ => Nat.le_of_eq (Reader.position_getRaw hraw).symm

namespace ResolvedRecord

variable {r : ResolvedRecord} {typed : Element → Value → Prop} {codecs : Element → Codec}
  {f : ResolvedField} {fields : Fields}

/-- A length in front of the sequence is four bytes. -/
theorem askedLength_takes {reader reader' : Reader} {n : Nat}
    (h : r.askedLength f fields reader = (.ok n, reader')) :
    reader.position + (if f.countField.isSome then 0 else 4) ≤ reader'.position := by
  rw [askedLength] at h
  cases hcount : f.countField.bind (r.fields[·]?) with
  | some count =>
    obtain ⟨i, hi, -⟩ := Option.bind_eq_some_iff.mp hcount
    rw [hcount] at h
    cases h
    rw [hi, Option.isSome_some, if_pos rfl]
    exact Nat.le_refl _
  | none =>
    rw [hcount] at h
    dsimp only at h
    cases hraw : reader.getRaw 4 with
    | mk result reader₁ =>
      rw [hraw] at h
      cases result with
      | error e => cases h
      | ok bytes =>
        cases h
        rw [Reader.position_getRaw hraw]
        split <;> omega

theorem Coherent.sizingStep_takes (hr : r.Coherent) (codecs : Element → Codec) (fields : Fields)
    (hf : f ∈ r.fields) {e : Element} (hk : f.kind = .sequence e) (reader : Reader) :
    ((r.sizingStep f e).run codecs r.layout.allocators fields reader).Takes reader
      (f.minSize codecs) := by
  rw [hr.run_sizingStep hf hk, ResolvedField.minSize, hk]
  cases hasked : r.askedLength f fields reader with
  | mk result reader' =>
    cases result with
    | error e => exact Decoded.takes_of_error rfl
    | ok n =>
      dsimp only
      cases reader'.checkSequence (codecs e).minSize n with
      | error e => exact Decoded.takes_of_error rfl
      | ok m => exact fun _ => askedLength_takes hasked

theorem readBlock_takes (p : Primitive) (reader : Reader) :
    ((DecodeStep.readBlock f.ident p).run codecs r.layout.allocators fields reader).Takes reader
      (fields.get f.ident).items.length := by
  rw [DecodeStep.run]
  cases hraw : reader.getRaw (fields.get f.ident).items.length with
  | mk result reader' =>
    cases result with
    | error e => exact Decoded.takes_of_error rfl
    | ok bytes => exact fun _ => Nat.le_of_eq (Reader.position_getRaw hraw).symm

variable (hkeeps : ∀ f ∈ r.fields, (codecs f.kind.element).Keeps (typed f.kind.element))
  (h : ∀ f ∈ r.fields, ∀ v, typed f.kind.element v → ∀ reader,
    ((codecs f.kind.element).decodeInto v reader).Takes reader (codecs f.kind.element).minSize)
include h

theorem readElements_takes (hf : f ∈ r.fields) (hk : ∀ e, f.kind ≠ .single e)
    (ht : r.Typed typed fields) (access : Access) (reader : Reader) :
    ((DecodeStep.readElements f.ident f.kind.element access).run codecs r.layout.allocators fields
      reader).Takes reader
        ((fields.get f.ident).items.length * (codecs f.kind.element).minSize) := by
  have hitems : ∀ v ∈ (fields.get f.ident).items, typed f.kind.element v := by
    have hparts := ht.parts f hf
    rwa [FieldKind.parts_of_ne hk] at hparts
  have heach := Codec.decodeEach_takes (fun v hv => h f hf v (hitems v hv)) reader
  cases access with
  | reference => exact heach.map _
  | copy => exact (heach.map _).orKeep _

include hkeeps

theorem readValue_takes (hf : f ∈ r.fields) {e : Element} (hk : f.kind = .single e)
    (ht : r.Typed typed fields) (access : Access) (reader : Reader) :
    ((DecodeStep.readValue f.ident e access).run codecs r.layout.allocators fields reader).Takes
      reader (codecs e).minSize := by
  have hold := ht.parts f hf
  have hdecode := h f hf
  have hinitial := (hkeeps f hf).initial
  rw [hk] at hold hdecode hinitial
  cases access with
  | reference => exact (hdecode _ (hold _ (List.mem_singleton.mpr rfl)) reader).map _
  | copy => exact ((hdecode _ hinitial reader).map _).orKeep _

variable (hr : r.Coherent) (hd : (r.fields.map (·.ident)).Nodup)
  (hp : ∀ p bits, typed (.primitive p) (.scalar p bits))
  (hscalar : ∀ p, codecs (.primitive p) = .scalar p)
include hr hd hp hscalar

theorem Coherent.decodeSteps_takes (hf : f ∈ r.fields) (ht : r.Typed typed fields)
    (reader : Reader) :
    (runDecode codecs r.layout.allocators (r.decodeSteps f) fields reader).Takes reader
      (f.minSize codecs) := by
  have hsteps : ∀ step ∈ r.decodeSteps f, step ∈ r.plan.decode :=
    fun step hstep => List.mem_flatMap.mpr ⟨f, hf, hstep⟩
  have hshape := ht.shape f hf
  rw [decodeSteps] at hsteps ⊢
  rw [ResolvedField.minSize]
  cases hk : f.kind with
  | single e =>
    dsimp only
    rw [runDecode_singleton]
    exact readValue_takes hkeeps h hf hk ht _ reader
  | array e n =>
    have hne : ∀ e, f.kind ≠ .single e := by simp [hk]
    have hitems := fun access => readElements_takes h hf hne ht access reader
    have hlength : (fields.get f.ident).items.length = n := by
      rw [hk] at hshape
      obtain ⟨items, hget, hlength⟩ := hshape
      rw [hget, Value.items, hlength]
    rw [hlength, hk, FieldKind.element] at hitems
    cases e with
    | primitive p =>
      dsimp only
      by_cases hb : p.isByte = true
      · rw [if_pos hb, runDecode_singleton]
        rw [minSize_of_isByte hscalar hb, Nat.mul_one, ← hlength]
        exact readBlock_takes p reader
      · rw [if_neg hb, runDecode_singleton]
        exact hitems _
    | record name =>
      dsimp only
      rw [runDecode_singleton]
      exact hitems _
    | foreign name =>
      dsimp only
      rw [runDecode_singleton]
      exact hitems _
  | sequence e =>
    have hne : ∀ e, f.kind ≠ .single e := by simp [hk]
    have hsizing := hr.sizingStep_takes codecs fields hf hk reader
    have htyped : r.Typed typed
        ((r.sizingStep f e).run codecs r.layout.allocators fields reader).value := by
      refine hr.run_typed hd hp hkeeps (hsteps _ ?_) reader ht
      simp [hk]
    have hitems := readElements_takes h hf hne htyped (f.kind.access r.fixedLayout)
      ((r.sizingStep f e).run codecs r.layout.allocators fields reader).reader
    rw [hk, FieldKind.element, ← runDecode_singleton] at hitems
    rw [ResolvedField.minSize, hk] at hsizing
    exact (hsizing.andThen hitems).weaken (Nat.le_add_right ..)

theorem Coherent.flatMap_takes {fs : List ResolvedField} (hf : ∀ f ∈ fs, f ∈ r.fields)
    (ht : r.Typed typed fields) (reader : Reader) :
    (runDecode codecs r.layout.allocators (fs.flatMap r.decodeSteps) fields reader).Takes reader
      (fs.map (·.minSize codecs)).sum := by
  induction fs generalizing fields reader with
  | nil => exact fun _ => Nat.le_refl _
  | cons f fs ih =>
    rw [List.forall_mem_cons] at hf
    have hfield := hr.decodeSteps_takes hkeeps h hd hp hscalar hf.1 ht reader
    have htyped : r.Typed typed
        (runDecode codecs r.layout.allocators (r.decodeSteps f) fields reader).value := by
      apply runDecode_invariant (P := fun fields _ => r.Typed typed fields) ?_ ht
      intro step hstep fields reader ht
      exact hr.run_typed hd hp hkeeps (List.mem_flatMap.mpr ⟨f, hf.1, hstep⟩) reader ht
    rw [List.flatMap_cons, runDecode_append, List.map_cons, List.sum_cons]
    exact hfield.andThen (ih hf.2 htyped _)

theorem Coherent.decodeInto_takes (ht : r.Typed typed fields) (reader : Reader) :
    ((r.codec codecs).decodeInto (.record fields) reader).Takes reader
      (r.codec codecs).minSize := by
  have hall := hr.flatMap_takes hkeeps h hd hp hscalar (fun _ hf => hf) ht reader
  exact (hall.weaken (r.minSize_le hscalar)).map _

end ResolvedRecord

/-! ## Schemas -/

namespace Codec

/-- No value of the type is written in fewer bytes than the least size, and no decode takes
fewer. -/
structure Bounded (c : Codec) (typed : Value → Prop) : Prop where
  encode : ∀ v w w', typed v → c.encode v w = .ok w' →
    ∃ bytes, w' = w.putRaw bytes ∧ c.minSize ≤ bytes.length
  decode : ∀ v reader v' reader', typed v →
    (c.decodeInto v reader).outcome = (.ok v', reader') →
      reader.position + c.minSize ≤ reader'.position

/-- A new value is written in just the least size. -/
def Tight (c : Codec) : Prop :=
  ∀ w, ∃ bytes, c.encode c.initial w = .ok (w.putRaw bytes) ∧ bytes.length = c.minSize

end Codec

namespace Resolved

variable {s : Resolved} {outside : String → Codec} {values : String → Value → Prop}
  {r : ResolvedRecord}

theorem Sound.decodeInto_takes (hs : s.Sound)
    (hd : ∀ r ∈ s.records, (r.fields.map (·.ident)).Nodup)
    (hkeeps : ∀ name ∈ s.foreignTypes, (outside name).Keeps (values name))
    (ho : ∀ name ∈ s.foreignTypes, ∀ v, values name v → ∀ reader,
      ((outside name).decodeInto v reader).Takes reader (outside name).minSize)
    (hr : r ∈ s.records) :
    ∀ v, s.Typed values (.record r.name) v → ∀ reader,
      ((s.elementCodec outside (.record r.name)).decodeInto v reader).Takes reader
        (s.elementCodec outside (.record r.name)).minSize := by
  apply hs.record_induction (P := fun e => ∀ v, s.Typed values e v → ∀ reader,
    ((s.elementCodec outside e).decodeInto v reader).Takes reader
      (s.elementCodec outside e).minSize) ?_ ?_ ?_ hr
  · intro p v _
    exact Codec.scalar_takes p v
  · intro name hname v hv
    cases hv with
    | foreign hv => exact ho name hname v hv
  · intro r hr hfields v hv reader
    obtain ⟨fields, rfl, ht⟩ := typed_record (hs.getRecord?_eq_some.mpr ⟨hr, rfl⟩) hv
    rw [hs.elementCodec_record hr]
    exact (hs.coherent r hr).decodeInto_takes (hs.keeps_typed hd hkeeps hr) hfields (hd r hr)
      .primitive (fun _ => rfl) ht reader

end Resolved

namespace Timestamp

theorem elements_keep : ∀ f ∈ record.fields,
    (scalars f.kind.element).Keeps fun v => f.kind.element.IsScalar v := by
  intro f hf
  obtain ⟨-, p, hk⟩ := element_of_mem hf
  rw [hk]
  exact Codec.scalar_keeps fun bits => ⟨bits, rfl⟩

theorem keeps : codec.Keeps IsValue := by
  have hkeeps : (record.codec scalars).Keeps fun v =>
      ∃ fields, v = .record fields ∧ record.Typed (fun e v => e.IsScalar v) fields :=
    coherent.keeps nodup_idents (fun p bits => ⟨bits, rfl⟩) elements_keep
  simp only [← isValue_iff] at hkeeps
  exact hkeeps

theorem encode_appends {v : Value} (hv : IsValue v) (tight : Prop) :
    Appends (codec.encode v) codec.minSize tight := by
  obtain ⟨fields, rfl, ht⟩ := isValue_iff.mp hv
  have hsize : record.Unsaturated := by decide
  rw [codec_eq]
  refine ResolvedRecord.encode_appends (fun _ => rfl) (fun _ => hsize) ht.shape
    (fun _ f hf hseq => ?_) fun f hf u hu => ?_
  · obtain ⟨-, p, hk⟩ := element_of_mem hf
    rw [hk] at hseq
    cases hseq
  · have hscalar := ht.parts f hf u hu
    obtain ⟨-, p, hk⟩ := element_of_mem hf
    rw [hk] at hscalar ⊢
    obtain ⟨bits, rfl⟩ := hscalar
    exact Codec.scalar_appends p bits

theorem decodeInto_takes {v : Value} (hv : IsValue v) (reader : Reader) :
    (codec.decodeInto v reader).Takes reader codec.minSize := by
  obtain ⟨fields, rfl, ht⟩ := isValue_iff.mp hv
  rw [codec_eq]
  refine coherent.decodeInto_takes elements_keep (fun f hf v _ reader => ?_) nodup_idents
    (fun p bits => ⟨bits, rfl⟩) (fun _ => rfl) ht reader
  obtain ⟨-, p, hk⟩ := element_of_mem hf
  rw [hk]
  exact Codec.scalar_takes p v reader

theorem bounded : codec.Bounded IsValue where
  encode _ w w' hv := appends_false_iff.mp (encode_appends hv False) w w'
  decode _ reader v' reader' hv := Decoded.takes_iff.mp (decodeInto_takes hv reader) v' reader'

theorem tight : codec.Tight :=
  appends_true_iff.mp (encode_appends keeps.initial True)

end Timestamp

/-- For every accepted schema and every record, the least size is what the plan adds up to.  No
value is written in fewer bytes, no decode takes fewer, and a new value is written in just as many
unless some sum was cut. -/
theorem minSize_bounded_and_tight {schema : Schema} {s : Resolved} {outside : String → Codec}
    {values : String → Value → Prop} (built : schema.Built)
    (accepted : schema.resolve.result = .ok s)
    (distinct : ∀ r ∈ s.records, (r.fields.map (·.ident)).Nodup)
    (lawful : ∀ name ∈ s.foreignTypes, (outside name).Keeps (values name) ∧
      (outside name).Bounded (values name) ∧ (outside name).Tight)
    {r : ResolvedRecord} (mem : r ∈ s.records) :
    ∃ c, s.codec? outside r.name = some c ∧
      c.minSize = r.plan.minSize.fixed + (r.plan.minSize.terms.map fun term =>
        term.1 * (s.elementCodec outside term.2).minSize).sum ∧
      c.Bounded (s.Typed values (.record r.name)) ∧
      ((∀ r', Relation.ReflTransGen s.Inlines r r' → r'.Unsaturated) → c.Tight) := by
  have hs := built.sound accepted
  have hcodec : s.elementCodec outside (.record r.name) = r.codec (s.elementCodec outside) :=
    hs.elementCodec_record mem
  refine ⟨_, hs.codec?_eq mem, ?_, ⟨fun v w w' hv => ?_, fun v reader v' reader' hv => ?_⟩,
    fun hinside => ?_⟩
  · rw [hcodec]
    exact WireSize.resolve_eq ..
  · rw [hcodec]
    refine appends_false_iff.mp (hs.encode_appends (fun _ name hname v hv => ?_) mem
      False.elim v hv) w w'
    exact appends_false_iff.mpr fun w w' => (lawful name hname).2.1.encode v w w' hv
  · refine Decoded.takes_iff.mp (hs.decodeInto_takes distinct (fun name hname =>
      (lawful name hname).1) (fun name hname v hv reader => ?_) mem v hv reader) v' reader'
    exact Decoded.takes_iff.mpr fun v' reader' => (lawful name hname).2.1.decode v _ v' reader' hv
  · rw [hcodec]
    exact appends_true_iff.mp (hs.initial_appends distinct (fun name hname =>
      appends_true_iff.mpr (lawful name hname).2.2) mem hinside)

/-- A fix has a timestamp of 12 bytes and a block of two. -/
theorem fix_minSize :
    "Timestamp" ∈ Sample.resolved.foreignTypes ∧
    ∃ c, Sample.resolved.codec? Sample.outside "Fix" = some c ∧ c.minSize = 14 ∧
      c.Bounded (Sample.resolved.Typed (fun _ => Timestamp.IsValue) (.record "Fix")) ∧
      c.Tight := by
  have mem : Sample.fixRecord ∈ Sample.resolved.records := by simp [Sample.records]
  have unsaturated : ∀ r ∈ Sample.resolved.records, r.Unsaturated := by decide +kernel
  obtain ⟨c, hc, hsize, hbounded, htight⟩ := minSize_bounded_and_tight Sample.built Sample.accepted
    Sample.distinct (fun _ _ => ⟨Timestamp.keeps, Timestamp.bounded, Timestamp.tight⟩) mem
  refine ⟨by decide +kernel, c, hc, hsize, hbounded, htight fun r hreach => ?_⟩
  exact unsaturated r (Resolved.mem_of_reaches hreach mem)

end RecordWire
