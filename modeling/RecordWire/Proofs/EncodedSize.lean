import RecordWire.Proofs.FixedLayout
import RecordWire.Proofs.PlanSize
import RecordWire.Proofs.TypedDecoding

/-!
How many bytes a value is written in.  It is never fewer than the least size.  It is just that if
no sequence has an element, no foreign value takes more than it must, and no sum was cut to a
machine word on the way to the least size.
-/

namespace RecordWire

/-! ## Writing -/

/-- `write` puts at least `n` bytes behind what is there, or fails.  If it is `tight` it does not
fail, and puts just `n`. -/
def Appends (write : Writer → Except WireError Writer) (n : Nat) (tight : Prop) : Prop :=
  ∀ w, (∃ bytes, write w = .ok (w.putRaw bytes) ∧ n ≤ bytes.length ∧
      (tight → bytes.length = n)) ∨
    (¬ tight ∧ ∃ e, write w = .error e)

section Writing

variable {write write' : Writer → Except WireError Writer} {m n : Nat} {tight : Prop}

theorem appends_of_length (bytes : Writer → List UInt8)
    (h : ∀ w, write w = .ok (w.putRaw (bytes w)) ∧ (bytes w).length = n) :
    Appends write n tight := by
  intro w
  obtain ⟨hw, hn⟩ := h w
  exact .inl ⟨bytes w, hw, Nat.le_of_eq hn.symm, fun _ => hn⟩

theorem Appends.bind (h : Appends write m tight) (h' : Appends write' n tight) :
    Appends (fun w => write w >>= write') (m + n) tight := by
  intro w
  dsimp only
  rcases h w with ⟨bytes, hw, hle, heq⟩ | ⟨hloose, e, hw⟩
  · rw [hw]
    show _ ∨ ¬ tight ∧ ∃ e, write' (w.putRaw bytes) = .error e
    rcases h' (w.putRaw bytes) with ⟨bytes', hw', hle', heq'⟩ | hfail
    · refine .inl ⟨bytes ++ bytes', hw'.trans (congrArg _ (w.putRaw_putRaw ..)), ?_, fun ht => ?_⟩
      · rw [List.length_append]
        omega
      · rw [List.length_append, heq ht, heq' ht]
    · exact .inr hfail
  · exact .inr ⟨hloose, e, by rw [hw]; rfl⟩

theorem Appends.weaken (h : Appends write n tight) (hle : m ≤ n) (heq : tight → m = n) :
    Appends write m tight := by
  intro w
  rcases h w with ⟨bytes, hw, hn, hn'⟩ | hfail
  · exact .inl ⟨bytes, hw, Nat.le_trans hle hn, fun ht => (hn' ht).trans (heq ht).symm⟩
  · exact .inr hfail

theorem appends_false_iff : Appends write n False ↔
    ∀ w w', write w = .ok w' → ∃ bytes, w' = w.putRaw bytes ∧ n ≤ bytes.length := by
  constructor
  · intro h w w' hw'
    rcases h w with ⟨bytes, hw, hn, -⟩ | ⟨-, e, hw⟩
    · exact ⟨bytes, Except.ok.inj (hw'.symm.trans hw), hn⟩
    · cases hw'.symm.trans hw
  · intro h w
    cases hw : write w with
    | error e => exact .inr ⟨id, e, rfl⟩
    | ok w' =>
      obtain ⟨bytes, rfl, hn⟩ := h w w' hw
      exact .inl ⟨bytes, rfl, hn, False.elim⟩

theorem appends_true_iff : Appends write n True ↔
    ∀ w, ∃ bytes, write w = .ok (w.putRaw bytes) ∧ bytes.length = n := by
  constructor
  · intro h w
    rcases h w with ⟨bytes, hw, -, hn⟩ | ⟨hloose, -⟩
    · exact ⟨bytes, hw, hn trivial⟩
    · exact absurd trivial hloose
  · intro h w
    obtain ⟨bytes, hw, hn⟩ := h w
    exact .inl ⟨bytes, hw, Nat.le_of_eq hn.symm, fun _ => hn⟩

theorem putLength_appends (h : tight → n < 2 ^ 32) : Appends (·.putLength n) 4 tight := by
  intro w
  dsimp only
  rw [Writer.putLength]
  by_cases hn : n < Nat.pow 2 32
  · rw [if_pos hn]
    exact .inl ⟨_, rfl, Nat.le_of_eq (ByteOrder.length_wordBytes ..).symm,
      fun _ => ByteOrder.length_wordBytes ..⟩
  · rw [if_neg hn]
    exact .inr ⟨fun ht => hn (h ht), _, rfl⟩

/-- Each value in turn. -/
theorem Codec.encodeAll_appends {c : Codec} {items : List Value}
    (h : ∀ v ∈ items, Appends (c.encode v) c.minSize tight) :
    Appends (c.encodeAll items) (items.length * c.minSize) tight := by
  induction items with
  | nil => exact appends_of_length (fun _ => []) fun w => ⟨by rw [w.putRaw_nil]; rfl, by simp⟩
  | cons v items ih =>
    rw [List.forall_mem_cons] at h
    have hcons : c.encodeAll (v :: items) = fun w => c.encode v w >>= c.encodeAll items :=
      funext (c.encodeAll_cons v items)
    rw [hcons, List.length_cons, Nat.add_mul, Nat.one_mul, Nat.add_comm]
    exact h.1.bind (ih h.2)

theorem Codec.scalar_appends (p : Primitive) (bits : BitVec p.width) :
    Appends ((scalar p).encode (.scalar p bits)) (scalar p).minSize tight :=
  appends_of_length (fun w => w.order.wordBytes p.size bits.toNat) fun _ =>
    ⟨rfl, ByteOrder.length_wordBytes ..⟩

variable {codecs : Element → Codec} (hscalar : ∀ p, codecs (.primitive p) = .scalar p)
include hscalar

theorem Element.writeArray_appends {e : Element} {items : List Value}
    (h : ∀ v ∈ items, Appends ((codecs e).encode v) (codecs e).minSize tight) :
    Appends (fun w => e.writeArray codecs items w) (items.length * (codecs e).minSize) tight := by
  cases e with
  | record name => exact Codec.encodeAll_appends h
  | foreign name => exact Codec.encodeAll_appends h
  | primitive p =>
    simp only [writeArray]
    by_cases hb : p.isByte = true
    · simp only [if_pos hb]
      refine appends_of_length (fun _ => items.map Value.toByte) fun _ => ⟨rfl, ?_⟩
      rw [minSize_of_isByte hscalar hb, List.length_map, Nat.mul_one]
    · simp only [if_neg hb]
      exact Codec.encodeAll_appends h

/-- A field takes its least size just if its sequence is empty and its elements take theirs. -/
theorem ResolvedField.write_appends {f : ResolvedField} {v : Value} (hs : f.kind.HasShape v)
    (hempty : tight → f.kind.isSequence = true → v.items = [])
    (h : ∀ u ∈ f.kind.parts v,
      Appends ((codecs f.kind.element).encode u) (codecs f.kind.element).minSize tight) :
    Appends (f.write codecs v) (f.minSize codecs) tight := by
  show Appends (fun w => f.write codecs v w) _ _
  simp only [write, minSize]
  cases hk : f.kind with
  | single e =>
    rw [hk] at h
    exact h v (List.mem_singleton.mpr rfl)
  | array e n =>
    rw [hk] at hs h
    obtain ⟨items, rfl, rfl⟩ := hs
    exact Element.writeArray_appends hscalar h
  | sequence e =>
    rw [hk] at h hempty
    have hall : Appends ((codecs e).encodeAll v.items) (v.items.length * (codecs e).minSize)
        tight :=
      Codec.encodeAll_appends h
    have hitems : Appends ((codecs e).encodeAll v.items) 0 tight := by
      refine hall.weaken (Nat.zero_le _) fun ht => ?_
      rw [hempty ht rfl, List.length_nil, Nat.zero_mul]
    by_cases hcount : f.countField.isSome = true
    · simp only [hcount, if_true]
      exact hitems
    · simp only [hcount]
      have hlength : tight → v.items.length < 2 ^ 32 := by
        intro ht
        rw [hempty ht rfl]
        decide
      exact (putLength_appends hlength).bind hitems

theorem writeFields_appends {fs : List ResolvedField} {fields : Fields}
    (hs : ∀ f ∈ fs, f.kind.HasShape (fields.get f.ident))
    (hempty : tight → ∀ f ∈ fs, f.kind.isSequence = true → (fields.get f.ident).items = [])
    (h : ∀ f ∈ fs, ∀ u ∈ f.kind.parts (fields.get f.ident),
      Appends ((codecs f.kind.element).encode u) (codecs f.kind.element).minSize tight) :
    Appends (writeFields codecs fields fs) (fs.map (·.minSize codecs)).sum tight := by
  induction fs with
  | nil => exact appends_of_length (fun _ => []) fun w => ⟨by rw [w.putRaw_nil]; rfl, rfl⟩
  | cons f fs ih =>
    rw [List.forall_mem_cons] at hs h
    simp only [List.forall_mem_cons] at hempty
    rw [List.map_cons, List.sum_cons]
    have hfield := f.write_appends hscalar hs.1 (fun ht => (hempty ht).1) h.1
    exact hfield.bind (ih hs.2 (fun ht => (hempty ht).2) h.2)

theorem ResolvedRecord.encode_appends {r : ResolvedRecord} (hsize : tight → r.Unsaturated)
    {fields : Fields} (hs : ∀ f ∈ r.fields, f.kind.HasShape (fields.get f.ident))
    (hempty : tight → ∀ f ∈ r.fields, f.kind.isSequence = true → (fields.get f.ident).items = [])
    (h : ∀ f ∈ r.fields, ∀ u ∈ f.kind.parts (fields.get f.ident),
      Appends ((codecs f.kind.element).encode u) (codecs f.kind.element).minSize tight) :
    Appends ((r.codec codecs).encode (.record fields)) (r.codec codecs).minSize tight := by
  have hencode : (r.codec codecs).encode (.record fields) = writeFields codecs fields r.fields :=
    funext (r.encode_eq codecs fields)
  rw [hencode]
  exact (writeFields_appends hscalar hs hempty h).weaken (r.minSize_le hscalar)
    fun ht => minSize_eq hscalar (hsize ht)

end Writing

/-! ## Schemas -/

namespace FieldKind

variable {kind : FieldKind}

theorem items_initial (codecs : Element → Codec) (h : kind.isSequence = true) :
    (kind.initial codecs).items = [] := by
  cases kind with
  | single e => cases h
  | array e n => cases h
  | sequence e => rfl

theorem isSequence_of_mem_parts_initial {codecs : Element → Codec} {v : Value}
    (h : v ∈ kind.parts (kind.initial codecs)) : kind.isSequence = false := by
  cases kind with
  | single e => rfl
  | array e n => rfl
  | sequence e => cases h

end FieldKind

namespace Resolved

variable {s : Resolved} {outside : String → Codec} {values : String → Value → Prop}
  {r : ResolvedRecord}

/-- Values take at least the least size.  They take just that if there is nothing in the record
that could take more. -/
theorem Sound.encode_appends (hs : s.Sound) {tight : Prop}
    (ho : ¬ tight → ∀ name ∈ s.foreignTypes, ∀ v, values name v →
      Appends ((outside name).encode v) (outside name).minSize tight)
    (hr : r ∈ s.records) :
    (tight → ∀ r', Relation.ReflTransGen s.Inlines r r' → r'.Rigid ∧ r'.Unsaturated) →
      ∀ v, s.Typed values (.record r.name) v →
        Appends ((r.codec (s.elementCodec outside)).encode v)
          (r.codec (s.elementCodec outside)).minSize tight := by
  apply hs.embeds_induction (P := fun r =>
    (tight → ∀ r', Relation.ReflTransGen s.Inlines r r' → r'.Rigid ∧ r'.Unsaturated) →
      ∀ v, s.Typed values (.record r.name) v →
        Appends ((r.codec (s.elementCodec outside)).encode v)
          (r.codec (s.elementCodec outside)).minSize tight) ?_ hr
  intro r hr ih hinside v hv
  have hrigid : tight → r.Rigid := fun ht => (hinside ht r .refl).1
  obtain ⟨fields, rfl, ht⟩ := typed_record (hs.getRecord?_eq_some.mpr ⟨hr, rfl⟩) hv
  refine ResolvedRecord.encode_appends (fun _ => rfl) (fun htight => (hinside htight r .refl).2)
    ht.shape (fun htight f hf hseq => ?_) fun f hf u hu => ?_
  · exact absurd (hseq.symm.trans (hrigid htight f hf).1) nofun
  · have htyped := ht.parts f hf u hu
    rcases hs.field_cases hr hf with ⟨p, he⟩ | ⟨name, hname, he⟩ | ⟨r', hr', he⟩
    · rw [he] at htyped ⊢
      cases htyped with
      | primitive p bits => exact Codec.scalar_appends p bits
    · have hloose : ¬ tight := fun htight => (hrigid htight).element_ne_foreign hf name he
      rw [he] at htyped ⊢
      cases htyped with
      | foreign hv => exact ho hloose name hname u hv
    · rw [he] at htyped ⊢
      rw [hs.elementCodec_record hr'.1]
      refine ih r' hr' (fun htight r'' hreach => hinside htight r'' (.head ?_ hreach)) u htyped
      exact inlines_of_element hf (hrigid htight f hf).1 he hr'.1

/-- A new value has no elements in its sequences, so only what is inside counts. -/
theorem Sound.initial_appends (hs : s.Sound)
    (hd : ∀ r ∈ s.records, (r.fields.map (·.ident)).Nodup)
    (ho : ∀ name ∈ s.foreignTypes,
      Appends ((outside name).encode (outside name).initial) (outside name).minSize True)
    (hr : r ∈ s.records) :
    (∀ r', Relation.ReflTransGen s.Inlines r r' → r'.Unsaturated) →
      Appends ((r.codec (s.elementCodec outside)).encode
        (r.codec (s.elementCodec outside)).initial) (r.codec (s.elementCodec outside)).minSize
          True := by
  apply hs.embeds_induction (P := fun r =>
    (∀ r', Relation.ReflTransGen s.Inlines r r' → r'.Unsaturated) →
      Appends ((r.codec (s.elementCodec outside)).encode
        (r.codec (s.elementCodec outside)).initial) (r.codec (s.elementCodec outside)).minSize
          True) ?_ hr
  intro r hr ih hinside
  have hget : ∀ f ∈ r.fields, (r.codec (s.elementCodec outside)).initial.fields.get f.ident =
      f.kind.initial (s.elementCodec outside) :=
    fun f hf => ResolvedRecord.get_initial (hd r hr) hf
  have hrecord : (r.codec (s.elementCodec outside)).initial =
      .record (r.codec (s.elementCodec outside)).initial.fields := rfl
  rw [hrecord]
  refine ResolvedRecord.encode_appends (fun _ => rfl) (fun _ => hinside r .refl)
    (fun f hf => ?_) (fun _ f hf hseq => ?_) fun f hf u hu => ?_
  · rw [hget f hf]
    exact f.kind.hasShape_initial _
  · rw [hget f hf]
    exact FieldKind.items_initial _ hseq
  · rw [hget f hf] at hu
    rw [FieldKind.mem_parts_initial hu]
    rcases hs.field_cases hr hf with ⟨p, he⟩ | ⟨name, hname, he⟩ | ⟨r', hr', he⟩
    · rw [he]
      exact Codec.scalar_appends p 0
    · rw [he]
      exact ho name hname
    · rw [he, hs.elementCodec_record hr'.1]
      refine ih r' hr' fun r'' hreach => hinside r'' (.head ?_ hreach)
      exact inlines_of_element hf (FieldKind.isSequence_of_mem_parts_initial hu) he hr'.1

end Resolved
end RecordWire
