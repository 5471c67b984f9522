import RecordWire.Proofs.WireFormat

/-!
When a value cannot be encoded.  A sequence that no field counts stands behind its length, and that
has 32 bits.  A longer one is refused, at whatever depth it is, and the first one on the wire is the
one that is reported.  Nothing else is refused: a counted sequence is written whatever its count
says and however long it is.
-/

namespace RecordWire

/-! ## The first sequence that is refused -/

/-- Gives `a` unless a sequence is refused.  The error is that of the first one, by its length. -/
def refuseFirst {α : Type} (refused : SequenceStart → Bool) (error : Nat → WireError)
    (starts : List SequenceStart) (a : α) : Except WireError α :=
  match starts.find? refused with
  | some q => .error (error q.length)
  | none => .ok a

section RefuseFirst

variable {α β : Type} {refused : SequenceStart → Bool} {error : Nat → WireError}
  {starts starts' : List SequenceStart}

/-- A computation that is refused by `starts` and then, with what it gives, by `starts'`. -/
theorem refuseFirst_bind {a : α} {b : β} {next : α → Except WireError β}
    (h : next a = refuseFirst refused error starts' b) :
    refuseFirst refused error starts a >>= next =
      refuseFirst refused error (starts ++ starts') b := by
  rw [refuseFirst] at h
  rw [refuseFirst, refuseFirst, List.find?_append]
  cases starts.find? refused with
  | some q => rfl
  | none => exact h

theorem refuseFirst_cons_of_not {q : SequenceStart} (hq : refused q = false) (a : α) :
    refuseFirst refused error (q :: starts) a = refuseFirst refused error starts a := by
  rw [refuseFirst, refuseFirst, List.find?_cons_of_neg (by simp [hq])]

theorem refuseFirst_cons_of_refused {q : SequenceStart} (hq : refused q = true) (a : α) :
    refuseFirst refused error (q :: starts) a = .error (error q.length) := by
  rw [refuseFirst, List.find?_cons_of_pos hq]

theorem refuseFirst_eq_ok (h : ∀ q ∈ starts, refused q = false) (a : α) :
    refuseFirst refused error starts a = .ok a := by
  have hnone : starts.find? refused = none := List.find?_eq_none.mpr fun q hq => by simp [h q hq]
  rw [refuseFirst, hnone]

theorem refuseFirst_fails_iff (a : α) :
    (∃ e, refuseFirst refused error starts a = .error e) ↔ ∃ q ∈ starts, refused q = true := by
  rw [← List.find?_isSome, refuseFirst]
  cases starts.find? refused <;> simp

theorem refuseFirst_eq_error {before after : List SequenceStart} {q : SequenceStart}
    (hs : starts = before ++ q :: after) (hb : ∀ p ∈ before, refused p = false)
    (hq : refused q = true) (a : α) :
    refuseFirst refused error starts a = .error (error q.length) := by
  have hsome : starts.find? refused = some q :=
    List.find?_eq_some_iff_append.mpr ⟨hq, before, after, hs, fun p hp => by simp [hb p hp]⟩
  rw [refuseFirst, hsome]

end RefuseFirst

/-! ## Writing lengths -/

/-- The length stands in front of the sequence and does not fit. -/
def SequenceStart.overflows (q : SequenceStart) : Bool :=
  !q.counted && decide (2 ^ 32 ≤ q.length)

theorem SequenceStart.overflows_eq_true {q : SequenceStart} :
    q.overflows = true ↔ q.counted = false ∧ 2 ^ 32 ≤ q.length := by
  rw [overflows, Bool.and_eq_true, Bool.not_eq_true', decide_eq_true_iff]

theorem SequenceStart.overflows_eq_false {q : SequenceStart} : q.overflows = false ↔ q.Fits := by
  rw [← Bool.not_eq_true, overflows_eq_true, Fits, not_and, Nat.not_le]

/-- `write` comes to write the lengths of `starts`, and nothing but one of these can stop it. -/
def WritesLengths (write : Writer → Except WireError Writer) (starts : List SequenceStart) : Prop :=
  ∀ w, ∃ w', write w = refuseFirst SequenceStart.overflows .lengthOverflow starts w'

namespace WritesLengths

variable {write next : Writer → Except WireError Writer} {starts starts' : List SequenceStart}

theorem of_ok (h : ∀ w, ∃ w', write w = .ok w') : WritesLengths write [] :=
  h

theorem bind (h : WritesLengths write starts) (h' : WritesLengths next starts') :
    WritesLengths (fun w => write w >>= next) (starts ++ starts') := by
  intro w
  obtain ⟨w₁, hw₁⟩ := h w
  obtain ⟨w₂, hw₂⟩ := h' w₁
  refine ⟨w₂, ?_⟩
  show write w >>= next = _
  rw [hw₁, refuseFirst_bind hw₂]

/-- The length of a counted sequence is not written. -/
theorem counted (h : WritesLengths write starts) (n : Nat) :
    WritesLengths write (⟨true, n⟩ :: starts) := by
  intro w
  obtain ⟨w', hw'⟩ := h w
  refine ⟨w', ?_⟩
  rw [hw', refuseFirst_cons_of_not rfl]

end WritesLengths

theorem putLength_writesLengths (n : Nat) : WritesLengths (·.putLength n) [⟨false, n⟩] := by
  intro w
  show ∃ w', w.putLength n = _
  rw [Writer.putLength]
  by_cases hn : n < Nat.pow 2 32
  · refine ⟨w.putRaw (w.order.wordBytes 4 n), ?_⟩
    have hfits : (⟨false, n⟩ : SequenceStart).overflows = false :=
      SequenceStart.overflows_eq_false.mpr fun _ => hn
    rw [if_pos hn, refuseFirst_cons_of_not hfits]
    rfl
  · refine ⟨w, ?_⟩
    have hover : (⟨false, n⟩ : SequenceStart).overflows = true :=
      SequenceStart.overflows_eq_true.mpr ⟨rfl, Nat.not_lt.mp hn⟩
    rw [if_neg hn, refuseFirst_cons_of_refused hover]

/-! ## Codecs -/

/-- The encoder fails on a value only for the length of one of its sequences. -/
def Codec.WritesLengths (c : Codec) (typed : Value → Prop)
    (starts : Value → List SequenceStart) : Prop :=
  ∀ v, typed v → RecordWire.WritesLengths (c.encode v) (starts v)

theorem Codec.WritesLengths.all {c : Codec} {typed : Value → Prop}
    {starts : Value → List SequenceStart} (hc : c.WritesLengths typed starts) {items : List Value}
    (ht : ∀ v ∈ items, typed v) :
    RecordWire.WritesLengths (c.encodeAll items) (items.flatMap starts) := by
  induction items with
  | nil => exact .of_ok fun w => ⟨w, rfl⟩
  | cons v items ih =>
    rw [List.forall_mem_cons] at ht
    rw [List.flatMap_cons, funext (c.encodeAll_cons v items)]
    exact (hc v ht.1).bind (ih ht.2)

namespace Resolved

variable {s : Resolved}

theorem sequences_primitive (p : Primitive) (v : Value) : s.sequences (.primitive p) v = [] := by
  cases v <;> rfl

theorem sequences_foreign (name : String) (v : Value) : s.sequences (.foreign name) v = [] :=
  walk_foreign name v

theorem flatMap_sequences_primitive (p : Primitive) (items : List Value) :
    items.flatMap (s.sequences (.primitive p)) = [] :=
  List.flatMap_eq_nil_iff.mpr fun v _ => sequences_primitive p v

end Resolved

section Records

variable {s : Resolved} {values : String → Value → Prop} {codecs : Element → Codec}

theorem writeArray_writesLengths {e : Element}
    (hc : (codecs e).WritesLengths (s.Typed values e) (s.sequences e)) {items : List Value}
    (ht : ∀ v ∈ items, s.Typed values e v) :
    WritesLengths (fun w => e.writeArray codecs items w) (items.flatMap (s.sequences e)) := by
  cases e with
  | record name => exact hc.all ht
  | foreign name => exact hc.all ht
  | primitive p =>
    by_cases hb : p.isByte = true
    · rw [Resolved.flatMap_sequences_primitive]
      refine .of_ok fun w => ⟨w.putRaw (items.map Value.toByte), ?_⟩
      rw [Element.writeArray, if_pos hb]
    · simp only [Element.writeArray, if_neg hb]
      exact hc.all ht

theorem ResolvedField.write_writesLengths {f : ResolvedField} {previous : Option FieldKind}
    (hc : (codecs f.kind.element).WritesLengths (s.Typed values f.kind.element)
      (s.sequences f.kind.element))
    (hcount : f.kind.isSequence = true →
      f.countField.isSome = previous.any FieldKind.isPlainInteger)
    {v : Value} (hs : f.kind.HasShape v)
    (ht : ∀ u ∈ f.kind.parts v, s.Typed values f.kind.element u) :
    WritesLengths (f.write codecs v) (s.walkField .starts previous f.kind (f.ident, v)) := by
  show WritesLengths (fun w => f.write codecs v w) _
  simp only [ResolvedField.write]
  cases hk : f.kind with
  | single e =>
    rw [hk] at hc ht
    exact hc v (ht v (List.mem_singleton.mpr rfl))
  | array e n =>
    rw [hk] at hc hs ht
    obtain ⟨items, rfl, -⟩ := hs
    rw [Resolved.walkField, Resolved.walkItems_eq]
    exact writeArray_writesLengths hc ht
  | sequence e =>
    rw [hk] at hc hcount hs ht
    obtain ⟨items, rfl⟩ := hs
    have hall : WritesLengths ((codecs e).encodeAll items) (items.flatMap (s.sequences e)) :=
      hc.all ht
    simp only [hcount rfl, Value.items, Resolved.walkField, Resolved.walkItems_eq]
    by_cases hp : previous.any FieldKind.isPlainInteger = true
    · simp only [hp, if_true]
      exact hall.counted items.length
    · have hp' : previous.any FieldKind.isPlainInteger = false := by simpa using hp
      simp only [hp', Bool.false_eq_true, if_false]
      exact (putLength_writesLengths items.length).bind hall

theorem ResolvedRecord.Coherent.writeFields_writesLengths {r : ResolvedRecord} (hr : r.Coherent)
    {done fs : List ResolvedField} (hf : r.fields = done ++ fs)
    (hc : ∀ f ∈ fs, (codecs f.kind.element).WritesLengths (s.Typed values f.kind.element)
      (s.sequences f.kind.element))
    {fields : Fields} (hs : ∀ f ∈ fs, f.kind.HasShape (fields.get f.ident))
    (ht : ∀ f ∈ fs, ∀ v ∈ f.kind.parts (fields.get f.ident), s.Typed values f.kind.element v) :
    WritesLengths (writeFields codecs fields fs)
      (s.walkFields .starts (done.getLast?.map (·.kind)) (fs.map (·.kind))
        (fs.map fun f => (f.ident, fields.get f.ident))) := by
  induction fs generalizing done with
  | nil => exact .of_ok fun w => ⟨w, rfl⟩
  | cons f fs ih =>
    rw [List.forall_mem_cons] at hc hs ht
    have hfield := ResolvedField.write_writesLengths hc.1 (hr.isSome_countField hf) hs.1 ht.1
    have hsplit : r.fields = (done ++ [f]) ++ fs := by simp [hf]
    have hlast : (done ++ [f]).getLast?.map (·.kind) = some f.kind := by simp
    have hrest := ih hsplit hc.2 hs.2 ht.2
    rw [hlast] at hrest
    exact hfield.bind hrest

theorem ResolvedRecord.Coherent.writesLengths {r : ResolvedRecord} (hr : r.Coherent)
    (hd : (r.fields.map (·.ident)).Nodup) (hfound : s.getRecord? r.name = some r)
    (hc : ∀ f ∈ r.fields, (codecs f.kind.element).WritesLengths (s.Typed values f.kind.element)
      (s.sequences f.kind.element)) :
    (r.codec codecs).WritesLengths (s.Typed values (.record r.name))
      (s.sequences (.record r.name)) := by
  intro v hv
  obtain ⟨fields, rfl, ht⟩ := Resolved.typed_record hfound hv
  have hfields : (r.fields.map fun f => (f.ident, Fields.get fields f.ident)) = fields := by
    have h := Fields.map_get ht.names hd
    rwa [List.map_map] at h
  have h := hr.writeFields_writesLengths (List.nil_append r.fields).symm hc ht.shape ht.parts
  rw [hfields] at h
  rw [Resolved.sequences, Resolved.walk_record hfound, funext (encode_eq codecs fields r)]
  exact h

end Records

/-! ## Schemas -/

theorem Resolved.Sound.codec_writesLengths {s : Resolved} {outside : String → Codec}
    {values : String → Value → Prop} (hs : s.Sound)
    (hd : ∀ r ∈ s.records, (r.fields.map (·.ident)).Nodup)
    (ho : ∀ name ∈ s.foreignTypes, ∀ v, values name v → ∀ w, ∃ w', (outside name).encode v w = .ok w')
    {r : ResolvedRecord} (hr : r ∈ s.records) :
    ∃ c, s.codec? outside r.name = some c ∧
      c.WritesLengths (s.Typed values (.record r.name)) (s.sequences (.record r.name)) := by
  refine hs.codec_induction (P := fun e c => c.WritesLengths (s.Typed values e) (s.sequences e))
    (fun p v hv => ?_) (fun name hname v hv => ?_) (fun r hr codecs _ hfields => ?_) hr
  · cases hv with
    | primitive p bits => exact .of_ok fun w => ⟨w.putScalar p bits, rfl⟩
  · cases hv with
    | foreign h =>
      rw [sequences_foreign]
      exact .of_ok (ho name hname v h)
  · exact (hs.coherent r hr).writesLengths (hd r hr) (hs.getRecord?_eq_some.mpr ⟨hr, rfl⟩) hfields

/-- For every accepted schema and every value of a record, whatever its counts say, encoding fails
if and only if a sequence that stands behind its length has too many elements for 32 bits, at any
depth.  The error then has the length of the first such sequence on the wire. -/
theorem encode_fails_iff_overflow {schema : Schema} {s : Resolved} {outside : String → Codec}
    {values : String → Value → Prop} (built : schema.Built)
    (accepted : schema.resolve.result = .ok s)
    (distinct : ∀ r ∈ s.records, (r.fields.map (·.ident)).Nodup)
    (infallible : ∀ name ∈ s.foreignTypes, ∀ v, values name v →
      ∀ w, ∃ w', (outside name).encode v w = .ok w')
    {r : ResolvedRecord} (mem : r ∈ s.records) :
    ∃ c, s.codec? outside r.name = some c ∧
      ∀ v, s.Typed values (.record r.name) v → ∀ w,
        ((∃ e, c.encode v w = .error e) ↔
          ∃ q ∈ s.sequences (.record r.name) v, q.counted = false ∧ 2 ^ 32 ≤ q.length) ∧
        ∀ before q after, s.sequences (.record r.name) v = before ++ q :: after →
          (∀ p ∈ before, p.counted = false → p.length < 2 ^ 32) →
            q.counted = false → 2 ^ 32 ≤ q.length →
              c.encode v w = .error (.lengthOverflow q.length) := by
  obtain ⟨c, hc, hwrites⟩ := (built.sound accepted).codec_writesLengths distinct infallible mem
  refine ⟨c, hc, fun v hv w => ?_⟩
  obtain ⟨w', hw'⟩ := hwrites v hv w
  rw [hw', refuseFirst_fails_iff]
  simp only [SequenceStart.overflows_eq_true, true_and]
  intro before q after hsplit hfits hcounted hlength
  have hover : q.overflows = true := SequenceStart.overflows_eq_true.mpr ⟨hcounted, hlength⟩
  have hbefore : ∀ p ∈ before, p.overflows = false :=
    fun p hp => SequenceStart.overflows_eq_false.mpr (hfits p hp)
  exact refuseFirst_eq_error hsplit hbefore hover w'

namespace Sample

/-- A track that counts five fixes and has none, with `n` notes. -/
def noted (n : Nat) : Value :=
  .record [("n", .scalar .int8 5), ("fixes", .list []),
    ("notes", .list (List.replicate n (.zero .uint16)))]

theorem noted_typed (n : Nat) :
    resolved.Typed (fun _ => Timestamp.IsValue) (.record "Track") (noted n) := by
  refine .record getRecord?_track rfl ?_ ?_
  · refine List.forall_mem_cons.mpr ⟨trivial, forall_mem_pair.mpr ⟨⟨_, rfl⟩, _, rfl⟩⟩
  · refine List.forall_mem_cons.mpr ⟨?_, forall_mem_pair.mpr ⟨?_, ?_⟩⟩
    · exact List.forall_mem_singleton.mpr (.primitive .int8 5)
    · exact fun v hv => absurd hv List.not_mem_nil
    · intro v hv
      rw [List.eq_of_mem_replicate hv]
      exact .primitive .uint16 0

theorem sequences_noted (n : Nat) :
    resolved.sequences (.record "Track") (noted n) = [⟨true, 0⟩, ⟨false, n⟩] := by
  rw [Resolved.sequences, noted, Resolved.walk_record getRecord?_track]
  have hnotes : resolved.walkItems .starts (.primitive .uint16)
      (List.replicate n (.zero .uint16)) = [] := by
    rw [Resolved.walkItems_eq]
    exact Resolved.flatMap_sequences_primitive .uint16 _
  show [⟨true, 0⟩] ++ (⟨false, (List.replicate n (Value.zero .uint16)).length⟩ ::
    resolved.walkItems .starts (.primitive .uint16) (List.replicate n (.zero .uint16)) ++ []) = _
  rw [hnotes, List.length_replicate]
  rfl

end Sample

/-- One note more than 32 bits can count is refused, and one fewer is not.  The count of the fixes is
wrong in both. -/
theorem overlong_notes_refused :
    ∃ c, Sample.resolved.codec? Sample.outside "Track" = some c ∧
      ∀ w, c.encode (Sample.noted (2 ^ 32)) w = .error (.lengthOverflow (2 ^ 32)) ∧
        ¬ ∃ e, c.encode (Sample.noted (2 ^ 32 - 1)) w = .error e := by
  have mem : Sample.trackRecord ∈ Sample.resolved.records := by simp [Sample.records]
  have infallible : ∀ name ∈ Sample.resolved.foreignTypes, ∀ v, Timestamp.IsValue v →
      ∀ w, ∃ w', (Sample.outside name).encode v w = .ok w' :=
    fun _ _ v hv w => ⟨_, Timestamp.writes v w hv⟩
  obtain ⟨c, hc, h⟩ :=
    encode_fails_iff_overflow Sample.built Sample.accepted Sample.distinct infallible mem
  refine ⟨c, hc, fun w => ⟨?_, ?_⟩⟩
  · exact (h _ (Sample.noted_typed (2 ^ 32)) w).2 [⟨true, 0⟩] ⟨false, 2 ^ 32⟩ []
      (Sample.sequences_noted (2 ^ 32)) (by simp) rfl (Nat.le_refl _)
  · intro hfails
    obtain ⟨q, hq, hcounted, hlength⟩ := (h _ (Sample.noted_typed (2 ^ 32 - 1)) w).1.mp hfails
    have hq' : q ∈ [(⟨true, 0⟩ : SequenceStart), ⟨false, 2 ^ 32 - 1⟩] :=
      Sample.sequences_noted (2 ^ 32 - 1) ▸ hq
    rcases List.mem_pair.mp hq' with rfl | rfl
    · cases hcounted
    · exact absurd hlength (by decide)

end RecordWire
