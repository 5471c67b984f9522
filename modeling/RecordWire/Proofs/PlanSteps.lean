import RecordWire.Proofs.RecordReading

/-!
The steps that a plan decodes a record by, and what they need to know.  The two steps that size a
sequence differ only in where the length comes from.  A plan asks for the codecs of the elements of
its own record and of no other, so two ways to find a codec that agree on those give the record one
codec.
-/

namespace RecordWire

/-! ## The steps of a field -/

/-- The field that a step writes. -/
def EncodeStep.field : EncodeStep → String
  | writeValue field _ _ | writeBlock field | writeElements field _ _ | writeLengthPrefix field =>
    field

/-- The field that a step reads or sizes.  A routine is called by the count of its sequence. -/
def DecodeStep.field : DecodeStep → String
  | readValue field _ _ | readBlock field _ | readElements field _ _ | readLengthPrefix field _ =>
    field
  | allocate count _ _ => count

namespace ResolvedRecord

/-- The steps that the field `f` may be decoded by. -/
inductive DecodesBy (r : ResolvedRecord) (f : ResolvedField) : DecodeStep → Prop
  | value {e : Element} (access : Access) : f.kind = .single e →
    DecodesBy r f (.readValue f.ident e access)
  | block {p : Primitive} {n : Nat} : f.kind = .array (.primitive p) n →
    DecodesBy r f (.readBlock f.ident p)
  | items {e : Element} (access : Access) : f.kind.element = e → (∀ e, f.kind ≠ .single e) →
    DecodesBy r f (.readElements f.ident e access)
  | sizing {e : Element} : f.kind = .sequence e → DecodesBy r f (r.sizingStep f e)

variable {r : ResolvedRecord} {f : ResolvedField} {step : DecodeStep}

theorem decodesBy_of_mem (h : step ∈ r.decodeSteps f) : r.DecodesBy f step := by
  rw [decodeSteps] at h
  cases hk : f.kind with
  | single e =>
    simp only [hk, List.mem_singleton] at h
    rw [h]
    exact .value _ hk
  | array e n =>
    have hitems : ∀ access, r.DecodesBy f (.readElements f.ident e access) :=
      fun access => .items access (by rw [hk, FieldKind.element]) (by simp [hk])
    rw [hk] at h
    cases e with
    | primitive p =>
      dsimp only at h
      by_cases hb : p.isByte = true
      · rw [if_pos hb] at h
        rw [List.mem_singleton.mp h]
        exact .block hk
      · rw [if_neg hb] at h
        rw [List.mem_singleton.mp h]
        exact hitems _
    | record name =>
      rw [List.mem_singleton.mp h]
      exact hitems _
    | foreign name =>
      rw [List.mem_singleton.mp h]
      exact hitems _
  | sequence e =>
    simp only [hk] at h
    rcases List.mem_pair.mp h with rfl | rfl
    · exact .sizing hk
    · exact .items _ (by rw [hk, FieldKind.element]) (by simp [hk])

theorem decodesBy_of_mem_plan (h : step ∈ r.plan.decode) : ∃ f ∈ r.fields, r.DecodesBy f step := by
  obtain ⟨f, hf, hstep⟩ := List.mem_flatMap.mp h
  exact ⟨f, hf, decodesBy_of_mem hstep⟩

theorem sizingStep_cases (r : ResolvedRecord) (f : ResolvedField) (e : Element) :
    (∃ count routine, r.sizingStep f e = .allocate count routine e) ∨
      r.sizingStep f e = .readLengthPrefix f.ident e := by
  rw [sizingStep]
  split
  · exact .inl ⟨_, _, rfl⟩
  · exact .inr rfl

theorem DecodesBy.readValue {ident : String} {e : Element} {access : Access}
    (h : r.DecodesBy f (.readValue ident e access)) : ident = f.ident ∧ f.kind = .single e := by
  generalize hstep : DecodeStep.readValue ident e access = step at h
  cases h with
  | value access hk =>
    cases hstep
    exact ⟨rfl, hk⟩
  | block hk => cases hstep
  | items access he hk => cases hstep
  | @sizing e' hk => rcases r.sizingStep_cases f e' with ⟨_, _, h⟩ | h <;> simp [h] at hstep

theorem DecodesBy.readElements {ident : String} {e : Element} {access : Access}
    (h : r.DecodesBy f (.readElements ident e access)) :
    ident = f.ident ∧ f.kind.element = e ∧ ∀ e, f.kind ≠ .single e := by
  generalize hstep : DecodeStep.readElements ident e access = step at h
  cases h with
  | value access hk => cases hstep
  | block hk => cases hstep
  | items access he hk =>
    cases hstep
    exact ⟨rfl, he, hk⟩
  | @sizing e' hk => rcases r.sizingStep_cases f e' with ⟨_, _, h⟩ | h <;> simp [h] at hstep

theorem element_of_mem_allocators {a : Allocator} (h : a ∈ r.layout.allocators) :
    ∃ f ∈ r.fields, a.element = f.kind.element := by
  obtain ⟨f, hf, ha⟩ := List.mem_filterMap.mp h
  simp only [allocator?, Option.bind_eq_some_iff, Option.map_eq_some_iff] at ha
  obtain ⟨i, -, count, -, routine, -, rfl⟩ := ha
  exact ⟨f, hf, rfl⟩

end ResolvedRecord

/-- What every step of a run keeps, whether it fails or not, the run keeps. -/
theorem runDecode_invariant {codecs : Element → Codec} {allocators : List Allocator}
    {steps : List DecodeStep} {P : Fields → Reader → Prop}
    (h : ∀ step ∈ steps, ∀ fields reader, P fields reader →
      P (step.run codecs allocators fields reader).value
        (step.run codecs allocators fields reader).reader)
    {fields : Fields} {reader : Reader} (hP : P fields reader) :
    P (runDecode codecs allocators steps fields reader).value
      (runDecode codecs allocators steps fields reader).reader := by
  induction steps generalizing fields reader with
  | nil => exact hP
  | cons step steps ih =>
    rw [List.forall_mem_cons] at h
    have hstep := h.1 fields reader hP
    rw [runDecode, Decoded.andThen]
    cases (step.run codecs allocators fields reader).error with
    | some e => exact hstep
    | none => exact ih h.2 hstep

/-! ## Sizing a sequence -/

/-- The length that a sequence asks for: what its count says, or the word in front of it. -/
def ResolvedRecord.askedLength (r : ResolvedRecord) (f : ResolvedField) (fields : Fields) :
    Attempt Nat := fun reader =>
  match f.countField.bind (r.fields[·]?) with
  | some count => (.ok (fields.get count.ident).sequenceLength, reader)
  | none =>
    match reader.getRaw 4 with
    | (.ok bytes, reader') => (.ok (reader.order.ofWordBytes bytes), reader')
    | (.error e, reader') => (.error e, reader')

/-- Either way of sizing a sequence finds the length first, checks it, and only then resizes. -/
theorem ResolvedRecord.Coherent.run_sizingStep {r : ResolvedRecord} (hr : r.Coherent)
    {f : ResolvedField} (hf : f ∈ r.fields) {e : Element} (hk : f.kind = .sequence e)
    (codecs : Element → Codec) (fields : Fields) (reader : Reader) :
    (r.sizingStep f e).run codecs r.layout.allocators fields reader =
      match r.askedLength f fields reader with
      | (.error e, reader') => { value := fields, reader := reader', error := some e }
      | (.ok n, reader') =>
        match reader'.checkSequence (codecs e).minSize n with
        | .error e => { value := fields, reader := reader', error := some e }
        | .ok _ =>
          { value := fields.resize f.ident n (codecs e).initial
            reader := reader'
            resizes := [⟨n, (codecs e).minSize, reader'.remaining⟩] } := by
  rw [sizingStep, askedLength]
  cases hc : f.countField.bind (r.fields[·]?) with
  | some count =>
    obtain ⟨i, hi, hcount⟩ := Option.bind_eq_some_iff.mp hc
    have hroutine : runRoutine codecs r.layout.allocators ("allocate_" ++ f.snakeName) fields =
        fields.resize f.ident (fields.get count.ident).sequenceLength (codecs e).initial := by
      rw [hr.runRoutine_eq hf hi hcount, hk, FieldKind.element]
    simp only [ResolvedField.allocator?, hi, Option.map_some, DecodeStep.run, hroutine]
    cases reader.checkSequence (codecs e).minSize (fields.get count.ident).sequenceLength <;> rfl
  | none =>
    simp only [DecodeStep.run, Reader.getLength]
    rcases reader.getRaw 4 with ⟨_ | bytes, reader'⟩
    · rfl
    · -- The limit is checked as soon as the length is read, and once more with the rest.
      simp only [Reader.checkLength]
      by_cases hlimit : reader'.limit < reader.order.ofWordBytes bytes
      · simp only [Reader.checkSequence, Reader.checkLength, if_pos hlimit]
      · simp only [if_neg hlimit]
        cases reader'.checkSequence (codecs e).minSize (reader.order.ofWordBytes bytes) <;> rfl

/-! ## The codecs that a plan asks for -/

namespace WireSize

variable {s : WireSize} {term : Nat × Element}

theorem mem_terms_addElement {n : Nat} {e : Element} (h : term ∈ (s.addElement n e).terms) :
    term ∈ s.terms ∨ term.2 = e := by
  cases e with
  | primitive p => exact .inl h
  | record name =>
    apply (List.mem_append.mp h).imp_right
    intro h
    rw [List.mem_singleton.mp h]
  | foreign name =>
    apply (List.mem_append.mp h).imp_right
    intro h
    rw [List.mem_singleton.mp h]

theorem mem_terms_addField {f : ResolvedField} (h : term ∈ (s.addField f).terms) :
    term ∈ s.terms ∨ term.2 = f.kind.element := by
  rw [addField] at h
  cases hk : f.kind with
  | single e =>
    rw [hk] at h
    exact mem_terms_addElement h
  | array e n =>
    rw [hk] at h
    exact mem_terms_addElement h
  | sequence e =>
    rw [hk] at h
    by_cases hc : f.countField.isSome = true
    · exact .inl (by simpa [hc] using h)
    · exact .inl (by simpa [hc, addFixed] using h)

theorem mem_terms_foldl {fs : List ResolvedField} (h : term ∈ (fs.foldl addField s).terms) :
    term ∈ s.terms ∨ ∃ f ∈ fs, term.2 = f.kind.element := by
  induction fs generalizing s with
  | nil => exact .inl h
  | cons f fs ih =>
    rcases ih h with h | ⟨g, hg, hterm⟩
    · apply (mem_terms_addField h).imp_right
      intro hterm
      exact ⟨f, List.mem_cons_self .., hterm⟩
    · exact .inr ⟨g, List.mem_cons_of_mem _ hg, hterm⟩

end WireSize

section Congruence

variable {codecs codecs' : Element → Codec}

theorem FieldKind.initial_congr {kind : FieldKind}
    (h : codecs kind.element = codecs' kind.element) :
    kind.initial codecs = kind.initial codecs' := by
  cases kind with
  | single e => exact congrArg Codec.initial h
  | array e n => exact congrArg (fun c : Codec => Value.list (List.replicate n c.initial)) h
  | sequence e => rfl

theorem ResolvedField.write_congr {f : ResolvedField}
    (h : codecs f.kind.element = codecs' f.kind.element) (v : Value) (w : Writer) :
    f.write codecs v w = f.write codecs' v w := by
  rw [write, write]
  cases hk : f.kind with
  | single e =>
    rw [hk, FieldKind.element] at h
    simp only [h]
  | array e n =>
    rw [hk, FieldKind.element] at h
    cases e <;> simp only [Element.writeArray, h]
  | sequence e =>
    rw [hk, FieldKind.element] at h
    simp only [h]

theorem writeFields_congr {fields : Fields} {fs : List ResolvedField}
    (h : ∀ f ∈ fs, codecs f.kind.element = codecs' f.kind.element) (w : Writer) :
    writeFields codecs fields fs w = writeFields codecs' fields fs w := by
  induction fs generalizing w with
  | nil => rfl
  | cons f fs ih =>
    rw [List.forall_mem_cons] at h
    rw [writeFields, writeFields, ResolvedField.write_congr h.1]
    exact congrArg _ (funext (ih h.2))

theorem runRoutine_congr {allocators : List Allocator}
    (h : ∀ a ∈ allocators, codecs a.element = codecs' a.element) (routine : String)
    (fields : Fields) :
    runRoutine codecs allocators routine fields = runRoutine codecs' allocators routine fields := by
  rw [runRoutine, runRoutine]
  cases hfind : allocators.find? (·.routine == routine) with
  | none => rfl
  | some a => simp only [Allocator.run, h a (List.mem_of_find?_eq_some hfind)]

theorem runDecode_congr {allocators : List Allocator} {steps : List DecodeStep}
    (h : ∀ step ∈ steps, ∀ fields r,
      step.run codecs allocators fields r = step.run codecs' allocators fields r)
    (fields : Fields) (r : Reader) :
    runDecode codecs allocators steps fields r = runDecode codecs' allocators steps fields r := by
  induction steps generalizing fields r with
  | nil => rfl
  | cons step steps ih =>
    rw [List.forall_mem_cons] at h
    rw [runDecode, runDecode, h.1 fields r]
    exact congrArg _ (funext fun fields => funext fun r => ih h.2 fields r)

namespace ResolvedRecord

variable {r : ResolvedRecord}

theorem DecodesBy.run_congr {f : ResolvedField} {step : DecodeStep} {allocators : List Allocator}
    (hstep : r.DecodesBy f step) (h : codecs f.kind.element = codecs' f.kind.element)
    (ha : ∀ a ∈ allocators, codecs a.element = codecs' a.element) (fields : Fields)
    (reader : Reader) :
    step.run codecs allocators fields reader = step.run codecs' allocators fields reader := by
  cases hstep with
  | value access hk =>
    rw [hk, FieldKind.element] at h
    cases access <;> simp only [DecodeStep.run, h]
  | block hk => rfl
  | items access he hk =>
    rw [he] at h
    cases access <;> simp only [DecodeStep.run, h]
  | sizing hk =>
    rw [hk, FieldKind.element] at h
    rw [sizingStep]
    split <;> simp only [DecodeStep.run, h, runRoutine_congr ha]

theorem minSize_congr
    (h : ∀ f ∈ r.fields, (codecs f.kind.element).minSize = (codecs' f.kind.element).minSize) :
    (r.codec codecs).minSize = (r.codec codecs').minSize := by
  apply List.foldl_ext
  intro total term hterm
  rcases WireSize.mem_terms_foldl hterm with hterm | ⟨f, hf, he⟩
  · cases hterm
  · simp only [he, h f hf]

/-- Only the codecs of its own elements make a difference to a record. -/
theorem codec_congr (h : ∀ f ∈ r.fields, codecs f.kind.element = codecs' f.kind.element) :
    r.codec codecs = r.codec codecs' := by
  have hsize : r.plan.minSize.resolve codecs = r.plan.minSize.resolve codecs' :=
    minSize_congr fun f hf => congrArg Codec.minSize (h f hf)
  have hinitial : ∀ slot ∈ r.layout.slots,
      (slot.ident, slot.kind.initial codecs) = (slot.ident, slot.kind.initial codecs') := by
    intro slot hslot
    obtain ⟨f, hf, rfl⟩ := List.mem_map.mp hslot
    rw [FieldKind.initial_congr (h f hf)]
  have hencode : ∀ v w,
      runEncode codecs v r.plan.encode w = runEncode codecs' v r.plan.encode w := by
    intro v w
    rw [plan, runEncode_flatMap, runEncode_flatMap, writeFields_congr h]
  have hdecode : ∀ v reader, runDecode codecs r.layout.allocators r.plan.decode v reader =
      runDecode codecs' r.layout.allocators r.plan.decode v reader := by
    intro v reader
    apply runDecode_congr
    intro step hstep
    obtain ⟨f, hf, hf'⟩ := decodesBy_of_mem_plan hstep
    apply hf'.run_congr (h f hf)
    intro a ha
    obtain ⟨g, hg, he⟩ := element_of_mem_allocators ha
    rw [he, h g hg]
  simp only [codec, hsize, List.map_congr_left hinitial, hencode, hdecode]

end ResolvedRecord
end Congruence
end RecordWire
