import Mathlib.Data.List.Forall2
import RecordWire.Proofs.Lookup
import RecordWire.Proofs.Reading

/-!
The codec of a record walks over the fields in declared order.  `attemptFields` and `writeFields`
are the two walks, with no plan, no allocate routine and no lookup of a field by name between them
and the wire.  The steps of the plan come to the same, as long as the fields have distinct names.
`readFields` is the first walk without the place of failure.
-/

namespace RecordWire

/-! ## Fields by name -/

namespace Fields

variable {before after : Fields} {ident : String}

theorem get_of_mem {fields : Fields} (hd : (fields.map Prod.fst).Nodup) {v : Value}
    (h : (ident, v) ∈ fields) : fields.get ident = v := by
  rw [get, (lookup_eq_some_iff_mem hd).mpr h, Option.getD_some]

/-- A record value is put together again from its fields. -/
theorem map_get {fields : Fields} {idents : List String} (hn : fields.map Prod.fst = idents)
    (hd : idents.Nodup) : idents.map (fun ident => (ident, fields.get ident)) = fields := by
  subst hn
  rw [List.map_map]
  refine (List.map_congr_left fun entry hentry => ?_).trans (List.map_id fields)
  exact Prod.ext rfl (get_of_mem hd hentry)

theorem get_middle (h : ident ∉ before.map Prod.fst) (v : Value) :
    Fields.get (before ++ (ident, v) :: after) ident = v := by
  induction before with
  | nil => simp [get]
  | cons entry before ih =>
    obtain ⟨name, u⟩ := entry
    simp only [List.map_cons, List.mem_cons, not_or] at h
    have hne : (ident == name) = false := beq_eq_false_iff_ne.mpr h.1
    have ih' := ih h.2
    simp only [get] at ih' ⊢
    rw [List.cons_append, List.lookup_cons, hne]
    exact ih'

theorem set_middle (h : ident ∉ before.map Prod.fst) (old v : Value) :
    Fields.set ident v (before ++ (ident, old) :: after) = before ++ (ident, v) :: after := by
  induction before with
  | nil => simp [set]
  | cons entry before ih =>
    obtain ⟨name, u⟩ := entry
    simp only [List.map_cons, List.mem_cons, not_or] at h
    rw [List.cons_append, set, if_neg (Ne.symm h.1), ih h.2, List.cons_append]

end Fields

theorem length_resizeTo (n : Nat) (filler : Value) (items : List Value) :
    (resizeTo n filler items).length = n := by
  simp only [resizeTo, List.length_append, List.length_take, List.length_replicate]
  omega

theorem mem_resizeTo {n : Nat} {filler v : Value} {items : List Value}
    (h : v ∈ resizeTo n filler items) : v ∈ items ∨ v = filler := by
  rcases List.mem_append.mp h with h | h
  · exact .inl (List.mem_of_mem_take h)
  · exact .inr (List.eq_of_mem_replicate h)

/-! ## The walks -/

section Walks

variable (codecs : Element → Codec)

/-- Reads the elements of a fixed array, bytes as one block. -/
def Element.attemptArray (n : Nat) : Element → Attempt (List Value)
  | .primitive p =>
    if p.isByte then List.map (Value.ofByte p) <$> Attempt.raw n
    else (codecs (.primitive p)).attemptEach n
  | e => (codecs e).attemptEach n

/-- Reads a field.  `before` is the value of the field right before it. -/
def ResolvedField.attempt (before : Value) (f : ResolvedField) : Attempt Value :=
  match f.kind with
  | .single e => (codecs e).attempt
  | .array e n => Value.list <$> e.attemptArray codecs n
  | .sequence e => do
    let n ← (if f.countField.isSome then pure before.sequenceLength else Attempt.length)
    Attempt.check (codecs e).minSize n
    Value.list <$> (codecs e).attemptEach n

def attemptFields : Value → List ResolvedField → Attempt Fields
  | _, [] => pure []
  | before, f :: rest => do
    let v ← f.attempt codecs before
    let fields ← attemptFields v rest
    pure ((f.ident, v) :: fields)

def Element.readArray (n : Nat) : Element → Reading (List Value)
  | .primitive p =>
    if p.isByte then List.map (Value.ofByte p) <$> Reading.raw n
    else (codecs (.primitive p)).readEach n
  | e => (codecs e).readEach n

def ResolvedField.read (before : Value) (f : ResolvedField) : Reading Value :=
  match f.kind with
  | .single e => (codecs e).read
  | .array e n => Value.list <$> e.readArray codecs n
  | .sequence e => do
    let n ← (if f.countField.isSome then pure before.sequenceLength else Reading.length)
    Reading.check (codecs e).minSize n
    Value.list <$> (codecs e).readEach n

def readFields : Value → List ResolvedField → Reading Fields
  | _, [] => pure []
  | before, f :: rest => do
    let v ← f.read codecs before
    let fields ← readFields v rest
    pure ((f.ident, v) :: fields)

theorem Element.ofRead_attemptArray (n : Nat) (e : Element) :
    Reading.ofRead (e.attemptArray codecs n) = e.readArray codecs n := by
  cases e with
  | record name => exact Codec.ofRead_attemptEach ..
  | foreign name => exact Codec.ofRead_attemptEach ..
  | primitive p =>
    rw [attemptArray, readArray]
    by_cases hb : p.isByte = true
    · rw [if_pos hb, if_pos hb, Reading.ofRead_map]
      rfl
    · rw [if_neg hb, if_neg hb]
      exact Codec.ofRead_attemptEach ..

theorem ResolvedField.ofRead_attempt (before : Value) (f : ResolvedField) :
    Reading.ofRead (f.attempt codecs before) = f.read codecs before := by
  rw [attempt, read]
  cases f.kind with
  | single e => exact Codec.ofRead_attempt _
  | array e n => simp only [Reading.ofRead_map, Element.ofRead_attemptArray]
  | sequence e =>
    simp only [Reading.ofRead_bind, Reading.ofRead_check, Reading.ofRead_map,
      Codec.ofRead_attemptEach]
    by_cases hc : f.countField.isSome = true
    · rw [if_pos hc, if_pos hc, Reading.ofRead_pure]
    · rw [if_neg hc, if_neg hc]
      rfl

theorem ofRead_attemptFields (before : Value) (fs : List ResolvedField) :
    Reading.ofRead (attemptFields codecs before fs) = readFields codecs before fs := by
  induction fs generalizing before with
  | nil => rfl
  | cons f fs ih => simp only [attemptFields, readFields, Reading.ofRead_bind,
      ResolvedField.ofRead_attempt, ih, Reading.ofRead_pure]

def Element.writeArray (items : List Value) (w : Writer) : Element → Except WireError Writer
  | .primitive p =>
    if p.isByte then .ok (w.putRaw (items.map Value.toByte))
    else (codecs (.primitive p)).encodeAll items w
  | e => (codecs e).encodeAll items w

def ResolvedField.write (f : ResolvedField) (v : Value) (w : Writer) : Except WireError Writer :=
  match f.kind with
  | .single e => (codecs e).encode v w
  | .array e _ => e.writeArray codecs v.items w
  | .sequence e =>
    if f.countField.isSome then (codecs e).encodeAll v.items w
    else w.putLength v.items.length >>= (codecs e).encodeAll v.items

def writeFields (fields : Fields) : List ResolvedField → Writer → Except WireError Writer
  | [], w => .ok w
  | f :: rest, w => f.write codecs (fields.get f.ident) w >>= writeFields fields rest

end Walks

/-! ## Encoding -/

theorem Writer.putRaw_nil (w : Writer) : w.putRaw [] = w := by
  rw [putRaw, List.append_nil]

theorem Writer.putRaw_putRaw (w : Writer) (bytes bytes' : List UInt8) :
    (w.putRaw bytes).putRaw bytes' = w.putRaw (bytes ++ bytes') := by
  simp [putRaw]

theorem Codec.encodeAll_cons (c : Codec) (v : Value) (items : List Value) (w : Writer) :
    c.encodeAll (v :: items) w = c.encode v w >>= c.encodeAll items := by
  rw [encodeAll]
  cases c.encode v w <;> rfl

section Encoding

variable (codecs : Element → Codec) (fields : Fields)

theorem runEncode_cons (step : EncodeStep) (rest : List EncodeStep) (w : Writer) :
    runEncode codecs fields (step :: rest) w =
      step.run codecs fields w >>= runEncode codecs fields rest := by
  rw [runEncode]
  cases step.run codecs fields w <;> rfl

theorem runEncode_append (steps rest : List EncodeStep) (w : Writer) :
    runEncode codecs fields (steps ++ rest) w =
      runEncode codecs fields steps w >>= runEncode codecs fields rest := by
  induction steps generalizing w with
  | nil => rfl
  | cons step steps ih =>
    rw [List.cons_append, runEncode_cons, runEncode_cons, bind_assoc]
    exact congrArg _ (funext ih)

theorem runEncode_singleton (step : EncodeStep) (w : Writer) :
    runEncode codecs fields [step] w = step.run codecs fields w := by
  rw [runEncode]
  cases step.run codecs fields w <;> rfl

theorem runEncode_encodeSteps (r : ResolvedRecord) (f : ResolvedField) (w : Writer) :
    runEncode codecs fields (r.encodeSteps f) w = f.write codecs (fields.get f.ident) w := by
  rw [ResolvedRecord.encodeSteps, ResolvedField.write]
  cases f.kind with
  | single e => exact runEncode_singleton ..
  | array e n =>
    cases e with
    | primitive p => by_cases hp : p.isByte = true <;>
        simp [hp, runEncode_singleton, EncodeStep.run, Element.writeArray]
    | record name => exact runEncode_singleton ..
    | foreign name => exact runEncode_singleton ..
  | sequence e =>
    by_cases hc : f.countField.isSome = true
    · simp [hc, runEncode_singleton, EncodeStep.run]
    · simp only [hc]
      rw [if_neg Bool.false_ne_true, if_neg Bool.false_ne_true, runEncode_cons]
      exact congrArg _ (funext fun w => runEncode_singleton ..)

theorem runEncode_flatMap (r : ResolvedRecord) (fs : List ResolvedField) (w : Writer) :
    runEncode codecs fields (fs.flatMap r.encodeSteps) w = writeFields codecs fields fs w := by
  induction fs generalizing w with
  | nil => rfl
  | cons f fs ih =>
    rw [List.flatMap_cons, runEncode_append, runEncode_encodeSteps, writeFields]
    exact congrArg _ (funext ih)

theorem ResolvedRecord.encode_eq (r : ResolvedRecord) (w : Writer) :
    (r.codec codecs).encode (.record fields) w = writeFields codecs fields r.fields w :=
  runEncode_flatMap codecs fields r r.fields w

end Encoding

/-! ## Decoding -/

/-- The steps of a plan as an attempt. -/
def attemptSteps (codecs : Element → Codec) (allocators : List Allocator) (steps : List DecodeStep)
    (fields : Fields) : Attempt Fields := fun r =>
  (runDecode codecs allocators steps fields r).outcome

section Steps

variable (codecs : Element → Codec) (allocators : List Allocator)

theorem attemptSteps_nil (fields : Fields) :
    attemptSteps codecs allocators [] fields = pure fields := rfl

theorem attemptSteps_cons (step : DecodeStep) (rest : List DecodeStep) (fields : Fields) :
    attemptSteps codecs allocators (step :: rest) fields =
      attemptSteps codecs allocators [step] fields >>= attemptSteps codecs allocators rest := by
  funext r
  rw [Attempt.bind_apply]
  simp only [attemptSteps, runDecode, Decoded.outcome_andThen]
  rcases (step.run codecs allocators fields r).outcome with ⟨_ | fields', r'⟩ <;> rfl

theorem attemptSteps_append (steps rest : List DecodeStep) (fields : Fields) :
    attemptSteps codecs allocators (steps ++ rest) fields =
      attemptSteps codecs allocators steps fields >>= attemptSteps codecs allocators rest := by
  induction steps generalizing fields with
  | nil => rw [List.nil_append, attemptSteps_nil, pure_bind]
  | cons step steps ih =>
    rw [List.cons_append, attemptSteps_cons, attemptSteps_cons codecs allocators step steps,
      bind_assoc]
    exact congrArg _ (funext ih)

theorem attemptSteps_singleton (step : DecodeStep) (fields : Fields) (r : Reader) :
    attemptSteps codecs allocators [step] fields r =
      (step.run codecs allocators fields r).outcome := by
  simp only [attemptSteps, runDecode, Decoded.outcome_andThen]
  rcases (step.run codecs allocators fields r).outcome with ⟨_ | fields', r'⟩ <;> rfl

variable {codecs allocators} {before after : Fields} {ident : String} {old : Value}

theorem attemptSteps_readValue (hi : ident ∉ before.map Prod.fst) {e : Element}
    (ho : (codecs e).Overwrites old) (access : Access) :
    attemptSteps codecs allocators [.readValue ident e access] (before ++ (ident, old) :: after) =
      (fun v => before ++ (ident, v) :: after) <$> (codecs e).attempt := by
  funext r
  rw [attemptSteps_singleton, Attempt.map_apply]
  cases access with
  | reference =>
    rw [DecodeStep.run, Decoded.outcome_map, Fields.get_middle hi, ho r]
    simp only [Fields.set_middle hi]
    rfl
  | copy =>
    rw [DecodeStep.run, Decoded.outcome_orKeep, Decoded.outcome_map]
    simp only [Fields.set_middle hi]
    rfl

theorem attemptSteps_readElements (hi : ident ∉ before.map Prod.fst) {e : Element}
    (ho : ∀ v ∈ old.items, (codecs e).Overwrites v) (access : Access) :
    attemptSteps codecs allocators [.readElements ident e access]
        (before ++ (ident, old) :: after) =
      (fun vs => before ++ (ident, .list vs) :: after) <$>
        (codecs e).attemptEach old.items.length := by
  funext r
  rw [attemptSteps_singleton, Attempt.map_apply]
  cases access with
  | reference =>
    rw [DecodeStep.run, Decoded.outcome_map, Fields.get_middle hi, Codec.decodeEach_outcome _ ho]
    simp only [Fields.set_middle hi]
    rfl
  | copy =>
    rw [DecodeStep.run, Decoded.outcome_orKeep, Decoded.outcome_map, Fields.get_middle hi,
      Codec.decodeEach_outcome _ ho]
    simp only [Fields.set_middle hi]
    rfl

theorem attemptSteps_readBlock (hi : ident ∉ before.map Prod.fst) (p : Primitive) :
    attemptSteps codecs allocators [.readBlock ident p] (before ++ (ident, old) :: after) =
      (fun bytes => before ++ (ident, .list (bytes.map (Value.ofByte p))) :: after) <$>
        Attempt.raw old.items.length := by
  funext r
  rw [attemptSteps_singleton, Attempt.map_apply, DecodeStep.run, Fields.get_middle hi, Attempt.raw]
  simp only [Fields.set_middle hi]
  rcases r.getRaw old.items.length with ⟨_ | bytes, r'⟩ <;> rfl

theorem attemptSteps_readLengthPrefix (hi : ident ∉ before.map Prod.fst) (e : Element) :
    attemptSteps codecs allocators [.readLengthPrefix ident e] (before ++ (ident, old) :: after) =
      (do
        let n ← Attempt.length
        Attempt.check (codecs e).minSize n
        pure (before ++ (ident, .list (resizeTo n (codecs e).initial old.items)) :: after)) := by
  funext r
  rw [attemptSteps_singleton, Attempt.bind_apply, DecodeStep.run, Attempt.length]
  simp only [Fields.resize, Fields.get_middle hi, Fields.set_middle hi]
  rcases r.getLength with ⟨_ | n, r'⟩
  · rfl
  · simp only [Attempt.bind_apply, Attempt.check]
    cases r'.checkSequence (codecs e).minSize n <;> rfl

theorem attemptSteps_allocate {count routine : String} {e : Element} {fields fields' : Fields}
    {n : Nat} (hn : (fields.get count).sequenceLength = n)
    (hr : runRoutine codecs allocators routine fields = fields') :
    attemptSteps codecs allocators [.allocate count routine e] fields =
      (do
        Attempt.check (codecs e).minSize n
        pure fields') := by
  funext r
  rw [attemptSteps_singleton, Attempt.bind_apply, DecodeStep.run, hn, hr, Attempt.check]
  cases r.checkSequence (codecs e).minSize n <;> rfl

/-- A sequence that was given `n` elements is read as `n` new ones. -/
theorem attemptSteps_resized (hi : ident ∉ before.map Prod.fst) {e : Element}
    (ho : ∀ v ∈ old.items, (codecs e).Overwrites v) (n : Nat) (access : Access) :
    attemptSteps codecs allocators [.readElements ident e access]
        (before ++ (ident, .list (resizeTo n (codecs e).initial old.items)) :: after) =
      (fun vs => before ++ (ident, .list vs) :: after) <$> (codecs e).attemptEach n := by
  have hitems : ∀ v ∈ (Value.list (resizeTo n (codecs e).initial old.items)).items,
      (codecs e).Overwrites v := by
    intro v hv
    rcases mem_resizeTo hv with hv | rfl
    · exact ho v hv
    · exact (codecs e).overwrites_initial
  rw [attemptSteps_readElements hi hitems, Value.items, length_resizeTo]

end Steps

/-! ## Records -/

/-- What resolving a record guarantees: no two routines share a name, and a counted sequence is
counted by the field right before it. -/
structure ResolvedRecord.Coherent (r : ResolvedRecord) : Prop where
  nodup_snakeNames : (r.fields.map (·.snakeName)).Nodup
  countField_eq : ∀ done f rest, r.fields = done ++ f :: rest →
    f.countField = countPosition (done.getLast?.map (·.kind)) done.length f.kind

/-- Decoding into `old` does not depend on what it holds. -/
def FieldKind.Overwrites (codecs : Element → Codec) (old : Value) : FieldKind → Prop
  | single e => (codecs e).Overwrites old
  | array e n => old.items.length = n ∧ ∀ v ∈ old.items, (codecs e).Overwrites v
  | sequence e => ∀ v ∈ old.items, (codecs e).Overwrites v

theorem FieldKind.overwrites_initial (codecs : Element → Codec) (kind : FieldKind) :
    kind.Overwrites codecs (kind.initial codecs) := by
  cases kind with
  | single e => exact (codecs e).overwrites_initial
  | array e n =>
    refine ⟨List.length_replicate, fun v hv => ?_⟩
    rw [List.eq_of_mem_replicate hv]
    exact (codecs e).overwrites_initial
  | sequence e => simp [Overwrites, initial, Value.items]

namespace ResolvedRecord

variable {r : ResolvedRecord} {done rest : List ResolvedField} {f : ResolvedField}

theorem Coherent.counted (hr : r.Coherent) (hf : r.fields = done ++ f :: rest) {i : Nat}
    (hi : f.countField = some i) : ∃ first count, done = first ++ [count] ∧ i = first.length := by
  rw [hr.countField_eq done f rest hf, countPosition] at hi
  rcases List.eq_nil_or_concat done with rfl | ⟨first, count, rfl⟩
  · simp at hi
  · refine ⟨first, count, List.concat_eq_append .., ?_⟩
    split at hi
    · simpa using (Option.some.inj hi).symm
    · cases hi

theorem routine_of_allocator? {a : Allocator} (h : r.allocator? f = some a) :
    a.routine = "allocate_" ++ f.snakeName := by
  simp only [allocator?, ResolvedField.allocator?, Option.bind_eq_some_iff,
    Option.map_eq_some_iff] at h
  obtain ⟨i, -, count, -, routine, ⟨-, -, rfl⟩, rfl⟩ := h
  rfl

/-- The routine of a counted sequence is found by its name. -/
theorem Coherent.find_routine (hr : r.Coherent) {count : ResolvedField} {i : Nat}
    (hf : f ∈ r.fields) (hi : f.countField = some i) (hc : r.fields[i]? = some count) :
    r.layout.allocators.find? (·.routine == "allocate_" ++ f.snakeName) =
      some ⟨"allocate_" ++ f.snakeName, f.ident, count.ident, f.kind.element⟩ := by
  have hf' : r.allocator? f =
      some ⟨"allocate_" ++ f.snakeName, f.ident, count.ident, f.kind.element⟩ := by
    simp [allocator?, ResolvedField.allocator?, hi, hc]
  obtain ⟨first, last, hsplit⟩ := List.append_of_mem hf
  have hfind : r.fields.find?
      (fun g => (r.allocator? g).any (·.routine == "allocate_" ++ f.snakeName)) = some f := by
    rw [List.find?_eq_some_iff_append]
    refine ⟨by simp [hf'], first, last, hsplit, fun g hg => ?_⟩
    -- An earlier field with that routine would have the same snake case.
    have hne : g.snakeName ≠ f.snakeName := by
      have hd := hr.nodup_snakeNames
      rw [hsplit, List.map_append, List.map_cons, List.nodup_append] at hd
      exact hd.2.2 _ (List.mem_map_of_mem hg) _ (List.mem_cons_self ..)
    have hname : ("allocate_" ++ g.snakeName == "allocate_" ++ f.snakeName) = false := by
      simpa using hne
    cases ha : r.allocator? g with
    | none => rfl
    | some a => simp [routine_of_allocator? ha, hname]
  rw [layout, List.find?_filterMap, hfind, Option.bind_some, hf']

/-- The routine of a counted sequence resizes it to what its count says. -/
theorem Coherent.runRoutine_eq (hr : r.Coherent) {count : ResolvedField} {i : Nat}
    (hf : f ∈ r.fields) (hi : f.countField = some i) (hc : r.fields[i]? = some count)
    (codecs : Element → Codec) (fields : Fields) :
    runRoutine codecs r.layout.allocators ("allocate_" ++ f.snakeName) fields =
      fields.resize f.ident (fields.get count.ident).sequenceLength
        (codecs f.kind.element).initial := by
  rw [runRoutine, hr.find_routine hf hi hc]
  rfl

/-- The count of a sequence is the last of the fields before it. -/
theorem get_count {first : List ResolvedField} {count : ResolvedField}
    (hd : (r.fields.map (·.ident)).Nodup) (hf : r.fields = (first ++ [count]) ++ f :: rest)
    {before : Fields} {previous : Value}
    (hb : before.map Prod.fst = (first ++ [count]).map (·.ident))
    (hp : ∀ last ∈ before.getLast?, last.2 = previous) (after : Fields) :
    Fields.get (before ++ after) count.ident = previous := by
  rcases List.eq_nil_or_concat before with rfl | ⟨before, ⟨name, v⟩, rfl⟩
  · simp at hb
  · simp only [List.concat_eq_append, List.map_append, List.map_cons, List.map_nil] at hb hp ⊢
    obtain ⟨hfirst, hname⟩ := List.append_inj' hb rfl
    obtain rfl : name = count.ident := by simpa using hname
    obtain rfl : v = previous := by simpa using hp
    have hi : count.ident ∉ before.map Prod.fst := by
      rw [hfirst]
      rw [hf, List.append_assoc, List.map_append, List.nodup_append] at hd
      exact fun h => hd.2.2 _ h _ (by simp) rfl
    rw [List.append_assoc]
    exact Fields.get_middle hi v

/-- One field of the walk.  The fields before it hold what was read, this one holds `old`. -/
theorem Coherent.attemptSteps_decodeSteps (hr : r.Coherent) (codecs : Element → Codec)
    (hd : (r.fields.map (·.ident)).Nodup) (hf : r.fields = done ++ f :: rest)
    {before after : Fields} {previous old : Value}
    (hb : before.map Prod.fst = done.map (·.ident))
    (hp : ∀ last ∈ before.getLast?, last.2 = previous) (ho : f.kind.Overwrites codecs old) :
    attemptSteps codecs r.layout.allocators (r.decodeSteps f) (before ++ (f.ident, old) :: after) =
      (fun v => before ++ (f.ident, v) :: after) <$> f.attempt codecs previous := by
  have hi : f.ident ∉ before.map Prod.fst := by
    rw [hf, List.map_append, List.map_cons, List.nodup_append] at hd
    rw [hb]
    exact fun h => hd.2.2 _ h _ (List.mem_cons_self ..) rfl
  rw [decodeSteps, ResolvedField.attempt]
  cases hk : f.kind with
  | single e =>
    rw [hk] at ho
    exact attemptSteps_readValue hi ho _
  | array e n =>
    rw [hk] at ho
    obtain ⟨rfl, ho⟩ := ho
    cases e with
    | primitive p =>
      by_cases hbyte : p.isByte = true
      · simp only [Element.attemptArray, hbyte, if_true, Functor.map_map]
        exact attemptSteps_readBlock hi p
      · simp only [Element.attemptArray, hbyte, Functor.map_map]
        exact attemptSteps_readElements hi ho _
    | record name =>
      simp only [Element.attemptArray, Functor.map_map]
      exact attemptSteps_readElements hi ho _
    | foreign name =>
      simp only [Element.attemptArray, Functor.map_map]
      exact attemptSteps_readElements hi ho _
  | sequence e =>
    rw [hk] at ho
    cases hc : f.countField with
    | none =>
      have hsizing : r.sizingStep f e = .readLengthPrefix f.ident e := by
        simp [sizingStep, hc]
      simp only [hsizing]
      rw [attemptSteps_cons, attemptSteps_readLengthPrefix hi]
      rw [Option.isSome_none, if_neg Bool.false_ne_true]
      simp only [bind_assoc, pure_bind, attemptSteps_resized hi ho, map_bind, Functor.map_map]
    | some i =>
      obtain ⟨first, count, rfl, rfl⟩ := hr.counted hf hc
      have hcount : r.fields[first.length]? = some count := by simp [hf]
      have hsizing : r.sizingStep f e =
          .allocate count.ident ("allocate_" ++ f.snakeName) e := by
        simp [sizingStep, hc, hcount, ResolvedField.allocator?]
      have hprevious := get_count hd hf hb hp ((f.ident, old) :: after)
      have hroutine : runRoutine codecs r.layout.allocators ("allocate_" ++ f.snakeName)
          (before ++ (f.ident, old) :: after) =
            before ++ (f.ident, .list (resizeTo previous.sequenceLength (codecs e).initial
              old.items)) :: after := by
        have hmem : f ∈ r.fields := by simp [hf]
        rw [hr.runRoutine_eq hmem hc hcount, hk, FieldKind.element, Fields.resize, hprevious,
          Fields.get_middle hi, Fields.set_middle hi]
      simp only [hsizing]
      rw [attemptSteps_cons, attemptSteps_allocate (congrArg _ hprevious) hroutine]
      rw [Option.isSome_some, if_pos rfl]
      simp only [bind_assoc, pure_bind, attemptSteps_resized hi ho, map_bind, Functor.map_map]

theorem Coherent.attemptSteps_flatMap (hr : r.Coherent) (codecs : Element → Codec)
    (hd : (r.fields.map (·.ident)).Nodup) {fs : List ResolvedField} (hf : r.fields = done ++ fs)
    {before after : Fields} {previous : Value}
    (hb : before.map Prod.fst = done.map (·.ident))
    (hp : ∀ last ∈ before.getLast?, last.2 = previous)
    (ha : List.Forall₂ (fun f entry => entry.1 = f.ident ∧ f.kind.Overwrites codecs entry.2)
      fs after) :
    attemptSteps codecs r.layout.allocators (fs.flatMap r.decodeSteps) (before ++ after) =
      (fun fields => before ++ fields) <$> attemptFields codecs previous fs := by
  induction ha generalizing done before previous with
  | nil => rfl
  | @cons f entry fs after hentry _ ih =>
    obtain ⟨name, old⟩ := entry
    obtain ⟨rfl, ho⟩ := hentry
    rw [List.flatMap_cons, attemptSteps_append, hr.attemptSteps_decodeSteps codecs hd hf hb hp ho,
      attemptFields, bind_map_left, map_bind]
    refine congrArg _ (funext fun v => ?_)
    have hsplit : r.fields = (done ++ [f]) ++ fs := by simp [hf]
    have hkeys : (before ++ [(f.ident, v)]).map Prod.fst = (done ++ [f]).map (·.ident) := by
      simp [hb]
    have hlast : ∀ last ∈ (before ++ [(f.ident, v)]).getLast?, last.2 = v := by simp
    have hnext := ih hsplit hkeys hlast
    simp only [List.append_assoc, List.cons_append, List.nil_append] at hnext
    rw [hnext, map_bind]
    simp only [map_pure]
    rfl

/-- The codec of a record reads its fields in declared order, whatever it decodes into. -/
theorem Coherent.decodeInto_outcome (hr : r.Coherent) (codecs : Element → Codec)
    (hd : (r.fields.map (·.ident)).Nodup) {olds : Fields}
    (ho : List.Forall₂ (fun f entry => entry.1 = f.ident ∧ f.kind.Overwrites codecs entry.2)
      r.fields olds) (reader : Reader) :
    ((r.codec codecs).decodeInto (.record olds) reader).outcome =
      (Value.record <$> attemptFields codecs (.list []) r.fields) reader := by
  have hkeys : ([] : Fields).map Prod.fst = ([] : List ResolvedField).map (·.ident) := rfl
  have hlast : ∀ last ∈ ([] : Fields).getLast?, last.2 = Value.list [] := by simp
  have h := hr.attemptSteps_flatMap codecs hd (List.nil_append r.fields).symm hkeys hlast ho
  simp only [List.nil_append, id_map'] at h
  rw [← h, Attempt.map_apply]
  exact Decoded.outcome_map ..

theorem Coherent.attempt_eq (hr : r.Coherent) (codecs : Element → Codec)
    (hd : (r.fields.map (·.ident)).Nodup) :
    (r.codec codecs).attempt = Value.record <$> attemptFields codecs (.list []) r.fields := by
  funext reader
  have ho : List.Forall₂ (fun f entry => entry.1 = f.ident ∧ f.kind.Overwrites codecs entry.2)
      r.fields (r.layout.slots.map fun s => (s.ident, s.kind.initial codecs)) := by
    rw [layout, List.map_map, List.forall₂_map_right_iff, List.forall₂_same]
    exact fun f _ => ⟨rfl, f.kind.overwrites_initial codecs⟩
  exact hr.decodeInto_outcome codecs hd ho reader

theorem Coherent.read_eq (hr : r.Coherent) (codecs : Element → Codec)
    (hd : (r.fields.map (·.ident)).Nodup) :
    (r.codec codecs).read = Value.record <$> readFields codecs (.list []) r.fields := by
  rw [← Codec.ofRead_attempt, hr.attempt_eq codecs hd, Reading.ofRead_map, ofRead_attemptFields]

end ResolvedRecord

end RecordWire
