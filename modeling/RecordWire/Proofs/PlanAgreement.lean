import RecordWire.Proofs.Identifiers
import RecordWire.Proofs.RoundTrip

/-!
The layout of a record and the two lists of steps of its plan say the same about its fields.  Every
field is visited once in either list, in declared order and in the same way.  What else is in the
lists stands right before the field it belongs to: a length that is written and read, or the call of
the routine that sizes a counted sequence, right after its count.
-/

namespace RecordWire

/-! ## What a step does -/

/-- The way a field goes over the wire. -/
inductive Visit where
  | value
  | block
  | elements
  deriving DecidableEq

def FieldKind.visit : FieldKind → Visit
  | single _ => .value
  | array (.primitive p) _ => if p.isByte then .block else .elements
  | array (.record _) _ | array (.foreign _) _ | sequence _ => .elements

namespace EncodeStep

/-- The field that a step visits. -/
def visit? : EncodeStep → Option (String × Visit)
  | writeValue field _ _ => some (field, .value)
  | writeBlock field => some (field, .block)
  | writeElements field _ _ => some (field, .elements)
  | writeLengthPrefix _ => none

/-- The field whose length a step writes. -/
def prefixed? : EncodeStep → Option String
  | writeLengthPrefix field => some field
  | _ => none

end EncodeStep

namespace DecodeStep

/-- The field that a step visits. -/
def visit? : DecodeStep → Option (String × Visit)
  | readValue field _ _ => some (field, .value)
  | readBlock field _ => some (field, .block)
  | readElements field _ _ => some (field, .elements)
  | allocate _ _ _ | readLengthPrefix _ _ => none

/-- The field whose length a step reads. -/
def prefixed? : DecodeStep → Option String
  | readLengthPrefix field _ => some field
  | _ => none

/-- The routine that a step calls, and the field it counts by. -/
def call? : DecodeStep → Option (String × String)
  | allocate count routine _ => some (routine, count)
  | _ => none

end DecodeStep

/-- A sequence that no field counts. -/
def ResolvedField.isSelfDescribing (f : ResolvedField) : Bool :=
  f.kind.isSequence && f.countField.isNone

namespace ResolvedField

variable {f : ResolvedField}

theorem isSelfDescribing_of_not_isSequence (h : f.kind.isSequence = false) :
    f.isSelfDescribing = false := by
  rw [isSelfDescribing, h, Bool.false_and]

theorem isSelfDescribing_of_counted {i : Nat} (h : f.countField = some i) :
    f.isSelfDescribing = false := by
  rw [isSelfDescribing, h, Option.isNone_some, Bool.and_false]

theorem isSelfDescribing_of_uncounted (hs : f.kind.isSequence = true) (h : f.countField = none) :
    f.isSelfDescribing = true := by
  rw [isSelfDescribing, hs, h, Option.isNone_none, Bool.and_self]

end ResolvedField

namespace ResolvedRecord

/-- What a length is written for: the field that is visited next, after as many visits as there are
fields before it.  It is a sequence that no field counts. -/
def WritesLength (r : ResolvedRecord) (before : List EncodeStep) (ident : String)
    (after : List EncodeStep) : Prop :=
  ∃ f : ResolvedField, r.fields[(before.filterMap EncodeStep.visit?).length]? = some f ∧
    f.isSelfDescribing = true ∧ ident = f.ident ∧
    ∃ access, after.head? = some (.writeElements f.ident f.kind.element access)

/-- What a length is read for. -/
def ReadsLength (r : ResolvedRecord) (before : List DecodeStep) (ident : String)
    (after : List DecodeStep) : Prop :=
  ∃ f : ResolvedField, r.fields[(before.filterMap DecodeStep.visit?).length]? = some f ∧
    f.isSelfDescribing = true ∧ ident = f.ident ∧
    ∃ access, after.head? = some (.readElements f.ident f.kind.element access)

/-- What a routine is called for: the sequence that is visited next, right after its count was
read.  As many counted sequences, and as many routines, come before it as there are calls. -/
def CallsRoutine (r : ResolvedRecord) (before : List DecodeStep) (routine count : String)
    (after : List DecodeStep) : Prop :=
  ∃ f counter : ResolvedField,
    r.fields[(before.filterMap DecodeStep.visit?).length]? = some f ∧
    r.countedSequences[(before.filterMap DecodeStep.call?).length]? = some (f, counter) ∧
    r.layout.allocators[(before.filterMap DecodeStep.call?).length]? =
      some ⟨routine, f.ident, count, f.kind.element⟩ ∧ count = counter.ident ∧
    (∃ p access, before.getLast? = some (.readValue counter.ident (.primitive p) access)) ∧
    ∃ access, after.head? = some (.readElements f.ident f.kind.element access)

/-- The layout and the plan of a record agree. -/
structure PlanAgrees (r : ResolvedRecord) : Prop where
  encode_visits : r.plan.encode.filterMap EncodeStep.visit? =
    r.layout.slots.map fun slot => (slot.ident, slot.kind.visit)
  decode_visits : r.plan.decode.filterMap DecodeStep.visit? =
    r.layout.slots.map fun slot => (slot.ident, slot.kind.visit)
  encode_prefixes : r.plan.encode.filterMap EncodeStep.prefixed? =
    (r.fields.filter (·.isSelfDescribing)).map (·.ident)
  decode_prefixes : r.plan.decode.filterMap DecodeStep.prefixed? =
    (r.fields.filter (·.isSelfDescribing)).map (·.ident)
  writesLength : ∀ before ident after,
    r.plan.encode = before ++ .writeLengthPrefix ident :: after → r.WritesLength before ident after
  readsLength : ∀ before ident e after,
    r.plan.decode = before ++ .readLengthPrefix ident e :: after → r.ReadsLength before ident after
  calls : r.plan.decode.filterMap DecodeStep.call? =
    r.layout.allocators.map fun a => (a.routine, a.count)
  allocators : r.layout.allocators = r.countedSequences.map fun p =>
    ⟨"allocate_" ++ p.1.snakeName, p.1.ident, p.2.ident, p.1.kind.element⟩
  callsRoutine : ∀ before count routine e after,
    r.plan.decode = before ++ .allocate count routine e :: after →
      r.CallsRoutine before routine count after

variable {r : ResolvedRecord} {f : ResolvedField} {done rest : List ResolvedField}

/-! ## The steps of one field -/

/-- The steps that a field is encoded by. -/
inductive EncodesAs (f : ResolvedField) : List EncodeStep → Prop
  | plain (step : EncodeStep) : f.isSelfDescribing = false →
    step.visit? = some (f.ident, f.kind.visit) → step.prefixed? = none → EncodesAs f [step]
  | prefixed (access : Access) : f.isSelfDescribing = true → f.kind.visit = .elements →
    EncodesAs f [.writeLengthPrefix f.ident, .writeElements f.ident f.kind.element access]

/-- The steps that a field is decoded by, where `done` are the fields before it. -/
inductive DecodesAs (done : List ResolvedField) (f : ResolvedField) : List DecodeStep → Prop
  | plain (step : DecodeStep) : f.isSelfDescribing = false → f.countField = none →
    step.visit? = some (f.ident, f.kind.visit) → step.prefixed? = none → step.call? = none →
    DecodesAs done f [step]
  | prefixed (access : Access) : f.isSelfDescribing = true → f.kind.visit = .elements →
    DecodesAs done f [.readLengthPrefix f.ident f.kind.element,
      .readElements f.ident f.kind.element access]
  | counted (first : List ResolvedField) (count : ResolvedField) (p : Primitive)
    (access : Access) : f.isSelfDescribing = false → f.kind.visit = .elements →
    done = first ++ [count] → f.countField = some first.length →
    count.kind = .single (.primitive p) →
    DecodesAs done f [.allocate count.ident ("allocate_" ++ f.snakeName) f.kind.element,
      .readElements f.ident f.kind.element access]

theorem encodesAs (r : ResolvedRecord) (f : ResolvedField) : EncodesAs f (r.encodeSteps f) := by
  rw [encodeSteps]
  cases hk : f.kind with
  | single e =>
    have hs := ResolvedField.isSelfDescribing_of_not_isSequence (f := f) (by rw [hk]; rfl)
    exact .plain _ hs (by rw [hk]; rfl) rfl
  | array e n =>
    have hs := ResolvedField.isSelfDescribing_of_not_isSequence (f := f) (by rw [hk]; rfl)
    cases e with
    | primitive p =>
      dsimp only
      by_cases hb : p.isByte = true
      · rw [if_pos hb]
        exact .plain _ hs (by rw [hk, FieldKind.visit, if_pos hb]; rfl) rfl
      · rw [if_neg hb]
        exact .plain _ hs (by rw [hk, FieldKind.visit, if_neg hb]; rfl) rfl
    | record name => exact .plain _ hs (by rw [hk]; rfl) rfl
    | foreign name => exact .plain _ hs (by rw [hk]; rfl) rfl
  | sequence e =>
    have he : f.kind.element = e := by rw [hk, FieldKind.element]
    cases hc : f.countField with
    | some i =>
      have hs := ResolvedField.isSelfDescribing_of_counted hc
      exact .plain _ hs (by rw [hk]; rfl) rfl
    | none =>
      have hs := ResolvedField.isSelfDescribing_of_uncounted (by rw [hk]; rfl) hc
      rw [← he]
      exact .prefixed _ hs (by rw [hk]; rfl)

/-- A counted sequence is counted by a single integer right before it. -/
theorem Coherent.counted_integer (hr : r.Coherent) (hf : r.fields = done ++ f :: rest) {i : Nat}
    (hi : f.countField = some i) : ∃ first count p, done = first ++ [count] ∧
      f.countField = some first.length ∧ count.kind = .single (.primitive p) ∧
      p.isInteger = true := by
  obtain ⟨first, count, rfl, rfl⟩ := hr.counted hf hi
  have hcount : count.kind.countType?.isSome = true := by
    by_contra hne
    rw [hr.countField_eq _ f rest hf, countPosition] at hi
    simp [hne] at hi
  refine ⟨first, count, ?_⟩
  cases hk : count.kind with
  | single e =>
    cases e with
    | primitive p =>
      refine ⟨p, rfl, hi, rfl, ?_⟩
      by_contra hp
      simp [hk, FieldKind.countType?, hp] at hcount
    | record name => simp [hk, FieldKind.countType?] at hcount
    | foreign name => simp [hk, FieldKind.countType?] at hcount
  | array e n => simp [hk, FieldKind.countType?] at hcount
  | sequence e => simp [hk, FieldKind.countType?] at hcount

theorem Coherent.decodesAs (hr : r.Coherent) (hf : r.fields = done ++ f :: rest) :
    DecodesAs done f (r.decodeSteps f) := by
  have hplain : f.kind.isSequence = false → f.isSelfDescribing = false ∧ f.countField = none := by
    intro hs
    refine ⟨ResolvedField.isSelfDescribing_of_not_isSequence hs, ?_⟩
    rw [hr.countField_eq done f rest hf, countPosition, hs]
    rfl
  rw [decodeSteps]
  cases hk : f.kind with
  | single e =>
    obtain ⟨hs, hc⟩ := hplain (by rw [hk]; rfl)
    exact .plain _ hs hc (by rw [hk]; rfl) rfl rfl
  | array e n =>
    obtain ⟨hs, hc⟩ := hplain (by rw [hk]; rfl)
    cases e with
    | primitive p =>
      dsimp only
      by_cases hb : p.isByte = true
      · rw [if_pos hb]
        exact .plain _ hs hc (by rw [hk, FieldKind.visit, if_pos hb]; rfl) rfl rfl
      · rw [if_neg hb]
        exact .plain _ hs hc (by rw [hk, FieldKind.visit, if_neg hb]; rfl) rfl rfl
    | record name => exact .plain _ hs hc (by rw [hk]; rfl) rfl rfl
    | foreign name => exact .plain _ hs hc (by rw [hk]; rfl) rfl rfl
  | sequence e =>
    have he : f.kind.element = e := by rw [hk, FieldKind.element]
    have hv : f.kind.visit = .elements := by rw [hk]; rfl
    cases hc : f.countField with
    | none =>
      have hs := ResolvedField.isSelfDescribing_of_uncounted (by rw [hk]; rfl) hc
      have hsize : r.sizingStep f e = .readLengthPrefix f.ident e := by rw [sizingStep, hc]; rfl
      dsimp only
      rw [hsize, ← he]
      exact .prefixed _ hs hv
    | some i =>
      have hs := ResolvedField.isSelfDescribing_of_counted hc
      obtain ⟨first, count, p, rfl, hi, hp, -⟩ := hr.counted_integer hf hc
      have hcount : r.fields[first.length]? = some count := by simp [hf]
      have hsize : r.sizingStep f e = .allocate count.ident ("allocate_" ++ f.snakeName) e := by
        rw [sizingStep, ResolvedField.allocator?, hi, Option.bind_some, hcount]
        rfl
      dsimp only
      rw [hsize, ← he]
      exact .counted first count p _ hs hv rfl hi hp

theorem Coherent.exists_decodesAs (hr : r.Coherent) (hf : f ∈ r.fields) :
    ∃ done rest, r.fields = done ++ f :: rest ∧ DecodesAs done f (r.decodeSteps f) := by
  obtain ⟨done, rest, hsplit⟩ := List.append_of_mem hf
  exact ⟨done, rest, hsplit, hr.decodesAs hsplit⟩

section OneField

variable {encode : List EncodeStep} {decode : List DecodeStep}

theorem EncodesAs.visits (h : EncodesAs f encode) :
    encode.filterMap EncodeStep.visit? = [(f.ident, f.kind.visit)] := by
  cases h with
  | plain step _ hv _ => rw [List.filterMap_cons_some hv, List.filterMap_nil]
  | prefixed access _ hv => rw [hv]; rfl

theorem EncodesAs.prefixes (h : EncodesAs f encode) :
    encode.filterMap EncodeStep.prefixed? = if f.isSelfDescribing then [f.ident] else [] := by
  cases h with
  | plain step hs _ hp => rw [List.filterMap_cons_none hp, List.filterMap_nil, hs]; rfl
  | prefixed access hs _ => rw [hs]; rfl

theorem DecodesAs.visits (h : DecodesAs done f decode) :
    decode.filterMap DecodeStep.visit? = [(f.ident, f.kind.visit)] := by
  cases h with
  | plain step _ _ hv _ _ => rw [List.filterMap_cons_some hv, List.filterMap_nil]
  | prefixed access _ hv => rw [hv]; rfl
  | counted first count p access _ hv _ _ _ => rw [hv]; rfl

theorem DecodesAs.prefixes (h : DecodesAs done f decode) :
    decode.filterMap DecodeStep.prefixed? = if f.isSelfDescribing then [f.ident] else [] := by
  cases h with
  | plain step hs _ _ hp _ => rw [List.filterMap_cons_none hp, List.filterMap_nil, hs]; rfl
  | prefixed access hs _ => rw [hs]; rfl
  | counted first count p access hs _ _ _ _ => rw [hs]; rfl

/-- A sequence with the field that counts it. -/
def counting? (r : ResolvedRecord) (f : ResolvedField) : Option (ResolvedField × ResolvedField) :=
  f.countField.bind fun i => r.fields[i]?.map fun count => (f, count)

theorem countedSequences_eq (r : ResolvedRecord) :
    r.countedSequences = r.fields.filterMap r.counting? := rfl

theorem allocator?_eq (r : ResolvedRecord) (f : ResolvedField) :
    r.allocator? f = (r.counting? f).map fun p =>
      ⟨"allocate_" ++ p.1.snakeName, p.1.ident, p.2.ident, p.1.kind.element⟩ := by
  rw [allocator?, counting?, ResolvedField.allocator?]
  cases f.countField with
  | none => rfl
  | some i =>
    rw [Option.bind_some, Option.bind_some]
    cases r.fields[i]? <;> rfl

theorem DecodesAs.calls (hf : r.fields = done ++ f :: rest) (h : DecodesAs done f decode) :
    decode.filterMap DecodeStep.call? =
      ((r.counting? f).map fun p => ("allocate_" ++ p.1.snakeName, p.2.ident)).toList := by
  cases h with
  | plain step _ hc _ _ hcall =>
    rw [List.filterMap_cons_none hcall, counting?, hc]
    rfl
  | prefixed access hs _ =>
    have hc : f.countField = none := by
      rw [ResolvedField.isSelfDescribing, Bool.and_eq_true] at hs
      exact Option.isNone_iff_eq_none.mp hs.2
    rw [counting?, hc]
    rfl
  | counted first count p access _ _ hdone hi _ =>
    have hcount : r.fields[first.length]? = some count := by simp [hf, hdone]
    rw [counting?, hi, Option.bind_some, hcount]
    rfl

end OneField

/-! ## The steps of all fields -/

theorem flatMap_ite_singleton {α β : Type} (p : α → Bool) (g : α → β) (l : List α) :
    (l.flatMap fun a => if p a then [g a] else []) = (l.filter p).map g := by
  induction l with
  | nil => rfl
  | cons a l ih => cases h : p a <;> simp [h, ih]

theorem visits_flatMap_encodeSteps (r : ResolvedRecord) (fs : List ResolvedField) :
    (fs.flatMap r.encodeSteps).filterMap EncodeStep.visit? =
      fs.map fun f => (f.ident, f.kind.visit) := by
  rw [List.filterMap_flatMap, List.map_eq_flatMap]
  exact List.flatMap_congr fun f _ => (r.encodesAs f).visits

theorem prefixes_encode (r : ResolvedRecord) :
    r.plan.encode.filterMap EncodeStep.prefixed? =
      (r.fields.filter (·.isSelfDescribing)).map (·.ident) := by
  rw [plan, List.filterMap_flatMap, ← flatMap_ite_singleton]
  exact List.flatMap_congr fun f _ => (r.encodesAs f).prefixes

section AllFields

variable {fs : List ResolvedField}

theorem Coherent.visits_flatMap_decodeSteps (hr : r.Coherent) (hfs : ∀ f ∈ fs, f ∈ r.fields) :
    (fs.flatMap r.decodeSteps).filterMap DecodeStep.visit? =
      fs.map fun f => (f.ident, f.kind.visit) := by
  rw [List.filterMap_flatMap, List.map_eq_flatMap]
  refine List.flatMap_congr fun f hf => ?_
  obtain ⟨done, rest, -, h⟩ := hr.exists_decodesAs (hfs f hf)
  exact h.visits

theorem Coherent.prefixes_decode (hr : r.Coherent) :
    r.plan.decode.filterMap DecodeStep.prefixed? =
      (r.fields.filter (·.isSelfDescribing)).map (·.ident) := by
  rw [plan, List.filterMap_flatMap, ← flatMap_ite_singleton]
  refine List.flatMap_congr fun f hf => ?_
  obtain ⟨done, rest, -, h⟩ := hr.exists_decodesAs hf
  exact h.prefixes

theorem Coherent.calls_flatMap_decodeSteps (hr : r.Coherent) (hfs : ∀ f ∈ fs, f ∈ r.fields) :
    (fs.flatMap r.decodeSteps).filterMap DecodeStep.call? =
      (fs.filterMap r.counting?).map fun p => ("allocate_" ++ p.1.snakeName, p.2.ident) := by
  rw [List.filterMap_flatMap, List.map_filterMap, List.filterMap_eq_flatMap_toList]
  refine List.flatMap_congr fun f hf => ?_
  obtain ⟨done, rest, hsplit, h⟩ := hr.exists_decodesAs (hfs f hf)
  exact h.calls hsplit

/-- The allocate routines are those of the counted sequences. -/
theorem allocators_eq (r : ResolvedRecord) :
    r.layout.allocators = r.countedSequences.map fun p =>
      ⟨"allocate_" ++ p.1.snakeName, p.1.ident, p.2.ident, p.1.kind.element⟩ := by
  rw [countedSequences_eq, List.map_filterMap]
  exact List.filterMap_congr fun f _ => r.allocator?_eq f

end AllFields

/-! ## What stands next to a step -/

section Neighbours

variable {α β : Type} {g : α → List β} {l : List α} {a b x : β} {first last before after : List β}

theorem singleton_eq_append_cons (h : [a] = first ++ x :: last) : a = x := by
  cases first with
  | nil => exact (List.cons.inj h).1
  | cons c first => simp at h

theorem pair_eq_append_cons (h : [a, b] = first ++ x :: last) :
    (first = [] ∧ a = x ∧ last = [b]) ∨ b = x := by
  cases first with
  | nil =>
    obtain ⟨rfl, rfl⟩ := List.cons.inj h
    exact .inl ⟨rfl, rfl, rfl⟩
  | cons c first => exact .inr (singleton_eq_append_cons (List.cons.inj h).2)

/-- Where one step stands in the steps of all fields, it stands in those of one field. -/
theorem flatMap_eq_append_cons (h : l.flatMap g = before ++ x :: after) :
    ∃ done a rest first last, l = done ++ a :: rest ∧ g a = first ++ x :: last ∧
      before = done.flatMap g ++ first ∧ after = last ++ rest.flatMap g := by
  induction l generalizing before with
  | nil => simp at h
  | cons a l ih =>
    rw [List.flatMap_cons] at h
    have hlater : ∀ middle, before = g a ++ middle → l.flatMap g = middle ++ x :: after →
        ∃ done b rest first last, a :: l = done ++ b :: rest ∧ g b = first ++ x :: last ∧
          before = done.flatMap g ++ first ∧ after = last ++ rest.flatMap g := by
      intro middle hbefore hl
      obtain ⟨done, b, rest, first, last, rfl, hb, rfl, hafter⟩ := ih hl
      refine ⟨a :: done, b, rest, first, last, rfl, hb, ?_, hafter⟩
      rw [hbefore, List.flatMap_cons, List.append_assoc]
    rcases List.append_eq_append_iff.mp h with ⟨middle, hbefore, hl⟩ | ⟨middle, ha, hx⟩
    · exact hlater middle hbefore hl
    · cases middle with
      | nil => exact hlater [] (by simpa using ha.symm) hx.symm
      | cons y last =>
        obtain ⟨rfl, hafter⟩ := List.cons.inj hx
        exact ⟨[], a, l, before, last, rfl, ha, by simp, hafter⟩

end Neighbours

theorem writesLength_of_plan {before after : List EncodeStep} {ident : String}
    (h : r.plan.encode = before ++ .writeLengthPrefix ident :: after) :
    r.WritesLength before ident after := by
  obtain ⟨done, f, rest, first, last, hf, hsteps, rfl, rfl⟩ := flatMap_eq_append_cons h
  have hshape := r.encodesAs f
  generalize r.encodeSteps f = steps at hsteps hshape
  cases hshape with
  | plain step _ hv _ =>
    rw [singleton_eq_append_cons hsteps] at hv
    cases hv
  | prefixed access hs _ =>
    rcases pair_eq_append_cons hsteps with ⟨rfl, hident, rfl⟩ | hne
    · cases hident
      refine ⟨f, ?_, hs, rfl, access, rfl⟩
      rw [List.append_nil, visits_flatMap_encodeSteps, List.length_map, hf]
      simp
    · cases hne

/-- A decode step belongs to one field, and what comes before it visits just the fields before. -/
theorem Coherent.exists_field_of_step (hr : r.Coherent) {before after : List DecodeStep}
    {step : DecodeStep} (h : r.plan.decode = before ++ step :: after) :
    ∃ done f rest first last steps, r.fields = done ++ f :: rest ∧ DecodesAs done f steps ∧
      steps = first ++ step :: last ∧ before = done.flatMap r.decodeSteps ++ first ∧
      after = last ++ rest.flatMap r.decodeSteps ∧
      r.fields[((done.flatMap r.decodeSteps).filterMap DecodeStep.visit?).length]? = some f ∧
      ((done.flatMap r.decodeSteps).filterMap DecodeStep.call?).length =
        (done.filterMap r.counting?).length := by
  obtain ⟨done, f, rest, first, last, hf, hsteps, hbefore, hafter⟩ := flatMap_eq_append_cons h
  have hdone : ∀ g ∈ done, g ∈ r.fields := fun g hg => hf ▸ List.mem_append_left _ hg
  refine ⟨done, f, rest, first, last, _, hf, hr.decodesAs hf, hsteps, hbefore, hafter, ?_, ?_⟩
  · rw [hr.visits_flatMap_decodeSteps hdone, List.length_map, hf]
    simp
  · rw [hr.calls_flatMap_decodeSteps hdone, List.length_map]

theorem Coherent.readsLength_of_plan (hr : r.Coherent) {before after : List DecodeStep}
    {ident : String} {e : Element}
    (h : r.plan.decode = before ++ .readLengthPrefix ident e :: after) :
    r.ReadsLength before ident after := by
  obtain ⟨done, f, rest, first, last, steps, hf, hshape, hsteps, rfl, rfl, hvisits, -⟩ :=
    hr.exists_field_of_step h
  cases hshape with
  | plain step _ _ hv _ _ =>
    rw [singleton_eq_append_cons hsteps] at hv
    cases hv
  | prefixed access hs _ =>
    rcases pair_eq_append_cons hsteps with ⟨rfl, hident, rfl⟩ | hne
    · cases hident
      rw [ReadsLength, List.append_nil]
      exact ⟨f, hvisits, hs, rfl, access, rfl⟩
    · cases hne
  | counted count p access =>
    rcases pair_eq_append_cons hsteps with ⟨-, hne, -⟩ | hne <;> cases hne

theorem Coherent.callsRoutine_of_plan (hr : r.Coherent) {before after : List DecodeStep}
    {count routine : String} {e : Element}
    (h : r.plan.decode = before ++ .allocate count routine e :: after) :
    r.CallsRoutine before routine count after := by
  obtain ⟨done, f, rest, first, last, steps, hf, hshape, hsteps, rfl, rfl, hvisits, hcalls⟩ :=
    hr.exists_field_of_step h
  cases hshape with
  | plain step _ _ hv _ _ =>
    rw [singleton_eq_append_cons hsteps] at hv
    cases hv
  | prefixed access hs _ =>
    rcases pair_eq_append_cons hsteps with ⟨-, hne, -⟩ | hne <;> cases hne
  | counted earlier counter p access _ _ hsplit hi hp =>
    rcases pair_eq_append_cons hsteps with ⟨rfl, hcall, rfl⟩ | hne
    · cases hcall
      have hcount : r.counting? f = some (f, counter) := by
        have hget : r.fields[earlier.length]? = some counter := by simp [hf, hsplit]
        rw [counting?, hi, Option.bind_some, hget]
        rfl
      have hnth : r.countedSequences[(done.filterMap r.counting?).length]? =
          some (f, counter) := by
        rw [countedSequences_eq, hf, List.filterMap_append, List.filterMap_cons_some hcount]
        simp
      rw [CallsRoutine, List.append_nil, hcalls]
      refine ⟨f, counter, hvisits, hnth, ?_, rfl, ⟨p, counter.kind.access r.fixedLayout, ?_⟩,
        access, rfl⟩
      · rw [allocators_eq, List.getElem?_map, hnth]
        rfl
      · rw [hsplit, List.flatMap_append, List.flatMap_singleton, decodeSteps, hp,
          List.getLast?_append]
        rfl
    · cases hne

theorem Coherent.planAgrees (hr : r.Coherent) : r.PlanAgrees where
  encode_visits := by
    rw [plan, visits_flatMap_encodeSteps, layout, List.map_map]
    rfl
  decode_visits := by
    rw [plan, hr.visits_flatMap_decodeSteps fun _ hf => hf, layout, List.map_map]
    rfl
  encode_prefixes := r.prefixes_encode
  decode_prefixes := hr.prefixes_decode
  writesLength _ _ _ := writesLength_of_plan
  readsLength _ _ _ _ := hr.readsLength_of_plan
  calls := by
    rw [plan, hr.calls_flatMap_decodeSteps fun _ hf => hf, allocators_eq, List.map_map]
    rfl
  allocators := r.allocators_eq
  callsRoutine _ _ _ _ _ := hr.callsRoutine_of_plan

end ResolvedRecord

/-- In every accepted schema the layout and the plan of each record agree. -/
theorem layout_and_plan_agree {schema : Schema} {s : Resolved}
    (accepted : schema.resolve.result = .ok s) {r : ResolvedRecord} (hr : r ∈ s.records) :
    r.PlanAgrees :=
  (Schema.coherent_of_accepted accepted hr).planAgrees

/-- A track has a counted sequence and one that is not, and its decoder sizes both. -/
theorem track_plan_agrees :
    Sample.trackRecord ∈ Sample.resolved.records ∧ Sample.trackRecord.PlanAgrees ∧
      Sample.trackRecord.plan.decode.filterMap DecodeStep.call? = [("allocate_fixes", "n")] ∧
      Sample.trackRecord.plan.decode.filterMap DecodeStep.prefixed? = ["notes"] := by
  have hmem : Sample.trackRecord ∈ Sample.resolved.records := by simp [Sample.records]
  have hagrees := layout_and_plan_agree Sample.accepted hmem
  refine ⟨hmem, hagrees, ?_, ?_⟩
  · rw [hagrees.calls, hagrees.allocators]
    rfl
  · rw [hagrees.decode_prefixes]
    rfl

end RecordWire
