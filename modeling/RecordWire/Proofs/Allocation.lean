import RecordWire.Proofs.PlanAgreement
import RecordWire.Proofs.TypedDecoding
import RecordWire.Proofs.Words

/-!
The routines that size counted sequences.  A routine gives its sequence as many elements as the
count says and leaves every other field alone, the counts among them.  So routines may be called in
any order and again and again: what they leave behind depends only on which of them were called.
-/

namespace RecordWire

/-! ## Resizing -/

/-- `new` has `n` elements: those of `old` as far as they go, and then `filler`. -/
structure Resized (n : Nat) (filler : Value) (old new : List Value) : Prop where
  length : new.length = n
  kept : ∀ i, i < min old.length n → new[i]? = old[i]?
  filled : ∀ i, old.length ≤ i → i < n → new[i]? = some filler

theorem resized_resizeTo (n : Nat) (filler : Value) (items : List Value) :
    Resized n filler items (resizeTo n filler items) where
  length := length_resizeTo n filler items
  kept i hi := by
    have htaken : i < (items.take n).length := by
      rw [List.length_take]
      omega
    rw [resizeTo, List.getElem?_append_left htaken, List.getElem?_take_of_lt (by omega)]
  filled i hi hn := by
    have htaken : items.take n = items := List.take_of_length_le (by omega)
    rw [resizeTo, htaken, List.getElem?_append_right hi, List.getElem?_replicate_of_lt (by omega)]

/-- A list that has its length already stays as it is. -/
theorem resizeTo_resizeTo (n : Nat) (filler : Value) (items : List Value) :
    resizeTo n filler (resizeTo n filler items) = resizeTo n filler items := by
  have hl := length_resizeTo n filler items
  rw [resizeTo, List.take_of_length_le (Nat.le_of_eq hl), hl, Nat.sub_self, List.replicate_zero,
    List.append_nil]

/-- Values of one record that agree in every field are equal. -/
theorem Fields.ext_get {fields fields' : Fields} (hn : fields.map Prod.fst = fields'.map Prod.fst)
    (hd : (fields.map Prod.fst).Nodup)
    (h : ∀ ident ∈ fields.map Prod.fst, fields.get ident = fields'.get ident) :
    fields = fields' := by
  have hleft := map_get rfl hd
  have hright := map_get hn.symm hd
  rw [← hleft, ← hright]
  exact List.map_congr_left fun ident hi => congrArg (Prod.mk ident) (h ident hi)

namespace ResolvedRecord

variable {r : ResolvedRecord} {f count : ResolvedField} {codecs : Element → Codec}
  {fields after : Fields} {calls : List String} {routine : String}

/-! ## One routine -/

/-- A counted sequence is one, and its count is a single integer that no routine touches. -/
theorem Coherent.of_mem_countedSequences (hr : r.Coherent) (h : (f, count) ∈ r.countedSequences) :
    f ∈ r.fields ∧ count ∈ r.fields ∧ f.kind.isSequence = true ∧ count.allocator? = none ∧
      ∃ p, count.kind = .single (.primitive p) ∧ p.isInteger = true := by
  obtain ⟨hf, i, hi, hcount⟩ := mem_countedSequences.mp h
  obtain ⟨done, rest, hsplit⟩ := List.append_of_mem hf
  obtain ⟨first, counter, p, rfl, hi', hkind, hp⟩ := hr.counted_integer hsplit hi
  have hsplit' : r.fields = first ++ counter :: (f :: rest) := by simp [hsplit]
  obtain rfl : counter = count := by
    cases hi.symm.trans hi'
    simpa [hsplit'] using hcount
  refine ⟨hf, List.mem_of_getElem? hcount, hr.isSequence_of_counted hsplit hi, ?_, p, hkind, hp⟩
  rw [ResolvedField.allocator?, hr.countField_eq _ _ _ hsplit', countPosition, hkind]
  rfl

theorem allocator?_of_mem_countedSequences (h : (f, count) ∈ r.countedSequences) :
    f.allocator? = some ("allocate_" ++ f.snakeName) := by
  obtain ⟨-, i, hi, -⟩ := mem_countedSequences.mp h
  rw [ResolvedField.allocator?, hi, Option.map_some]

theorem count_unique {count' : ResolvedField} (h : (f, count) ∈ r.countedSequences)
    (h' : (f, count') ∈ r.countedSequences) : count = count' := by
  obtain ⟨-, i, hi, hcount⟩ := mem_countedSequences.mp h
  obtain ⟨-, j, hj, hcount'⟩ := mem_countedSequences.mp h'
  cases hi.symm.trans hj
  exact Option.some.inj (hcount.symm.trans hcount')

/-- A field that has a routine is counted. -/
theorem Coherent.exists_count (hr : r.Coherent) (hf : f ∈ r.fields)
    (h : f.allocator? = some routine) : ∃ count, (f, count) ∈ r.countedSequences := by
  obtain ⟨i, hi, -⟩ := Option.map_eq_some_iff.mp h
  obtain ⟨done, rest, hsplit⟩ := List.append_of_mem hf
  obtain ⟨first, count, rfl, rfl⟩ := hr.counted hsplit hi
  exact ⟨count, mem_countedSequences.mpr ⟨hf, first.length, hi, by simp [hsplit]⟩⟩

/-- Every routine is that of a counted sequence. -/
theorem exists_countedSequence (h : routine ∈ r.layout.allocators.map (·.routine)) :
    ∃ f count, (f, count) ∈ r.countedSequences ∧ f.allocator? = some routine := by
  rw [allocators_eq, List.map_map] at h
  obtain ⟨⟨f, count⟩, hmem, rfl⟩ := List.mem_map.mp h
  exact ⟨f, count, hmem, allocator?_of_mem_countedSequences hmem⟩

/-- No two sequences share a routine. -/
theorem Coherent.eq_of_allocator? (hr : r.Coherent) {g : ResolvedField} (hf : f ∈ r.fields)
    (hg : g ∈ r.fields) (hf' : f.allocator? = some routine) (hg' : g.allocator? = some routine) :
    f = g := by
  obtain ⟨-, -, hname⟩ := Option.map_eq_some_iff.mp hf'
  obtain ⟨-, -, hname'⟩ := Option.map_eq_some_iff.mp hg'
  have hsnake : f.snakeName = g.snakeName :=
    (String.append_right_inj "allocate_").mp (hname.trans hname'.symm)
  exact List.inj_on_of_nodup_map hr.nodup_snakeNames hf hg hsnake

/-! ## Any calls -/

/-- Calls the routines of these names one after the other. -/
def callAll (r : ResolvedRecord) (codecs : Element → Codec) (calls : List String)
    (fields : Fields) : Fields :=
  calls.foldl (fun fields routine => runRoutine codecs r.layout.allocators routine fields) fields

/-- `after` is what the called routines make of `fields`. -/
structure AllocatedBy (r : ResolvedRecord) (codecs : Element → Codec) (calls : List String)
    (fields after : Fields) : Prop where
  names : after.map Prod.fst = fields.map Prod.fst
  sized : ∀ f count routine, (f, count) ∈ r.countedSequences → f.allocator? = some routine →
    routine ∈ calls → after.get f.ident = .list (resizeTo (fields.get count.ident).sequenceLength
      (codecs f.kind.element).initial (fields.get f.ident).items)
  others : ∀ f ∈ r.fields, (∀ routine, f.allocator? = some routine → routine ∉ calls) →
    after.get f.ident = fields.get f.ident

theorem AllocatedBy.count_eq (h : r.AllocatedBy codecs calls fields after) (hr : r.Coherent)
    (hmem : (f, count) ∈ r.countedSequences) :
    after.get count.ident = fields.get count.ident := by
  obtain ⟨-, hcount, -, hnone, -⟩ := hr.of_mem_countedSequences hmem
  apply h.others count hcount
  intro routine hroutine
  cases hnone.symm.trans hroutine

/-- One more call, of a routine that may have been called before. -/
theorem AllocatedBy.call (h : r.AllocatedBy codecs calls fields after) (hr : r.Coherent)
    (hd : (r.fields.map (·.ident)).Nodup) (hn : fields.map Prod.fst = r.fields.map (·.ident))
    (hroutine : routine ∈ r.layout.allocators.map (·.routine)) :
    r.AllocatedBy codecs (calls ++ [routine]) fields
      (runRoutine codecs r.layout.allocators routine after) := by
  obtain ⟨g, counter, hg, hg'⟩ := exists_countedSequence hroutine
  have hrun : runRoutine codecs r.layout.allocators routine after =
      after.resize g.ident (after.get counter.ident).sequenceLength
        (codecs g.kind.element).initial := by
    obtain ⟨hmem, i, hi, hcount⟩ := mem_countedSequences.mp hg
    cases (allocator?_of_mem_countedSequences hg).symm.trans hg'
    exact hr.runRoutine_eq hmem hi hcount codecs after
  have hmem : g ∈ r.fields := (hr.of_mem_countedSequences hg).1
  have hne : ∀ {f}, f ∈ r.fields → f ≠ g → f.ident ≠ g.ident :=
    fun hf hfg he => hfg (List.inj_on_of_nodup_map hd hf hmem he)
  have hold : resizeTo (fields.get counter.ident).sequenceLength (codecs g.kind.element).initial
      (after.get g.ident).items = resizeTo (fields.get counter.ident).sequenceLength
        (codecs g.kind.element).initial (fields.get g.ident).items := by
    by_cases hcalled : routine ∈ calls
    · rw [h.sized g counter routine hg hg' hcalled, Value.items, resizeTo_resizeTo]
    · rw [h.others g hmem fun other hother => by cases hg'.symm.trans hother; exact hcalled]
  rw [hrun, h.count_eq hr hg, Fields.resize, hold]
  refine ⟨(Fields.map_fst_set ..).trans h.names, ?_, ?_⟩
  · intro f count other hf hother hcalled
    by_cases hfg : f = g
    · subst hfg
      obtain rfl := count_unique hg hf
      apply Fields.get_set_self
      rw [h.names, hn]
      exact List.mem_map_of_mem hmem
    · have hf' : f ∈ r.fields := (hr.of_mem_countedSequences hf).1
      have hother' : other ∈ calls := by
        rcases List.mem_append.mp hcalled with hcalled | hcalled
        · exact hcalled
        · cases List.mem_singleton.mp hcalled
          exact absurd (hr.eq_of_allocator? hf' hmem hother hg') hfg
      rw [Fields.get_set_of_ne (hne hf' hfg)]
      exact h.sized f count other hf hother hother'
  · intro f hf hcalled
    have hfg : f ≠ g := by
      rintro rfl
      exact hcalled routine hg' (by simp)
    rw [Fields.get_set_of_ne (hne hf hfg)]
    exact h.others f hf fun other hother hin => hcalled other hother (List.mem_append_left _ hin)

theorem Coherent.allocatedBy_callAll (hr : r.Coherent) (hd : (r.fields.map (·.ident)).Nodup)
    (hn : fields.map Prod.fst = r.fields.map (·.ident))
    (hcalls : ∀ routine ∈ calls, routine ∈ r.layout.allocators.map (·.routine)) :
    r.AllocatedBy codecs calls fields (r.callAll codecs calls fields) := by
  induction calls using List.reverseRecOn with
  | nil => exact ⟨rfl, fun _ _ _ _ _ h => absurd h List.not_mem_nil, fun _ _ _ => rfl⟩
  | append_singleton calls routine ih =>
    rw [List.forall_mem_append, List.forall_mem_singleton] at hcalls
    rw [callAll, List.foldl_append]
    exact (ih hcalls.1).call hr hd hn hcalls.2

/-- What is left behind depends only on which routines were called. -/
theorem AllocatedBy.unique {calls' : List String} {after' : Fields}
    (h : r.AllocatedBy codecs calls fields after) (h' : r.AllocatedBy codecs calls' fields after')
    (hcalls : ∀ routine, routine ∈ calls' ↔ routine ∈ calls) (hr : r.Coherent)
    (hd : (r.fields.map (·.ident)).Nodup) (hn : fields.map Prod.fst = r.fields.map (·.ident)) :
    after' = after := by
  have hnames : after'.map Prod.fst = r.fields.map (·.ident) := h'.names.trans hn
  apply Fields.ext_get (h'.names.trans h.names.symm) (hnames ▸ hd)
  rw [hnames]
  intro ident hident
  obtain ⟨f, hf, rfl⟩ := List.mem_map.mp hident
  by_cases hcalled : ∃ routine ∈ calls, f.allocator? = some routine
  · obtain ⟨routine, hin, hroutine⟩ := hcalled
    obtain ⟨count, hcount⟩ := hr.exists_count hf hroutine
    rw [h.sized f count routine hcount hroutine hin]
    exact h'.sized f count routine hcount hroutine ((hcalls routine).mpr hin)
  · have hothers : ∀ routine, f.allocator? = some routine → routine ∉ calls :=
      fun routine hroutine hin => hcalled ⟨routine, hin, hroutine⟩
    rw [h.others f hf hothers]
    exact h'.others f hf fun routine hroutine hin =>
      hothers routine hroutine ((hcalls routine).mp hin)

end ResolvedRecord

theorem FieldKind.exists_items {kind : FieldKind} {v : Value} (hk : kind.isSequence = true)
    (h : kind.HasShape v) : ∃ items, v = .list items := by
  cases kind with
  | single e => cases hk
  | array e n => cases hk
  | sequence e => exact h

/-- The count of a sequence in a well-typed value is an integer. -/
theorem Resolved.exists_number {s : Resolved} {values : String → Value → Prop} {r : ResolvedRecord}
    {f count : ResolvedField} {fields : Fields} (hr : r.Coherent)
    (ht : r.Typed (s.Typed values) fields) (h : (f, count) ∈ r.countedSequences) :
    ∃ p bits, p.isInteger = true ∧ fields.get count.ident = .scalar p bits ∧
      (fields.get count.ident).sequenceLength = (p.number bits).toNat := by
  obtain ⟨-, hcount, -, -, p, hkind, hp⟩ := hr.of_mem_countedSequences h
  have hparts := ht.parts count hcount
  rw [hkind] at hparts
  have hvalue := hparts _ (List.mem_singleton.mpr rfl)
  generalize fields.get count.ident = v at hvalue
  cases hvalue with
  | primitive p bits => exact ⟨p, bits, hp, rfl, p.sequenceLength_eq bits⟩

/-- For every accepted schema and every value of a record, routines may be called in any order and
however often.  What they leave behind depends only on which were called: each sequence whose
routine was called has as many elements as its count says, none if that is below zero, its old
elements first and then new ones, and every other field is as it was. -/
theorem routines_called_in_any_order {schema : Schema} {s : Resolved} {outside : String → Codec}
    {values : String → Value → Prop} (built : schema.Built)
    (accepted : schema.resolve.result = .ok s) {r : ResolvedRecord} (mem : r ∈ s.records)
    (distinct : (r.fields.map (·.ident)).Nodup) {fields : Fields}
    (typed : s.Typed values (.record r.name) (.record fields)) {calls : List String}
    (known : ∀ routine ∈ calls, routine ∈ r.layout.allocators.map (·.routine)) :
    let after := r.callAll (s.elementCodec outside) calls fields
    (∀ calls', (∀ routine, routine ∈ calls' ↔ routine ∈ calls) →
      r.callAll (s.elementCodec outside) calls' fields = after) ∧
    after.map Prod.fst = fields.map Prod.fst ∧
    (∀ f count routine, (f, count) ∈ r.countedSequences → f.allocator? = some routine →
      routine ∈ calls → ∃ p bits old new, p.isInteger = true ∧
        fields.get count.ident = .scalar p bits ∧ fields.get f.ident = .list old ∧
        after.get f.ident = .list new ∧
        Resized (p.number bits).toNat (s.elementCodec outside f.kind.element).initial old new) ∧
    (∀ f ∈ r.fields, (∀ routine ∈ calls, f.allocator? ≠ some routine) →
      after.get f.ident = fields.get f.ident) ∧
    ∀ f count, (f, count) ∈ r.countedSequences →
      after.get count.ident = fields.get count.ident := by
  have hs := built.sound accepted
  have hr := hs.coherent r mem
  obtain ⟨_, hfields, ht⟩ :=
    Resolved.typed_record (hs.getRecord?_eq_some.mpr ⟨mem, rfl⟩) typed
  cases hfields
  have hcalls : ∀ {calls}, (∀ routine ∈ calls, routine ∈ r.layout.allocators.map (·.routine)) →
      r.AllocatedBy (s.elementCodec outside) calls fields
        (r.callAll (s.elementCodec outside) calls fields) :=
    hr.allocatedBy_callAll distinct ht.names
  have hafter := hcalls known
  refine ⟨fun calls' hsame => ?_, hafter.names, ?_, ?_, fun f count => hafter.count_eq hr⟩
  · have hknown : ∀ routine ∈ calls', routine ∈ r.layout.allocators.map (·.routine) :=
      fun routine hin => known routine ((hsame routine).mp hin)
    exact hafter.unique (hcalls hknown) hsame hr distinct ht.names
  · intro f count routine hcounted hroutine hin
    obtain ⟨p, bits, hp, hcount, hlength⟩ := Resolved.exists_number hr ht hcounted
    obtain ⟨hf, -, hsequence, -⟩ := hr.of_mem_countedSequences hcounted
    obtain ⟨old, hold⟩ := FieldKind.exists_items hsequence (ht.shape f hf)
    have hnew := hafter.sized f count routine hcounted hroutine hin
    rw [hlength, hold] at hnew
    exact ⟨p, bits, old, _, hp, hcount, hold, hnew, resized_resizeTo _ _ old⟩
  · intro f hf hnone
    exact hafter.others f hf fun routine hroutine hin => hnone routine hin hroutine

namespace Sample

def gaugeDef : RecordDef where
  name := "Gauge"
  fields := [
    { name := "below", typeName := "int8" }, { name := "low", typeName := "sequence<u16>" },
    { name := "above", typeName := "u8" }, { name := "high", typeName := "QVector<char>" }]

/-- A record with two counted sequences. -/
def gauges : Schema :=
  ({ moduleName := "gauges" } : Schema).addRecord gaugeDef

def gaugeKinds : List FieldKind :=
  [.single (.primitive .int8), .sequence (.primitive .uint16), .single (.primitive .uint8),
    .sequence (.primitive .char)]

def gaugesResolved : Resolved :=
  gauges.resolved [gaugeKinds] [0]

theorem gauges_built : gauges.Built :=
  .add gaugeDef (.new "gauges" .bigEndian)

theorem gauges_accepted : gauges.resolve.result = .ok gaugesResolved := by
  refine Schema.resolve_ok_iff.mpr ⟨?_, [gaugeKinds], [0], ?_, ?_, rfl⟩
  · decide +kernel
  · decide +kernel
  · decide +kernel

def gaugeRecord : ResolvedRecord where
  name := "Gauge"
  typeName := "Gauge"
  comment := none
  fields := [
    { name := "below", snakeName := "below", ident := "below", typeName := "int8", comment := none
      kind := .single (.primitive .int8), countField := none },
    { name := "low", snakeName := "low", ident := "low", typeName := "sequence<u16>"
      comment := none, kind := .sequence (.primitive .uint16), countField := some 0 },
    { name := "above", snakeName := "above", ident := "above", typeName := "u8", comment := none
      kind := .single (.primitive .uint8), countField := none },
    { name := "high", snakeName := "high", ident := "high", typeName := "QVector<char>"
      comment := none, kind := .sequence (.primitive .char), countField := some 2 }]
  fixedLayout := false

theorem gauges_records : gaugesResolved.records = [gaugeRecord] := by
  decide +kernel

theorem getRecord?_gauge : gaugesResolved.getRecord? "Gauge" = some gaugeRecord := by
  decide +kernel

/-- Counts of minus three and of three, before the sequences are sized. -/
def gauge : Fields :=
  [("below", .scalar .int8 0xfd), ("low", .list [.scalar .uint16 5, .scalar .uint16 6]),
    ("above", .scalar .uint8 3), ("high", .list [.scalar .char 0x41])]

def gaugeSized : Fields :=
  [("below", .scalar .int8 0xfd), ("low", .list []), ("above", .scalar .uint8 3),
    ("high", .list [.scalar .char 0x41, .zero .char, .zero .char])]

theorem gauge_typed :
    gaugesResolved.Typed (fun _ _ => False) (.record "Gauge") (.record gauge) := by
  refine .record getRecord?_gauge rfl ?_ ?_
  · refine List.forall_mem_cons.mpr ⟨trivial, List.forall_mem_cons.mpr ⟨⟨_, rfl⟩, ?_⟩⟩
    exact forall_mem_pair.mpr ⟨trivial, _, rfl⟩
  · refine List.forall_mem_cons.mpr ⟨?_, List.forall_mem_cons.mpr ⟨?_, ?_⟩⟩
    · exact List.forall_mem_singleton.mpr (.primitive .int8 _)
    · exact forall_mem_pair.mpr ⟨.primitive .uint16 _, .primitive .uint16 _⟩
    · refine forall_mem_pair.mpr ⟨?_, ?_⟩
      · exact List.forall_mem_singleton.mpr (.primitive .uint8 _)
      · exact List.forall_mem_singleton.mpr (.primitive .char _)

end Sample

/-- One sequence is emptied and one grows, whichever is sized first and although one is sized
twice. -/
theorem gauge_sized :
    Sample.gauges.resolve.result = .ok Sample.gaugesResolved ∧
    Sample.gaugeRecord.callAll (Sample.gaugesResolved.elementCodec Sample.outside)
      ["allocate_high", "allocate_low", "allocate_high"] Sample.gauge = Sample.gaugeSized ∧
    Sample.gaugeRecord.callAll (Sample.gaugesResolved.elementCodec Sample.outside)
      ["allocate_low", "allocate_high"] Sample.gauge = Sample.gaugeSized := by
  have mem : Sample.gaugeRecord ∈ Sample.gaugesResolved.records := by
    rw [Sample.gauges_records]
    exact List.mem_singleton.mpr rfl
  have known : ∀ routine ∈ ["allocate_high", "allocate_low", "allocate_high"],
      routine ∈ Sample.gaugeRecord.layout.allocators.map (·.routine) := by
    decide
  have hsized : Sample.gaugeRecord.callAll (Sample.gaugesResolved.elementCodec Sample.outside)
      ["allocate_high", "allocate_low", "allocate_high"] Sample.gauge = Sample.gaugeSized := rfl
  have h := @routines_called_in_any_order _ _ Sample.outside _ Sample.gauges_built
    Sample.gauges_accepted _ mem (by decide) _ Sample.gauge_typed _ known
  refine ⟨Sample.gauges_accepted, hsized, (h.1 _ fun routine => ?_).trans hsized⟩
  simp only [List.mem_cons, List.not_mem_nil, or_false]
  tauto

end RecordWire
