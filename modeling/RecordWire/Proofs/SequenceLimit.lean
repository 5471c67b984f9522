import RecordWire.Proofs.LengthOverflow
import RecordWire.Proofs.Overwriting

/-!
What the limit on the length of sequences does.  It decides whether a buffer is decoded and never
what is decoded from it.  Under another limit a buffer that decodes gives the same value and leaves
the reader in the same place, unless the value has a sequence over that limit; then the first such
sequence on the wire is reported, before anything inside it is read.
-/

namespace RecordWire

/-! ## Reading under another limit -/

/-- The reader with another limit. -/
def Reader.under (r : Reader) (limit : Nat) : Reader :=
  { r with limit := limit }

def SequenceStart.exceeds (limit : Nat) (q : SequenceStart) : Bool :=
  decide (limit < q.length)

theorem SequenceStart.exceeds_eq_true {limit : Nat} {q : SequenceStart} :
    q.exceeds limit = true ↔ limit < q.length := by
  rw [exceeds, decide_eq_true_iff]

theorem SequenceStart.exceeds_eq_false {limit : Nat} {q : SequenceStart} :
    q.exceeds limit = false ↔ q.length ≤ limit := by
  rw [exceeds, decide_eq_false_iff_not, Nat.not_lt]

theorem refuseFirst_cons_self {α : Type} {refused : SequenceStart → Bool}
    {error : Nat → WireError} (q : SequenceStart) (starts : List SequenceStart) (a : α) :
    refuseFirst refused error (q :: q :: starts) a = refuseFirst refused error (q :: starts) a := by
  cases hq : refused q with
  | false => rw [refuseFirst_cons_of_not hq]
  | true => rw [refuseFirst_cons_of_refused hq, refuseFirst_cons_of_refused hq]

namespace Reading

variable {α β : Type} {start mid stop : Reader} {starts starts' : List SequenceStart}

/-- Under every limit the reading goes from `start` to `stop` and gives `a`, except that the first of
`starts` that is over the limit is refused. -/
def Filters (p : Reading α) (start : Reader) (a : α) (stop : Reader)
    (starts : List SequenceStart) : Prop :=
  ∀ limit, p (start.under limit) =
    refuseFirst (SequenceStart.exceeds limit) (.sequenceTooLong · limit) starts
      (a, stop.under limit)

theorem filters_pure (a : α) (start : Reader) : (pure a : Reading α).Filters start a start [] :=
  fun _ => rfl

theorem Filters.bind {p : Reading α} {f : α → Reading β} {a : α} {b : β}
    (h : p.Filters start a mid starts) (h' : (f a).Filters mid b stop starts') :
    (p >>= f).Filters start b stop (starts ++ starts') := by
  intro limit
  show p (start.under limit) >>= (fun q => f q.1 q.2) = _
  rw [h limit]
  exact refuseFirst_bind (h' limit)

theorem Filters.map {p : Reading α} {a : α} (h : p.Filters start a stop starts) (f : α → β) :
    (f <$> p).Filters start (f a) stop starts := by
  rw [map_eq_pure_bind, ← List.append_nil starts]
  exact h.bind (filters_pure (f a) stop)

theorem filters_raw {n : Nat} {bytes : List UInt8} (h : raw n start = .ok (bytes, stop)) :
    (raw n).Filters start bytes stop [] := by
  obtain ⟨hbytes, hn, rfl⟩ := raw_eq_ok.mp h
  exact fun limit => raw_eq_ok.mpr ⟨hbytes, hn, rfl⟩

theorem filters_word {size n : Nat} (h : word size start = .ok (n, stop)) :
    (word size).Filters start n stop [] := by
  obtain ⟨bytes, hbytes, hsize, rfl, hn⟩ := word_eq_ok.mp h
  exact fun limit => word_eq_ok.mpr ⟨bytes, hbytes, hsize, rfl, hn⟩

theorem filters_enough {n : Nat} (h : n ≤ start.rest.length) :
    (enough n).Filters start () start [] :=
  fun _ => enough_eq_ok.mpr ⟨h, rfl⟩

/-- The limit is asked for the length of a sequence, whether or not that is counted. -/
theorem filters_bounded (start : Reader) (counted : Bool) (n : Nat) :
    (bounded n).Filters start () start [⟨counted, n⟩] := by
  intro limit
  by_cases h : limit < n
  · rw [refuseFirst_cons_of_refused (SequenceStart.exceeds_eq_true.mpr h), bounded]
    exact if_pos h
  · have hn : n ≤ limit := Nat.not_lt.mp h
    rw [refuseFirst_cons_of_not (SequenceStart.exceeds_eq_false.mpr hn)]
    exact bounded_eq_ok.mpr ⟨hn, rfl⟩

theorem filters_length {n : Nat} (h : length start = .ok (n, stop)) (counted : Bool) :
    length.Filters start n stop [⟨counted, n⟩] := by
  rw [length_eq] at h ⊢
  obtain ⟨n', mid, hword, h⟩ := bind_eq_ok.mp h
  obtain ⟨_, mid', hbounded, h⟩ := bind_eq_ok.mp h
  obtain ⟨-, rfl⟩ := bounded_eq_ok.mp hbounded
  cases h
  exact (filters_word hword).bind ((filters_bounded _ counted n).bind (filters_pure n _))

theorem filters_check {size n : Nat} (h : check size n start = .ok ((), stop)) (counted : Bool) :
    (check size n).Filters start () stop [⟨counted, n⟩] := by
  obtain ⟨-, henough, rfl⟩ := check_eq_ok.mp h
  rw [check_eq]
  exact (filters_bounded start counted n).bind (filters_enough henough)

end Reading

/-! ## Codecs -/

namespace Codec

/-- What the codec decodes from a reader under one limit it decodes under every other, as far as the
sequences of the value are within it. -/
def Filters (c : Codec) (starts : Value → List SequenceStart) : Prop :=
  ∀ start v stop, c.read start = .ok (v, stop) → c.read.Filters start v stop (starts v)

/-- What the codec decodes under one limit it decodes under every other. -/
def IgnoresLimit (c : Codec) : Prop :=
  ∀ start v stop, (c.decode start).result = .ok (v, stop) →
    ∀ limit, (c.decode (start.under limit)).result = .ok (v, stop.under limit)

theorem IgnoresLimit.filters {c : Codec} (hc : c.IgnoresLimit) {starts : Value → List SequenceStart}
    (hs : ∀ v, starts v = []) : c.Filters starts := by
  intro start v stop h
  rw [hs]
  exact hc start v stop h

theorem scalar_filters (p : Primitive) {starts : Value → List SequenceStart}
    (hs : ∀ v, starts v = []) : (scalar p).Filters starts := by
  intro start v stop h
  rw [hs]
  rw [scalar_read] at h ⊢
  obtain ⟨n, hword, rfl⟩ := Reading.map_eq_ok.mp h
  exact (Reading.filters_word hword).map _

theorem Filters.readEach {c : Codec} {starts : Value → List SequenceStart} (hc : c.Filters starts)
    {n : Nat} {items : List Value} {start stop : Reader}
    (h : c.readEach n start = .ok (items, stop)) :
    (c.readEach n).Filters start items stop (items.flatMap starts) := by
  induction n generalizing items start with
  | zero =>
    cases h
    exact Reading.filters_pure [] _
  | succ n ih =>
    obtain ⟨v, mid, hv, h⟩ := Reading.bind_eq_ok.mp h
    obtain ⟨vs, stop', hvs, h⟩ := Reading.bind_eq_ok.mp h
    cases h
    rw [List.flatMap_cons, ← List.append_nil (vs.flatMap starts)]
    exact (hc _ _ _ hv).bind ((ih hvs).bind (Reading.filters_pure _ _))

end Codec

section Records

variable {s : Resolved} {codecs : Element → Codec} {start stop : Reader}

theorem Element.readArray_filters {e : Element} (hc : (codecs e).Filters (s.sequences e)) {n : Nat}
    {items : List Value} (h : e.readArray codecs n start = .ok (items, stop)) :
    (e.readArray codecs n).Filters start items stop (items.flatMap (s.sequences e)) := by
  cases e with
  | record name => exact hc.readEach h
  | foreign name => exact hc.readEach h
  | primitive p =>
    rw [readArray] at h ⊢
    by_cases hb : p.isByte = true
    · rw [if_pos hb] at h ⊢
      obtain ⟨bytes, hbytes, rfl⟩ := Reading.map_eq_ok.mp h
      rw [Resolved.flatMap_sequences_primitive]
      exact (Reading.filters_raw hbytes).map _
    · rw [if_neg hb] at h ⊢
      exact hc.readEach h

theorem ResolvedField.read_filters {f : ResolvedField}
    (hc : (codecs f.kind.element).Filters (s.sequences f.kind.element)) {before v : Value}
    (h : f.read codecs before start = .ok (v, stop)) (previous : Option FieldKind) :
    (f.read codecs before).Filters start v stop
      (s.walkField .starts previous f.kind (f.ident, v)) := by
  rw [read] at h ⊢
  cases hk : f.kind with
  | single e =>
    rw [hk] at hc
    simp only [hk] at h ⊢
    exact hc start v stop h
  | array e n =>
    rw [hk] at hc
    simp only [hk] at h ⊢
    obtain ⟨items, hitems, rfl⟩ := Reading.map_eq_ok.mp h
    rw [Resolved.walkField, Resolved.walkItems_eq]
    exact (Element.readArray_filters hc hitems).map _
  | sequence e =>
    rw [hk] at hc
    simp only [hk] at h ⊢
    obtain ⟨n, mid, hn, h⟩ := Reading.bind_eq_ok.mp h
    obtain ⟨_, mid', hcheck, h⟩ := Reading.bind_eq_ok.mp h
    obtain ⟨items, hitems, rfl⟩ := Reading.map_eq_ok.mp h
    rw [Resolved.walkField, Resolved.walkItems_eq, Codec.length_of_readEach hitems]
    have hrest := (Reading.filters_check hcheck (previous.any FieldKind.isPlainInteger)).bind
      (f := fun _ => Value.list <$> (codecs e).readEach n)
      ((hc.readEach hitems).map Value.list)
    by_cases hcount : f.countField.isSome = true
    · simp only [if_pos hcount] at hn ⊢
      cases hn
      exact (Reading.filters_pure _ start).bind hrest
    · simp only [if_neg hcount] at hn ⊢
      -- A length that is read is held against the limit twice.
      intro limit
      rw [((Reading.filters_length hn _).bind hrest) limit]
      exact refuseFirst_cons_self ..

theorem readFields_filters {fs : List ResolvedField}
    (hc : ∀ f ∈ fs, (codecs f.kind.element).Filters (s.sequences f.kind.element))
    {before : Value} {fields : Fields}
    (h : readFields codecs before fs start = .ok (fields, stop)) (previous : Option FieldKind) :
    (readFields codecs before fs).Filters start fields stop
      (s.walkFields .starts previous (fs.map (·.kind)) fields) := by
  induction fs generalizing before fields start previous with
  | nil =>
    cases h
    exact Reading.filters_pure [] _
  | cons f fs ih =>
    rw [List.forall_mem_cons] at hc
    obtain ⟨v, mid, hv, h⟩ := Reading.bind_eq_ok.mp h
    obtain ⟨rest, stop', hrest, h⟩ := Reading.bind_eq_ok.mp h
    cases h
    have hfields := (ih hc.2 hrest (some f.kind)).map ((f.ident, v) :: ·)
    rw [map_eq_pure_bind] at hfields
    exact (ResolvedField.read_filters hc.1 hv previous).bind hfields

theorem ResolvedRecord.Coherent.filters {r : ResolvedRecord} (hr : r.Coherent)
    (hd : (r.fields.map (·.ident)).Nodup)
    (hc : ∀ f ∈ r.fields, (codecs f.kind.element).Filters (s.sequences f.kind.element)) :
    (r.codec codecs).Filters fun v =>
      s.walkFields .starts none (r.fields.map (·.kind)) v.fields := by
  intro start v stop h
  rw [hr.read_eq codecs hd] at h ⊢
  obtain ⟨fields, hfields, rfl⟩ := Reading.map_eq_ok.mp h
  exact (readFields_filters hc hfields none).map _

end Records

/-! ## Schemas -/

theorem Resolved.Sound.codec_filters {s : Resolved} {outside : String → Codec} (hs : s.Sound)
    (hd : ∀ r ∈ s.records, (r.fields.map (·.ident)).Nodup)
    (ho : ∀ name ∈ s.foreignTypes, (outside name).IgnoresLimit) {r : ResolvedRecord}
    (hr : r ∈ s.records) :
    ∃ c, s.codec? outside r.name = some c ∧ c.Filters (s.sequences (.record r.name)) := by
  refine hs.codec_induction (P := fun e c => c.Filters (s.sequences e))
    (fun p => Codec.scalar_filters p (sequences_primitive p))
    (fun name hname => (ho name hname).filters (sequences_foreign name))
    (fun r hr codecs _ hfields => ?_) hr
  have hcoherent := hs.coherent r hr
  intro start v stop h
  have hfilters := hcoherent.filters (hd r hr) hfields start v stop h
  rw [hcoherent.read_eq codecs (hd r hr)] at h
  obtain ⟨fields, -, rfl⟩ := Reading.map_eq_ok.mp h
  rw [sequences, walk_record (hs.getRecord?_eq_some.mpr ⟨hr, rfl⟩)]
  exact hfilters

/-- For every accepted schema, whatever a record is decoded to from a reader under some limit is what
it is decoded to under any other limit that no sequence of the value is over, at any depth, and the
reader ends in the same place.  Under a smaller limit the error has the length of the first sequence
on the wire that is over it. -/
theorem decode_under_limit {schema : Schema} {s : Resolved} {outside : String → Codec}
    (built : schema.Built) (accepted : schema.resolve.result = .ok s)
    (distinct : ∀ r ∈ s.records, (r.fields.map (·.ident)).Nodup)
    (independent : ∀ name ∈ s.foreignTypes, (outside name).IgnoresLimit)
    {r : ResolvedRecord} (mem : r ∈ s.records) :
    ∃ c, s.codec? outside r.name = some c ∧
      ∀ start v stop, (c.decode start).result = .ok (v, stop) → ∀ limit,
        ((∀ q ∈ s.sequences (.record r.name) v, q.length ≤ limit) →
          (c.decode (start.under limit)).result = .ok (v, stop.under limit)) ∧
        ∀ before q after, s.sequences (.record r.name) v = before ++ q :: after →
          (∀ p ∈ before, p.length ≤ limit) → limit < q.length →
            (c.decode (start.under limit)).result = .error (.sequenceTooLong q.length limit) := by
  obtain ⟨c, hc, hfilters⟩ := (built.sound accepted).codec_filters distinct independent mem
  refine ⟨c, hc, fun start v stop h limit => ?_⟩
  have hread : (c.decode (start.under limit)).result = _ := hfilters start v stop h limit
  rw [hread]
  constructor
  · intro hwithin
    exact refuseFirst_eq_ok (fun q hq => SequenceStart.exceeds_eq_false.mpr (hwithin q hq)) _
  · intro before q after hsplit hwithin hover
    exact refuseFirst_eq_error hsplit
      (fun p hp => SequenceStart.exceeds_eq_false.mpr (hwithin p hp))
      (SequenceStart.exceeds_eq_true.mpr hover) _

/-! ## Timestamps -/

theorem Resolved.walkFields_of_scalars {s : Resolved} {kinds : List FieldKind}
    (h : ∀ kind ∈ kinds, ∃ p, kind = .single (.primitive p)) (previous : Option FieldKind)
    (fields : Fields) : s.walkFields .starts previous kinds fields = [] := by
  induction kinds generalizing previous fields with
  | nil => cases fields <;> rfl
  | cons kind kinds ih =>
    rw [List.forall_mem_cons] at h
    obtain ⟨⟨p, rfl⟩, hkinds⟩ := h
    cases fields with
    | nil => rfl
    | cons entry fields =>
      rw [walkFields, walkField, ih hkinds, List.append_nil]
      exact sequences_primitive p entry.2

theorem Timestamp.ignoresLimit : codec.IgnoresLimit := by
  intro start v stop h
  rw [codec_eq] at h ⊢
  have hfields : ∀ f ∈ record.fields,
      (scalars f.kind.element).Filters (Sample.resolved.sequences f.kind.element) := by
    intro f hf
    obtain ⟨-, p, hkind⟩ := element_of_mem hf
    rw [hkind]
    exact Codec.scalar_filters p (Resolved.sequences_primitive p)
  have hkinds : ∀ kind ∈ record.fields.map (·.kind), ∃ p, kind = .single (.primitive p) :=
    List.forall_mem_map.mpr fun f hf => (element_of_mem hf).2
  have hfilters := coherent.filters nodup_idents hfields start v stop h
  simp only [Resolved.walkFields_of_scalars hkinds] at hfilters
  exact hfilters

/-- Two notes are read under a limit of two and refused under a limit of one, which the one fix in
front of them is still within. -/
theorem other_under_limit :
    ∃ c, Sample.resolved.codec? Sample.outside "Track" = some c ∧
      (c.decode ((Sample.reading Sample.otherBytes 0).under 2)).result =
        .ok (Sample.other, (Sample.reading Sample.otherBytes 23).under 2) ∧
      (c.decode ((Sample.reading Sample.otherBytes 0).under 1)).result =
        .error (.sequenceTooLong 2 1) := by
  have mem : Sample.trackRecord ∈ Sample.resolved.records := by simp [Sample.records]
  have independent : ∀ name ∈ Sample.resolved.foreignTypes, (Sample.outside name).IgnoresLimit :=
    fun _ _ => Timestamp.ignoresLimit
  obtain ⟨c, hc, h⟩ :=
    decode_under_limit Sample.built Sample.accepted Sample.distinct independent mem
  have hdecode : (Sample.resolved.codec? Sample.outside "Track").map (fun c =>
      (c.decode (Sample.reading Sample.otherBytes 0)).result) =
        some (.ok (Sample.other, Sample.reading Sample.otherBytes 23)) :=
    rfl
  rw [show Sample.resolved.codec? Sample.outside "Track" = some c from hc, Option.map_some,
    Option.some.injEq] at hdecode
  have hsequences : Sample.resolved.sequences (.record "Track") Sample.other =
      [⟨true, 1⟩, ⟨false, 2⟩] := by
    decide +kernel
  refine ⟨c, hc, (h _ _ _ hdecode 2).1 ?_, ?_⟩
  · rw [show Sample.trackRecord.name = "Track" from rfl, hsequences]
    decide
  · exact (h _ _ _ hdecode 1).2 [⟨true, 1⟩] ⟨false, 2⟩ [] hsequences (by decide) (by decide)

end RecordWire
