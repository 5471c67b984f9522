import Mathlib.Logic.Relation
import RecordWire.Proofs.TypedDecoding

/-!
Lengths from outside never drive an allocation.  Wherever a decode is about to size a sequence, at
any depth and whatever comes after, the length is within the limit of the reader and the bytes that
are left could hold that many elements, or else the sequence is not touched and decoding fails.

A decode calls for further decodes: of the fields of a record, and of the elements of arrays and
sequences.  `Calls` says which, and `Sizes` where a decode comes to size a sequence.
-/

namespace RecordWire

/-! ## Where a decode comes by -/

/-- Decoding the record `r` into `old` comes to `step`, with `fields` as far as they are decoded and
with `reader` behind what was read. -/
def ResolvedRecord.ComesTo (codecs : Element → Codec) (r : ResolvedRecord) (old : Fields)
    (start : Reader) (step : DecodeStep) (fields : Fields) (reader : Reader) : Prop :=
  ∃ before after resizes, r.plan.decode = before ++ step :: after ∧
    runDecode codecs r.layout.allocators before old start =
      { value := fields, reader := reader, resizes := resizes }

/-- A value that is decoded into, and the reader it is decoded from. -/
structure Call where
  element : Element
  old : Value
  reader : Reader

namespace Resolved

/-- One decode calls for another. -/
inductive Calls (s : Resolved) (outside : String → Codec) : Call → Call → Prop
  | inPlace {r : ResolvedRecord} {v : Value} {start reader : Reader} {ident : String} {e : Element}
    {fields : Fields} : r ∈ s.records →
      r.ComesTo (s.elementCodec outside) v.fields start (.readValue ident e .reference)
        fields reader →
      Calls s outside ⟨.record r.name, v, start⟩ ⟨e, fields.get ident, reader⟩
  | copied {r : ResolvedRecord} {v : Value} {start reader : Reader} {ident : String} {e : Element}
    {fields : Fields} : r ∈ s.records →
      r.ComesTo (s.elementCodec outside) v.fields start (.readValue ident e .copy) fields reader →
      Calls s outside ⟨.record r.name, v, start⟩ ⟨e, (s.elementCodec outside e).initial, reader⟩
  | item {r : ResolvedRecord} {v : Value} {start reader reader' : Reader} {ident : String}
    {e : Element} {access : Access} {fields : Fields} {done rest : List Value} {item : Value}
    {values : List Value} {resizes : List Resize} : r ∈ s.records →
      r.ComesTo (s.elementCodec outside) v.fields start (.readElements ident e access)
        fields reader →
      (fields.get ident).items = done ++ item :: rest →
      (s.elementCodec outside e).decodeEach done reader =
        { value := values, reader := reader', resizes := resizes } →
      Calls s outside ⟨.record r.name, v, start⟩ ⟨e, item, reader'⟩

/-- The decode `call` comes to size the sequence `f` of a record `r`, its own or one further in. -/
structure Sizes (s : Resolved) (outside : String → Codec) (call : Call) (r : ResolvedRecord)
    (f : ResolvedField) (e : Element) (fields : Fields) (reader : Reader) : Prop where
  mem : r ∈ s.records
  field : f ∈ r.fields
  kind : f.kind = .sequence e
  reached : ∃ v start, Relation.ReflTransGen (s.Calls outside) call ⟨.record r.name, v, start⟩ ∧
    r.ComesTo (s.elementCodec outside) v.fields start (r.sizingStep f e) fields reader

end Resolved

/-! ## Values on the way -/

namespace ResolvedRecord.ComesTo

variable {codecs : Element → Codec} {r : ResolvedRecord} {old fields : Fields}
  {start reader : Reader} {step : DecodeStep}

theorem decodesBy (h : r.ComesTo codecs old start step fields reader) :
    ∃ f ∈ r.fields, r.DecodesBy f step := by
  obtain ⟨before, after, -, hplan, -⟩ := h
  apply decodesBy_of_mem_plan
  rw [hplan]
  simp

/-- What every step of the plan keeps has been kept so far. -/
theorem invariant (h : r.ComesTo codecs old start step fields reader)
    {P : Fields → Reader → Prop}
    (hP : ∀ step ∈ r.plan.decode, ∀ fields reader, P fields reader →
      P (step.run codecs r.layout.allocators fields reader).value
        (step.run codecs r.layout.allocators fields reader).reader)
    (hold : P old start) : P fields reader := by
  obtain ⟨before, after, resizes, hplan, hrun⟩ := h
  have hbefore : ∀ step ∈ before, step ∈ r.plan.decode := by
    intro step hstep
    rw [hplan]
    exact List.mem_append_left _ hstep
  have h := runDecode_invariant (fun step hstep => hP step (hbefore step hstep)) hold
  rwa [hrun] at h

end ResolvedRecord.ComesTo

namespace Resolved

section Typed

variable {s : Resolved} {outside : String → Codec} {values : String → Value → Prop}
  {r : ResolvedRecord} {f : ResolvedField} {e : Element} {fields : Fields} {reader : Reader}
  {a b : Call} (hs : s.Sound) (hd : ∀ r ∈ s.records, (r.fields.map (·.ident)).Nodup)
  (ho : ∀ name ∈ s.foreignTypes, (outside name).Keeps (values name))
include hs hd ho

theorem Sound.comesTo_typed (hr : r ∈ s.records) {v : Value}
    (hv : s.Typed values (.record r.name) v) {start : Reader} {step : DecodeStep}
    (h : r.ComesTo (s.elementCodec outside) v.fields start step fields reader) :
    r.Typed (s.Typed values) fields := by
  obtain ⟨old, rfl, ht⟩ := typed_record (hs.getRecord?_eq_some.mpr ⟨hr, rfl⟩) hv
  apply h.invariant (P := fun fields _ => r.Typed (s.Typed values) fields) ?_ ht
  intro step hstep fields reader ht
  exact (hs.coherent r hr).run_typed (hd r hr) .primitive (hs.keeps_typed hd ho hr) hstep reader ht

/-- A decode of a well-typed value calls only for decodes of well-typed values. -/
theorem Calls.typed (h : s.Calls outside a b) (ha : s.Typed values a.element a.old) :
    s.Typed values b.element b.old := by
  cases h with
  | inPlace hr h =>
    obtain ⟨f, hf, hstep⟩ := h.decodesBy
    obtain ⟨rfl, hk⟩ := hstep.readValue
    have hparts := (hs.comesTo_typed hd ho hr ha h).parts f hf
    rw [hk] at hparts
    exact hparts _ (List.mem_singleton.mpr rfl)
  | copied hr h =>
    obtain ⟨f, hf, hstep⟩ := h.decodesBy
    obtain ⟨-, hk⟩ := hstep.readValue
    have hc := hs.keeps_typed hd ho hr f hf
    rw [hk] at hc
    exact hc.initial
  | item hr h hitems _ =>
    obtain ⟨f, hf, hstep⟩ := h.decodesBy
    obtain ⟨rfl, rfl, hk⟩ := hstep.readElements
    have hparts := (hs.comesTo_typed hd ho hr ha h).parts f hf
    rw [FieldKind.parts_of_ne hk, hitems] at hparts
    exact hparts _ (by simp)

theorem typed_of_calls (h : Relation.ReflTransGen (s.Calls outside) a b)
    (ha : s.Typed values a.element a.old) : s.Typed values b.element b.old := by
  induction h with
  | refl => exact ha
  | tail _ hstep ih => exact hstep.typed hs hd ho ih

theorem Sizes.typed (h : s.Sizes outside a r f e fields reader)
    (ha : s.Typed values a.element a.old) : r.Typed (s.Typed values) fields := by
  obtain ⟨v, start, hcalls, hcomes⟩ := h.reached
  exact hs.comesTo_typed hd ho h.mem (typed_of_calls hs hd ho hcalls ha) hcomes

end Typed

end Resolved

/-! ## Readers on the way -/

/-- The reader stands at another place in the same buffer. -/
def Reader.MovedTo (a b : Reader) : Prop :=
  ∃ position, b = { a with position := position }

namespace Reader

theorem MovedTo.refl (a : Reader) : a.MovedTo a :=
  ⟨a.position, rfl⟩

theorem MovedTo.trans {a b c : Reader} (hab : a.MovedTo b) (hbc : b.MovedTo c) : a.MovedTo c := by
  obtain ⟨i, rfl⟩ := hab
  obtain ⟨j, rfl⟩ := hbc
  exact ⟨j, rfl⟩

theorem movedTo_getRaw (r : Reader) (n : Nat) : r.MovedTo (r.getRaw n).2 := by
  rw [getRaw]
  by_cases h : r.remaining < n
  · rw [if_pos h]
    exact .refl r
  · rw [if_neg h]
    exact ⟨_, rfl⟩

end Reader

/-- A decoder that does nothing to the reader but move it. -/
def Codec.Moves (c : Codec) : Prop :=
  ∀ v (r : Reader), r.MovedTo (c.decodeInto v r).reader

namespace Codec

theorem scalar_moves (p : Primitive) : (scalar p).Moves := by
  intro v r
  have h := r.movedTo_getRaw p.size
  simp only [scalar, Reader.getScalar]
  generalize r.getRaw p.size = raw at h ⊢
  obtain ⟨_ | bytes, r'⟩ := raw
  · exact h
  · exact h

theorem Moves.decodeEach {c : Codec} (hc : c.Moves) (items : List Value) (r : Reader) :
    r.MovedTo (c.decodeEach items r).reader := by
  induction items generalizing r with
  | nil => exact .refl r
  | cons v items ih =>
    have hv := hc v r
    rw [decodeEach_cons]
    cases h : (c.decodeInto v r).error with
    | some e =>
      simp only [h]
      exact hv
    | none =>
      simp only [h]
      exact hv.trans (ih _)

end Codec

theorem Decoded.orKeep_reader {α : Type} (old : α) (d : Decoded α) :
    (d.orKeep old).reader = d.reader := by
  rw [orKeep]
  cases d.error <;> rfl

namespace ResolvedRecord

variable {codecs : Element → Codec} {r : ResolvedRecord} {f : ResolvedField}

theorem movedTo_askedLength (r : ResolvedRecord) (f : ResolvedField) (fields : Fields)
    (reader : Reader) : reader.MovedTo (r.askedLength f fields reader).2 := by
  have h := reader.movedTo_getRaw 4
  rw [askedLength]
  cases f.countField.bind (r.fields[·]?) with
  | some count => exact .refl reader
  | none =>
    dsimp only
    generalize reader.getRaw 4 = raw at h ⊢
    obtain ⟨_ | bytes, reader'⟩ := raw
    · exact h
    · exact h

theorem Coherent.run_moves (hr : r.Coherent) (hc : ∀ f ∈ r.fields, (codecs f.kind.element).Moves)
    {step : DecodeStep} (hstep : step ∈ r.plan.decode) (fields : Fields) (reader : Reader) :
    reader.MovedTo (step.run codecs r.layout.allocators fields reader).reader := by
  obtain ⟨f, hf, hstep⟩ := decodesBy_of_mem_plan hstep
  have hc := hc f hf
  cases hstep with
  | @value e access hk =>
    rw [hk] at hc
    cases access with
    | reference => exact hc _ reader
    | copy =>
      rw [DecodeStep.run, Decoded.orKeep_reader]
      exact hc _ reader
  | block hk =>
    have h := reader.movedTo_getRaw (fields.get f.ident).items.length
    rw [DecodeStep.run]
    generalize reader.getRaw (fields.get f.ident).items.length = raw at h ⊢
    obtain ⟨_ | bytes, reader'⟩ := raw
    · exact h
    · exact h
  | items access he hk =>
    subst he
    cases access with
    | reference => exact hc.decodeEach _ reader
    | copy =>
      rw [DecodeStep.run, Decoded.orKeep_reader]
      exact hc.decodeEach _ reader
  | @sizing e hk =>
    have h := r.movedTo_askedLength f fields reader
    rw [hr.run_sizingStep hf hk]
    generalize r.askedLength f fields reader = asked at h ⊢
    obtain ⟨_ | n, reader'⟩ := asked
    · exact h
    · dsimp only
      cases reader'.checkSequence (codecs e).minSize n with
      | error e => exact h
      | ok m => exact h

theorem Coherent.moves (hr : r.Coherent) (hc : ∀ f ∈ r.fields, (codecs f.kind.element).Moves) :
    (r.codec codecs).Moves := by
  intro v start
  apply runDecode_invariant (P := fun _ reader => start.MovedTo reader) ?_ (.refl start)
  intro step hstep fields reader h
  exact h.trans (hr.run_moves hc hstep fields reader)

end ResolvedRecord

namespace Resolved

section Moves

variable {s : Resolved} {outside : String → Codec} {r : ResolvedRecord} {f : ResolvedField}
  {e : Element} {fields : Fields} {reader : Reader} {a b : Call} (hs : s.Sound)
  (ho : ∀ name ∈ s.foreignTypes, (outside name).Moves)
include hs ho

theorem Sound.moves (hr : r ∈ s.records) :
    ∀ f ∈ r.fields, (s.elementCodec outside f.kind.element).Moves := by
  apply hs.field_induction (P := fun e => (s.elementCodec outside e).Moves) ?_ ho ?_ hr
  · exact Codec.scalar_moves
  · intro r hr hfields
    rw [hs.elementCodec_record hr]
    exact (hs.coherent r hr).moves hfields

theorem Sound.comesTo_moved (hr : r ∈ s.records) {old : Fields} {start : Reader} {step : DecodeStep}
    (h : r.ComesTo (s.elementCodec outside) old start step fields reader) :
    start.MovedTo reader := by
  apply h.invariant (P := fun _ reader => start.MovedTo reader) ?_ (.refl start)
  intro step hstep fields reader h
  exact h.trans ((hs.coherent r hr).run_moves (hs.moves ho hr) hstep fields reader)

theorem Calls.moved (h : s.Calls outside a b) : a.reader.MovedTo b.reader := by
  cases h with
  | inPlace hr h => exact hs.comesTo_moved ho hr h
  | copied hr h => exact hs.comesTo_moved ho hr h
  | @item _ _ _ reader _ _ _ _ _ done _ _ _ _ hr h _ heach =>
    obtain ⟨f, hf, hstep⟩ := h.decodesBy
    obtain ⟨-, rfl, -⟩ := hstep.readElements
    have hmoved := (hs.moves ho hr f hf).decodeEach done reader
    rw [heach] at hmoved
    exact (hs.comesTo_moved ho hr h).trans hmoved

theorem Sizes.moved (h : s.Sizes outside a r f e fields reader) : a.reader.MovedTo reader := by
  obtain ⟨v, start, hcalls, hcomes⟩ := h.reached
  have hstart : ∀ b, Relation.ReflTransGen (s.Calls outside) a b → a.reader.MovedTo b.reader := by
    intro b hcalls
    induction hcalls with
    | refl => exact .refl _
    | tail _ hstep ih => exact ih.trans (hstep.moved hs ho)
  exact (hstart _ hcalls).trans (hs.comesTo_moved ho h.mem hcomes)

end Moves

end Resolved

/-! ## Every resize -/

theorem mem_resizes_runDecode {codecs : Element → Codec} {allocators : List Allocator}
    {steps : List DecodeStep} {old : Fields} {start : Reader} {z : Resize}
    (h : z ∈ (runDecode codecs allocators steps old start).resizes) :
    ∃ before step after fields reader resizes, steps = before ++ step :: after ∧
      runDecode codecs allocators before old start =
        { value := fields, reader := reader, resizes := resizes } ∧
      z ∈ (step.run codecs allocators fields reader).resizes := by
  induction steps generalizing old start with
  | nil => cases h
  | cons step steps ih =>
    rw [runDecode, Decoded.andThen] at h
    cases hrun : step.run codecs allocators old start with
    | mk fields reader resizes error =>
      cases error with
      | some e =>
        rw [hrun] at h
        exact ⟨[], step, steps, old, start, [], rfl, rfl, hrun ▸ h⟩
      | none =>
        simp only [hrun, List.mem_append] at h
        rcases h with h | h
        · exact ⟨[], step, steps, old, start, [], rfl, rfl, hrun ▸ h⟩
        · obtain ⟨before, step', after, fields', reader', resizes', rfl, hbefore, hz⟩ := ih h
          refine ⟨step :: before, step', after, fields', reader', resizes ++ resizes', rfl, ?_, hz⟩
          rw [runDecode, hrun, Decoded.andThen]
          simp only [hbefore]

theorem Codec.scalar_resizes (p : Primitive) (v : Value) (r : Reader) :
    ((scalar p).decodeInto v r).resizes = [] := by
  simp only [scalar]
  rcases r.getScalar p with ⟨_ | bits, r'⟩ <;> rfl

theorem Codec.mem_resizes_decodeEach {c : Codec} {items : List Value} {start : Reader} {z : Resize}
    (h : z ∈ (c.decodeEach items start).resizes) :
    ∃ done v rest values reader resizes, items = done ++ v :: rest ∧
      c.decodeEach done start = { value := values, reader := reader, resizes := resizes } ∧
      z ∈ (c.decodeInto v reader).resizes := by
  induction items generalizing start with
  | nil => cases h
  | cons v items ih =>
    rw [decodeEach_cons] at h
    cases hrun : c.decodeInto v start with
    | mk value reader resizes error =>
      cases error with
      | some e =>
        rw [hrun] at h
        exact ⟨[], v, items, [], start, [], rfl, rfl, hrun ▸ h⟩
      | none =>
        simp only [hrun, List.mem_append] at h
        rcases h with h | h
        · exact ⟨[], v, items, [], start, [], rfl, rfl, hrun ▸ h⟩
        · obtain ⟨done, v', rest, values, reader', resizes', rfl, hdone, hz⟩ := ih h
          refine ⟨v :: done, v', rest, value :: values, reader', resizes ++ resizes', rfl, ?_, hz⟩
          rw [decodeEach_cons, hrun]
          simp only [hdone]

theorem Decoded.orKeep_resizes {α : Type} (old : α) (d : Decoded α) :
    (d.orKeep old).resizes = d.resizes := by
  rw [orKeep]
  cases d.error <;> rfl

namespace Resolved

/-- The resize `z` is made where the decode `call` sizes a sequence, or by a foreign decoder that it
calls. -/
def Makes (s : Resolved) (outside : String → Codec) (call : Call) (z : Resize) : Prop :=
  (∃ r f e fields reader, s.Sizes outside call r f e fields reader ∧
    z ∈ ((r.sizingStep f e).run (s.elementCodec outside) r.layout.allocators fields
      reader).resizes) ∨
  ∃ name v reader, Relation.ReflTransGen (s.Calls outside) call ⟨.foreign name, v, reader⟩ ∧
    z ∈ ((outside name).decodeInto v reader).resizes

variable {s : Resolved} {outside : String → Codec} {r : ResolvedRecord} {a b : Call} {z : Resize}

theorem Makes.of_calls (h : s.Calls outside a b) (hz : s.Makes outside b z) :
    s.Makes outside a z := by
  rcases hz with ⟨r, f, e, fields, reader, hsizes, hz⟩ | ⟨name, v, reader, hcalls, hz⟩
  · obtain ⟨v, start, hcalls, hcomes⟩ := hsizes.reached
    exact .inl ⟨r, f, e, fields, reader,
      ⟨hsizes.mem, hsizes.field, hsizes.kind, v, start, .head h hcalls, hcomes⟩, hz⟩
  · exact .inr ⟨name, v, reader, .head h hcalls, hz⟩

/-- Every resize that shows in the outcome was made at a place that the decode came by. -/
theorem Sound.makes_of_mem (hs : s.Sound) (hr : r ∈ s.records) :
    ∀ v reader, ∀ z ∈ ((s.elementCodec outside (.record r.name)).decodeInto v reader).resizes,
      s.Makes outside ⟨.record r.name, v, reader⟩ z := by
  apply hs.record_induction (P := fun e => ∀ v reader,
    ∀ z ∈ ((s.elementCodec outside e).decodeInto v reader).resizes,
      s.Makes outside ⟨e, v, reader⟩ z) ?_ ?_ ?_ hr
  · intro p v reader z hz
    have hz : z ∈ ((Codec.scalar p).decodeInto v reader).resizes := hz
    rw [Codec.scalar_resizes] at hz
    cases hz
  · intro name _ v reader z hz
    exact .inr ⟨name, v, reader, .refl, hz⟩
  · intro r hr hfields v reader z hz
    rw [hs.elementCodec_record hr] at hz
    obtain ⟨before, step, after, fields, reader', resizes, hplan, hrun, hz⟩ :=
      mem_resizes_runDecode hz
    have hcomes : r.ComesTo (s.elementCodec outside) v.fields reader step fields reader' :=
      ⟨before, after, resizes, hplan, hrun⟩
    obtain ⟨f, hf, hstep⟩ := hcomes.decodesBy
    -- A sizing step makes its resize here; any other hands on what was made further in.
    cases hstep with
    | @value e access hk =>
      have he := hfields f hf
      rw [hk] at he
      cases access with
      | reference => exact .of_calls (.inPlace hr hcomes) (he _ _ z hz)
      | copy =>
        rw [DecodeStep.run, Decoded.orKeep_resizes] at hz
        exact .of_calls (.copied hr hcomes) (he _ _ z hz)
    | @block p n hk =>
      rw [DecodeStep.run] at hz
      generalize reader'.getRaw (fields.get f.ident).items.length = raw at hz
      obtain ⟨_ | bytes, reader''⟩ := raw
      · cases hz
      · cases hz
    | items access he hk =>
      subst he
      have hz : z ∈ ((s.elementCodec outside f.kind.element).decodeEach
          (fields.get f.ident).items reader').resizes := by
        cases access with
        | reference => exact hz
        | copy =>
          rw [DecodeStep.run, Decoded.orKeep_resizes] at hz
          exact hz
      obtain ⟨done, item, rest, values, reader'', resizes', hitems, heach, hz⟩ :=
        Codec.mem_resizes_decodeEach hz
      exact .of_calls (.item hr hcomes hitems heach) (hfields f hf item reader'' z hz)
    | @sizing e hk =>
      exact .inl ⟨r, f, e, fields, reader', ⟨hr, hf, hk, v, reader, .refl, hcomes⟩, hz⟩

end Resolved

/-! ## The guard -/

/-- What comes of sizing the sequence `ident` of `fields`, by the length it asks for and the reader
behind that length.  It gets as many elements only if that many are within the limit and could be in
the bytes that are left; otherwise all fields keep what they had.  The product is that of numbers
without bound, and only the error that reports it is cut to a machine word. -/
inductive Sized (fields : Fields) (ident : String) (element : Codec) :
    Except WireError Nat × Reader → Decoded Fields → Prop
  | resized {n : Nat} {r : Reader} : n ≤ r.limit → n * element.minSize ≤ r.remaining →
    ((fields.resize ident n element.initial).get ident).items.length = n →
    Sized fields ident element (.ok n, r)
      { value := fields.resize ident n element.initial
        reader := r
        resizes := [⟨n, element.minSize, r.remaining⟩] }
  | tooLong {n : Nat} {r : Reader} : r.limit < n →
    Sized fields ident element (.ok n, r)
      { value := fields, reader := r, error := some (.sequenceTooLong n r.limit) }
  | tooShort {n : Nat} {r : Reader} : n ≤ r.limit → r.remaining < n * element.minSize →
    Sized fields ident element (.ok n, r)
      { value := fields
        reader := r
        error := some (.bufferTooShort (saturate (n * element.minSize)) r.remaining) }
  | unread {e : WireError} {r : Reader} :
    Sized fields ident element (.error e, r) { value := fields, reader := r, error := some e }

/-- A product that is cut to a machine word is over the bytes of a buffer only if it is so uncut. -/
theorem lt_saturate_iff {m n : Nat} (h : m < 2 ^ 63) : m < saturate n ↔ m < n := by
  rw [saturate, maxSize, Nat.lt_min]
  constructor
  · exact And.left
  · intro hn
    refine ⟨hn, ?_⟩
    show m < 2 ^ 64 - 1
    omega

theorem Fields.length_resize {fields : Fields} {ident : String} (h : ident ∈ fields.map Prod.fst)
    (n : Nat) (filler : Value) : ((fields.resize ident n filler).get ident).items.length = n := by
  rw [resize, get_set_self h, Value.items, length_resizeTo]

theorem ResolvedRecord.Coherent.sized {r : ResolvedRecord} (hr : r.Coherent) {f : ResolvedField}
    (hf : f ∈ r.fields) {e : Element} (hk : f.kind = .sequence e) (codecs : Element → Codec)
    {fields : Fields} (hfields : f.ident ∈ fields.map Prod.fst) {reader : Reader}
    (hbuffer : reader.buffer.length < 2 ^ 63) :
    Sized fields f.ident (codecs e) (r.askedLength f fields reader)
      ((r.sizingStep f e).run codecs r.layout.allocators fields reader) := by
  have hmoved := r.movedTo_askedLength f fields reader
  rw [hr.run_sizingStep hf hk]
  generalize r.askedLength f fields reader = asked at hmoved ⊢
  obtain ⟨_ | n, reader'⟩ := asked
  · exact .unread
  have hremaining : reader'.remaining < 2 ^ 63 := by
    obtain ⟨position, rfl⟩ := hmoved
    exact Nat.lt_of_le_of_lt (Nat.sub_le ..) hbuffer
  -- The limit comes first, so a length that is both too long and too much is reported as too long.
  simp only [Reader.checkSequence, Reader.checkLength]
  by_cases hlimit : reader'.limit < n
  · simp only [if_pos hlimit]
    exact .tooLong hlimit
  · have hle : n ≤ reader'.limit := Nat.not_lt.mp hlimit
    simp only [if_neg hlimit, lt_saturate_iff hremaining]
    by_cases hshort : reader'.remaining < n * (codecs e).minSize
    · simp only [if_pos hshort]
      exact .tooShort hle hshort
    · simp only [if_neg hshort]
      exact .resized hle (Nat.not_lt.mp hshort) (Fields.length_resize hfields n _)

/-- For every accepted schema, every reader and every value of a record that is decoded into,
wherever decoding comes to size a sequence it goes as `Sized` says, at any depth and whatever comes
after.  The reader is then in the buffer and under the limit that it started with, as long as
foreign decoders leave them alone.  No sequence is resized anywhere else, except by a foreign
decoder. -/
theorem resizes_guarded {schema : Schema} {s : Resolved} (built : schema.Built)
    (accepted : schema.resolve.result = .ok s)
    (distinct : ∀ r ∈ s.records, (r.fields.map (·.ident)).Nodup) (outside : String → Codec)
    {r : ResolvedRecord} (mem : r ∈ s.records) :
    ∃ c, s.codec? outside r.name = some c ∧
      ∀ v, s.Typed (fun _ _ => True) (.record r.name) v → ∀ start : Reader,
        (∀ r' f e fields reader, s.Sizes outside ⟨.record r.name, v, start⟩ r' f e fields reader →
          (reader.buffer.length < 2 ^ 63 →
            Sized fields f.ident (s.elementCodec outside e) (r'.askedLength f fields reader)
              ((r'.sizingStep f e).run (s.elementCodec outside) r'.layout.allocators fields
                reader)) ∧
          ((∀ name ∈ s.foreignTypes, (outside name).Moves) → start.MovedTo reader)) ∧
        ∀ z ∈ (c.decodeInto v start).resizes, s.Makes outside ⟨.record r.name, v, start⟩ z := by
  have hs := built.sound accepted
  refine ⟨_, hs.codec?_eq mem, fun v hv start => ⟨?_, hs.makes_of_mem mem v start⟩⟩
  intro r' f e fields reader hsizes
  refine ⟨fun hbuffer => ?_, fun hmoves => hsizes.moved hs hmoves⟩
  have hforeign : ∀ name ∈ s.foreignTypes, (outside name).Keeps fun _ => True :=
    fun _ _ => ⟨trivial, fun _ _ _ => trivial⟩
  have ht := hsizes.typed hs distinct hforeign hv
  exact (hs.coherent r' hsizes.mem).sized hsizes.field hsizes.kind _ (ht.mem_names hsizes.field)
    hbuffer

theorem Timestamp.moves : codec.Moves := by
  rw [codec_eq]
  apply coherent.moves
  intro f hf
  obtain ⟨-, p, hk⟩ := element_of_mem hf
  rw [hk]
  exact Codec.scalar_moves p

namespace Sample

/-- The sequence of a track that is counted. -/
def fixesField : ResolvedField :=
  trackRecord.fields[1]

/-- A count of 127 fixes with only two bytes behind it. -/
def hostileReader (position : Nat) : Reader :=
  { buffer := [127, 0, 0], order := .bigEndian, position := position }

theorem sizes_hostile :
    resolved.Sizes outside ⟨.record "Track", track 1, hostileReader 0⟩ trackRecord fixesField
      (.record "Fix") (track 127).fields (hostileReader 1) where
  mem := by simp [records]
  field := List.getElem_mem _
  kind := rfl
  reached := ⟨track 1, hostileReader 0, .refl,
    [.readValue "n" (.primitive .int8) .reference], _, [], rfl, rfl⟩

theorem track_typed_any (n : BitVec Primitive.int8.width) :
    resolved.Typed (fun _ _ => True) (.record "Track") (track n) :=
  (track_typed n).mono fun _ _ _ => trivial

end Sample

/-- The track keeps the one fix it had. -/
theorem hostile_track_guarded :
    ∃ c, Sample.resolved.codec? Sample.outside "Track" = some c ∧
      Sized (Sample.track 127).fields "fixes"
        (Sample.resolved.elementCodec Sample.outside (.record "Fix"))
        (.ok 127, Sample.hostileReader 1)
        { value := (Sample.track 127).fields
          reader := Sample.hostileReader 1
          error := some (.bufferTooShort 1778 2) } ∧
      (Sample.hostileReader 0).MovedTo (Sample.hostileReader 1) := by
  have mem : Sample.trackRecord ∈ Sample.resolved.records := by simp [Sample.records]
  have hmoves : ∀ name ∈ Sample.resolved.foreignTypes, (Sample.outside name).Moves :=
    fun _ _ => Timestamp.moves
  obtain ⟨c, hc, h⟩ :=
    resizes_guarded Sample.built Sample.accepted Sample.distinct Sample.outside mem
  obtain ⟨hsized, hmoved⟩ := (h _ (Sample.track_typed_any 1) _).1 _ _ _ _ _ Sample.sizes_hostile
  exact ⟨c, hc, hsized (by decide), hmoved hmoves⟩

end RecordWire
