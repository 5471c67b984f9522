import RecordWire.Proofs.CodecTable
import RecordWire.Proofs.Values

/-!
Decoding keeps a value in its type.  Whether it comes to its end or fails on the way, what it leaves
behind is a value of the same record: under the same names, with arrays of their declared length,
and so at every depth.
-/

namespace RecordWire

/-! ## Fields by name -/

namespace Fields

variable {fields : Fields} {ident : String}

theorem map_fst_set (fields : Fields) (ident : String) (v : Value) :
    (fields.set ident v).map Prod.fst = fields.map Prod.fst := by
  induction fields with
  | nil => rfl
  | cons entry fields ih =>
    obtain ⟨name, old⟩ := entry
    rw [set]
    by_cases h : name = ident
    · rw [if_pos h, List.map_cons, List.map_cons]
    · rw [if_neg h, List.map_cons, List.map_cons, ih]

theorem get_cons (name : String) (v : Value) (fields : Fields) (ident : String) :
    Fields.get ((name, v) :: fields) ident = if ident = name then v else fields.get ident := by
  rw [get, get, List.lookup_cons]
  by_cases h : ident = name
  · rw [if_pos h, beq_iff_eq.mpr h, Option.getD_some]
  · rw [if_neg h, beq_eq_false_iff_ne.mpr h]

theorem get_set_self (h : ident ∈ fields.map Prod.fst) (v : Value) :
    (fields.set ident v).get ident = v := by
  induction fields with
  | nil => simp at h
  | cons entry fields ih =>
    obtain ⟨name, old⟩ := entry
    rw [set]
    by_cases hname : name = ident
    · rw [if_pos hname, get_cons, if_pos hname.symm]
    · rw [if_neg hname, get_cons, if_neg (Ne.symm hname)]
      exact ih ((List.mem_cons.mp h).resolve_left (Ne.symm hname))

theorem get_set_of_ne {other : String} (h : other ≠ ident) (v : Value) :
    (fields.set ident v).get other = fields.get other := by
  induction fields with
  | nil => rfl
  | cons entry fields ih =>
    obtain ⟨name, old⟩ := entry
    rw [set]
    by_cases hname : name = ident
    · rw [if_pos hname, get_cons, get_cons, if_neg (hname ▸ h), if_neg (hname ▸ h)]
    · rw [if_neg hname, get_cons, get_cons, ih]

end Fields

theorem Reader.length_getRaw {reader reader' : Reader} {n : Nat} {bytes : List UInt8}
    (h : reader.getRaw n = (.ok bytes, reader')) : bytes.length = n := by
  rw [getRaw] at h
  by_cases hn : reader.remaining < n
  · rw [if_pos hn] at h
    cases h
  · rw [if_neg hn] at h
    cases h
    rw [List.length_take, rest, List.length_drop]
    rw [remaining] at hn
    omega

/-! ## Codecs that keep a type -/

theorem Decoded.orKeep_value {α : Type} {p : α → Prop} {old : α} (hold : p old) {d : Decoded α}
    (h : p d.value) : p (d.orKeep old).value := by
  rw [orKeep]
  cases d.error with
  | some e => exact hold
  | none => exact h

/-- A new value is in the type, and decoding does not leave it. -/
structure Codec.Keeps (c : Codec) (typed : Value → Prop) : Prop where
  initial : typed c.initial
  decodeInto : ∀ v, typed v → ∀ r, typed (c.decodeInto v r).value

namespace Codec

theorem scalar_keeps {p : Primitive} {typed : Value → Prop} (h : ∀ bits, typed (.scalar p bits)) :
    (scalar p).Keeps typed where
  initial := h 0
  decodeInto := by
    intro v hv r
    simp only [scalar]
    rcases r.getScalar p with ⟨_ | bits, r'⟩
    · exact hv
    · exact h bits

theorem length_decodeEach (c : Codec) (items : List Value) (r : Reader) :
    (c.decodeEach items r).value.length = items.length := by
  induction items generalizing r with
  | nil => rfl
  | cons v items ih =>
    rw [decodeEach_cons]
    cases h : (c.decodeInto v r).error with
    | some e => simp [h, Decoded.map]
    | none => simp [h, ih]

theorem Keeps.decodeEach {c : Codec} {typed : Value → Prop} (hc : c.Keeps typed)
    {items : List Value} (hitems : ∀ v ∈ items, typed v) (r : Reader) :
    ∀ v ∈ (c.decodeEach items r).value, typed v := by
  induction items generalizing r with
  | nil => exact hitems
  | cons v items ih =>
    rw [List.forall_mem_cons] at hitems
    have hv := hc.decodeInto v hitems.1 r
    rw [decodeEach_cons]
    cases h : (c.decodeInto v r).error with
    | some e =>
      simp only [h, Decoded.map]
      exact List.forall_mem_cons.mpr ⟨hv, hitems.2⟩
    | none =>
      simp only [h]
      exact List.forall_mem_cons.mpr ⟨hv, ih hitems.2 _⟩

end Codec

/-! ## Records -/

namespace FieldKind

theorem hasShape_list {kind : FieldKind} {v : Value} (h : kind.HasShape v) {items : List Value}
    (hl : items.length = v.items.length) : kind.HasShape (.list items) := by
  cases kind with
  | single e => trivial
  | array e n =>
    obtain ⟨old, rfl, hn⟩ := h
    exact ⟨items, rfl, hl.trans hn⟩
  | sequence e => exact ⟨items, rfl⟩

theorem parts_of_ne {kind : FieldKind} (h : ∀ e, kind ≠ .single e) (v : Value) :
    kind.parts v = v.items := by
  cases kind with
  | single e => exact absurd rfl (h e)
  | array e n => rfl
  | sequence e => rfl

theorem hasShape_initial (codecs : Element → Codec) (kind : FieldKind) :
    kind.HasShape (kind.initial codecs) := by
  cases kind with
  | single e => trivial
  | array e n => exact ⟨_, rfl, List.length_replicate⟩
  | sequence e => exact ⟨_, rfl⟩

theorem mem_parts_initial {codecs : Element → Codec} {kind : FieldKind} {v : Value}
    (h : v ∈ kind.parts (kind.initial codecs)) : v = (codecs kind.element).initial := by
  cases kind with
  | single e => exact List.mem_singleton.mp h
  | array e n => exact List.eq_of_mem_replicate h
  | sequence e => cases h

end FieldKind

namespace ResolvedRecord

variable {r : ResolvedRecord} {typed : Element → Value → Prop} {codecs : Element → Codec}
  {fields : Fields} {f : ResolvedField}

theorem Typed.mem_names (ht : r.Typed typed fields) (hf : f ∈ r.fields) :
    f.ident ∈ fields.map Prod.fst := by
  rw [ht.names]
  exact List.mem_map_of_mem hf

/-- A field may be set to any value of its own type. -/
theorem Typed.set (ht : r.Typed typed fields) (hd : (r.fields.map (·.ident)).Nodup)
    (hf : f ∈ r.fields) {v : Value} (shape : f.kind.HasShape v)
    (parts : ∀ u ∈ f.kind.parts v, typed f.kind.element u) :
    r.Typed typed (fields.set f.ident v) := by
  have hget : ∀ g ∈ r.fields, (g = f ∧ (fields.set f.ident v).get g.ident = v) ∨
      (fields.set f.ident v).get g.ident = fields.get g.ident := by
    intro g hg
    by_cases h : g.ident = f.ident
    · obtain rfl := List.inj_on_of_nodup_map hd hg hf h
      exact .inl ⟨rfl, Fields.get_set_self (ht.mem_names hf) v⟩
    · exact .inr (Fields.get_set_of_ne h v)
  refine ⟨(Fields.map_fst_set ..).trans ht.names, fun g hg => ?_, fun g hg => ?_⟩
  · rcases hget g hg with ⟨rfl, h⟩ | h
    · rw [h]
      exact shape
    · rw [h]
      exact ht.shape g hg
  · rcases hget g hg with ⟨rfl, h⟩ | h
    · rw [h]
      exact parts
    · rw [h]
      exact ht.parts g hg

theorem Typed.resize (ht : r.Typed typed fields) (hd : (r.fields.map (·.ident)).Nodup)
    (hf : f ∈ r.fields) {e : Element} (hk : f.kind = .sequence e) {filler : Value}
    (hfiller : typed e filler) (n : Nat) : r.Typed typed (fields.resize f.ident n filler) := by
  have hold := ht.parts f hf
  apply ht.set hd hf
  · rw [hk]
    exact ⟨_, rfl⟩
  · rw [hk] at hold ⊢
    intro u hu
    rcases mem_resizeTo hu with hu | rfl
    · exact hold u hu
    · exact hfiller

/-- One step of the plan. -/
theorem Coherent.run_typed (hr : r.Coherent) (hd : (r.fields.map (·.ident)).Nodup)
    (hp : ∀ p bits, typed (.primitive p) (.scalar p bits))
    (hc : ∀ f ∈ r.fields, (codecs f.kind.element).Keeps (typed f.kind.element))
    {step : DecodeStep} (hstep : step ∈ r.plan.decode) (reader : Reader)
    (ht : r.Typed typed fields) :
    r.Typed typed (step.run codecs r.layout.allocators fields reader).value := by
  obtain ⟨f, hf, hstep⟩ := decodesBy_of_mem_plan hstep
  have hc := hc f hf
  have hshape := ht.shape f hf
  have hparts := ht.parts f hf
  cases hstep with
  | @value e access hk =>
    rw [hk, FieldKind.element] at hc hparts
    have hset : ∀ v, typed e v → r.Typed typed (fields.set f.ident v) := by
      intro v hv
      apply ht.set hd hf
      · rw [hk]
        trivial
      · rw [hk]
        exact List.forall_mem_singleton.mpr hv
    have hold : typed e (fields.get f.ident) := hparts _ (List.mem_singleton.mpr rfl)
    -- A field that is borrowed takes even a half-decoded value, a copy is written back when done.
    cases access with
    | reference => exact hset _ (hc.decodeInto _ hold reader)
    | copy => exact Decoded.orKeep_value ht (hset _ (hc.decodeInto _ hc.initial reader))
  | @block p n hk =>
    rw [DecodeStep.run]
    cases hraw : reader.getRaw (fields.get f.ident).items.length with
    | mk result reader' =>
      cases result with
      | error e => exact ht
      | ok bytes =>
        have hl := Reader.length_getRaw hraw
        apply ht.set hd hf
        · exact FieldKind.hasShape_list hshape (by rw [List.length_map, hl])
        · rw [hk]
          intro v hv
          obtain ⟨b, -, rfl⟩ := List.mem_map.mp hv
          exact hp p _
  | items access he hk =>
    subst he
    rw [FieldKind.parts_of_ne hk] at hparts
    have hset : r.Typed typed (fields.set f.ident (.list
        ((codecs f.kind.element).decodeEach (fields.get f.ident).items reader).value)) := by
      apply ht.set hd hf
      · exact FieldKind.hasShape_list hshape (Codec.length_decodeEach ..)
      · rw [FieldKind.parts_of_ne hk]
        exact hc.decodeEach hparts reader
    cases access with
    | reference => exact hset
    | copy => exact Decoded.orKeep_value ht hset
  | @sizing e hk =>
    rw [hk, FieldKind.element] at hc
    rw [hr.run_sizingStep hf hk]
    rcases r.askedLength f fields reader with ⟨_ | n, reader'⟩
    · exact ht
    · dsimp only
      cases reader'.checkSequence (codecs e).minSize n with
      | error e => exact ht
      | ok m => exact ht.resize hd hf hk hc.initial n

theorem fields_initial (r : ResolvedRecord) (codecs : Element → Codec) :
    (r.codec codecs).initial.fields = r.fields.map fun f => (f.ident, f.kind.initial codecs) := by
  simp only [codec, layout, Value.fields, List.map_map]
  rfl

theorem names_initial (r : ResolvedRecord) (codecs : Element → Codec) :
    (r.codec codecs).initial.fields.map Prod.fst = r.fields.map (·.ident) := by
  rw [fields_initial, List.map_map]
  rfl

theorem get_initial (hd : (r.fields.map (·.ident)).Nodup) (hf : f ∈ r.fields) :
    (r.codec codecs).initial.fields.get f.ident = f.kind.initial codecs := by
  apply Fields.get_of_mem (r.names_initial codecs ▸ hd)
  rw [fields_initial]
  exact List.mem_map_of_mem hf

theorem initial_typed (hd : (r.fields.map (·.ident)).Nodup)
    (hc : ∀ f ∈ r.fields, (codecs f.kind.element).Keeps (typed f.kind.element)) :
    r.Typed typed (r.codec codecs).initial.fields := by
  refine ⟨r.names_initial codecs, fun f hf => ?_, fun f hf v hv => ?_⟩
  · rw [get_initial hd hf]
    exact f.kind.hasShape_initial codecs
  · rw [get_initial hd hf] at hv
    rw [FieldKind.mem_parts_initial hv]
    exact (hc f hf).initial

/-- A record stays in its type if its elements stay in theirs. -/
theorem Coherent.keeps (hr : r.Coherent) (hd : (r.fields.map (·.ident)).Nodup)
    (hp : ∀ p bits, typed (.primitive p) (.scalar p bits))
    (hc : ∀ f ∈ r.fields, (codecs f.kind.element).Keeps (typed f.kind.element)) :
    (r.codec codecs).Keeps fun v => ∃ fields, v = .record fields ∧ r.Typed typed fields where
  initial := ⟨_, rfl, initial_typed hd hc⟩
  decodeInto := by
    rintro _ ⟨fields, rfl, ht⟩ reader
    refine ⟨_, rfl, ?_⟩
    apply runDecode_invariant (P := fun fields _ => r.Typed typed fields) ?_ ht
    intro step hstep fields reader ht
    exact hr.run_typed hd hp hc hstep reader ht

end ResolvedRecord

namespace Resolved

variable {s : Resolved} {outside : String → Codec} {values : String → Value → Prop}
  {r : ResolvedRecord}

theorem Typed.mono {values' : String → Value → Prop}
    (hv : ∀ name v, values name v → values' name v) {e : Element} {v : Value}
    (h : s.Typed values e v) : s.Typed values' e v := by
  induction h with
  | primitive p bits => exact .primitive p bits
  | foreign h => exact .foreign (hv _ _ h)
  | record hr names shape _ ih => exact .record hr names shape ih

/-- Decoding leaves each part of a record in its type, at every depth. -/
theorem Sound.keeps_typed (hs : s.Sound) (hd : ∀ r ∈ s.records, (r.fields.map (·.ident)).Nodup)
    (ho : ∀ name ∈ s.foreignTypes, (outside name).Keeps (values name)) (hr : r ∈ s.records) :
    ∀ f ∈ r.fields,
      (s.elementCodec outside f.kind.element).Keeps (s.Typed values f.kind.element) := by
  apply hs.field_induction
    (P := fun e => (s.elementCodec outside e).Keeps (s.Typed values e)) ?_ ?_ ?_ hr
  · intro p
    exact Codec.scalar_keeps (.primitive p)
  · intro name hname
    refine ⟨.foreign (ho name hname).initial, fun v hv reader => ?_⟩
    cases hv with
    | foreign hv => exact .foreign ((ho name hname).decodeInto v hv reader)
  · intro r hr hfields
    have hkeeps := (hs.coherent r hr).keeps (hd r hr) .primitive hfields
    have htyped : ∀ v, s.Typed values (.record r.name) v ↔
        ∃ fields, v = .record fields ∧ r.Typed (s.Typed values) fields := by
      have hfound := hs.getRecord?_eq_some.mpr ⟨hr, rfl⟩
      refine fun v => ⟨typed_record hfound, ?_⟩
      rintro ⟨fields, rfl, ht⟩
      exact .record hfound ht.names ht.shape ht.parts
    rw [hs.elementCodec_record hr]
    exact ⟨(htyped _).mpr hkeeps.initial, fun v hv reader =>
      (htyped _).mpr (hkeeps.decodeInto v ((htyped v).mp hv) reader)⟩

end Resolved
end RecordWire
