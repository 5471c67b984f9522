import RecordWire.Layout
import RecordWire.Plan
import RecordWire.Proofs.FixedLayout
import RecordWire.Proofs.Words

/-!
How the steps of a codec reach the fields of a packed record.  In such a record a field may stand at
any address, so only a field that needs no alignment can be borrowed.  The choice between borrowing
and copying is made field by field and asks only whether the field is a primitive, or an array of
them; that it does not ask what is inside an embedded record is right because every record inside a
packed one is packed as well.
-/

namespace RecordWire

/-! ## Steps and fields -/

/-- How the step reaches its field.  A block is borrowed whole. -/
def EncodeStep.access : EncodeStep → Access
  | .writeValue _ _ access | .writeElements _ _ access => access
  | .writeBlock _ | .writeLengthPrefix _ => .reference

def DecodeStep.access : DecodeStep → Access
  | .readValue _ _ access | .readElements _ _ access => access
  | .readBlock _ _ | .allocate _ _ _ | .readLengthPrefix _ _ => .reference

theorem Primitive.size_pos (p : Primitive) : 0 < p.size := by
  cases p <;> decide

namespace FieldKind

/-- A block has elements of one byte, and these are borrowed in any record. -/
theorem access_of_isByte {p : Primitive} (hp : p.isByte = true) (packed : Bool) (n : Nat) :
    access packed (.array (.primitive p) n) = .reference := by
  rw [access, Primitive.size_of_isByte hp]
  cases packed <;> rfl

theorem access_primitive {kind : FieldKind} {p : Primitive} (h : kind.isSequence = false)
    (he : kind.element = .primitive p) :
    kind.access true = if 1 < p.size then .copy else .reference := by
  cases kind with
  | single e =>
    cases he
    simp [access]
  | array e n =>
    cases he
    simp [access]
  | sequence e => cases h

theorem access_record {kind : FieldKind} {name : String} (he : kind.element = .record name)
    (packed : Bool) : kind.access packed = .reference := by
  cases kind <;> cases he <;> rfl

end FieldKind

/-- A field in place is written by one step and read by one step, both with the access of its
kind. -/
theorem ResolvedRecord.steps_of_not_sequence (r : ResolvedRecord) {f : ResolvedField}
    (hs : f.kind.isSequence = false) :
    (∃ step, r.encodeSteps f = [step] ∧ step.field = f.ident ∧
        step.access = f.kind.access r.fixedLayout) ∧
      ∃ step, r.decodeSteps f = [step] ∧ step.field = f.ident ∧
        step.access = f.kind.access r.fixedLayout := by
  rw [encodeSteps, decodeSteps]
  cases hk : f.kind with
  | single e => exact ⟨⟨_, rfl, rfl, rfl⟩, _, rfl, rfl, rfl⟩
  | array e n =>
    cases e with
    | record name => exact ⟨⟨_, rfl, rfl, rfl⟩, _, rfl, rfl, rfl⟩
    | foreign name => exact ⟨⟨_, rfl, rfl, rfl⟩, _, rfl, rfl, rfl⟩
    | primitive p =>
      by_cases hp : p.isByte = true
      · have haccess := FieldKind.access_of_isByte hp r.fixedLayout n
        simp only [if_pos hp]
        exact ⟨⟨_, rfl, rfl, haccess.symm⟩, _, rfl, rfl, haccess.symm⟩
      · simp only [if_neg hp]
        exact ⟨⟨_, rfl, rfl, rfl⟩, _, rfl, rfl, rfl⟩
  | sequence e =>
    rw [hk] at hs
    cases hs

/-- Where every element gives one result, the results go along with the elements. -/
theorem forall₂_flatMap {α β : Type} {R : α → β → Prop} {g : α → List β} {l : List α}
    (h : ∀ a ∈ l, ∃ b, g a = [b] ∧ R a b) : List.Forall₂ R l (l.flatMap g) := by
  induction l with
  | nil => exact .nil
  | cons a l ih =>
    rw [List.forall_mem_cons] at h
    obtain ⟨⟨b, hb, hab⟩, hl⟩ := h
    rw [List.flatMap_cons, hb]
    exact .cons hab (ih hl)

/-! ## Storage -/

namespace Resolved

/-- The alignment of an element in memory: the size of a primitive, and one for a packed record.  It
is not given for foreign types and for records with gaps. -/
def elementAlignment? (s : Resolved) : Element → Option Nat
  | .primitive p => some p.size
  | .record name => (s.getRecord? name).bind fun r => if r.layout.packed then some 1 else none
  | .foreign _ => none

/-- An array is aligned as its elements are. -/
def alignment? (s : Resolved) : FieldKind → Option Nat
  | .single e | .array e _ => s.elementAlignment? e
  | .sequence _ => none

/-- Data that can be copied byte by byte: primitives, and records that are declared so and have
nothing else in them. -/
inductive CopyData (s : Resolved) : Element → Prop
  | primitive (p : Primitive) : CopyData s (.primitive p)
  | record {r : ResolvedRecord} (mem : r ∈ s.records)
      (derives : r.layout.derives = "Debug, Clone, Copy, PartialEq")
      (inPlace : ∀ f ∈ r.fields, f.kind.isSequence = false)
      (fields : ∀ f ∈ r.fields, CopyData s f.kind.element) : CopyData s (.record r.name)

/-- The field can be reached in this way wherever it stands: it is borrowed only if it has alignment
one, it is copied only if it has a larger one, and all that it holds can be copied. -/
structure ReachedSafely (s : Resolved) (f : ResolvedField) (access : Access) : Prop where
  aligned : ∃ n, s.alignment? f.kind = some n ∧
    ((access = .reference ∧ n = 1) ∨ (access = .copy ∧ 1 < n))
  inPlace : f.kind.isSequence = false
  copyData : s.CopyData f.kind.element

variable {s : Resolved} {r : ResolvedRecord}

theorem Sound.elementAlignment?_record (hs : s.Sound) (hr : r ∈ s.records)
    (hfixed : r.fixedLayout = true) : s.elementAlignment? (.record r.name) = some 1 := by
  rw [elementAlignment?, hs.getRecord?_eq_some.mpr ⟨hr, rfl⟩]
  exact if_pos hfixed

theorem alignment?_of_not_sequence {kind : FieldKind} (h : kind.isSequence = false) :
    s.alignment? kind = s.elementAlignment? kind.element := by
  cases kind with
  | single e => rfl
  | array e n => rfl
  | sequence e => cases h

/-- All that stands in a packed record is packed, so that it can be copied. -/
theorem Sound.copyData (hs : s.Sound) (hl : s.Settled) (hr : r ∈ s.records) :
    r.fixedLayout = true → ∀ f ∈ r.fields, s.CopyData f.kind.element := by
  apply hs.embeds_induction (P := fun r =>
    r.fixedLayout = true → ∀ f ∈ r.fields, s.CopyData f.kind.element) ?_ hr
  intro r hr ih hfixed f hf
  obtain ⟨hrigid, hinside⟩ := (hs.fixedLayout_step hl hr).mp hfixed
  rcases hs.field_cases hr hf with ⟨p, he⟩ | ⟨name, -, he⟩ | ⟨r', hr', he⟩
  · rw [he]
    exact .primitive p
  · exact absurd he (hrigid.element_ne_foreign hf name)
  · have hfixed' := hinside r' (inlines_of_element hf (hrigid f hf).1 he hr'.1)
    have hrigid' := ((hs.fixedLayout_step hl hr'.1).mp hfixed').1
    rw [he]
    exact .record hr'.1 (if_pos hfixed') (fun g hg => (hrigid' g hg).1) (ih r' hr' hfixed')

theorem Sound.reachedSafely (hs : s.Sound) (hl : s.Settled) (hr : r ∈ s.records)
    (hfixed : r.fixedLayout = true) {f : ResolvedField} (hf : f ∈ r.fields) :
    s.ReachedSafely f (f.kind.access r.fixedLayout) := by
  obtain ⟨hrigid, hinside⟩ := (hs.fixedLayout_step hl hr).mp hfixed
  have hplace := (hrigid f hf).1
  refine ⟨?_, hplace, hs.copyData hl hr hfixed f hf⟩
  rw [alignment?_of_not_sequence hplace, hfixed]
  rcases hs.field_cases hr hf with ⟨p, he⟩ | ⟨name, -, he⟩ | ⟨r', hr', he⟩
  · rw [FieldKind.access_primitive hplace he, he]
    refine ⟨p.size, rfl, ?_⟩
    by_cases hp : 1 < p.size
    · exact .inr ⟨if_pos hp, hp⟩
    · refine .inl ⟨if_neg hp, ?_⟩
      have hpos : 0 < p.size := p.size_pos
      omega
  · exact absurd he (hrigid.element_ne_foreign hf name)
  · have hfixed' := hinside r' (inlines_of_element hf hplace he hr'.1)
    rw [FieldKind.access_record he, he]
    exact ⟨1, hs.elementAlignment?_record hr'.1 hfixed', .inl ⟨rfl, rfl⟩⟩

end Resolved

/-- For every accepted schema and every packed record, all records inside it are packed, and encoding
and decoding take one step for each field.  A step borrows its field exactly if that has alignment
one and copies it exactly if it has a larger one, and what it copies is plain data. -/
theorem packed_fields_reached_safely {schema : Schema} {s : Resolved} (built : schema.Built)
    (accepted : schema.resolve.result = .ok s) {r : ResolvedRecord} (mem : r ∈ s.records)
    (packed : r.fixedLayout = true) :
    (∀ r', Relation.TransGen s.Inlines r r' → r'.fixedLayout = true) ∧
      List.Forall₂ (fun f step => step.field = f.ident ∧ s.ReachedSafely f step.access)
        r.fields r.plan.encode ∧
      List.Forall₂ (fun f step => step.field = f.ident ∧ s.ReachedSafely f step.access)
        r.fields r.plan.decode := by
  have hs := built.sound accepted
  have hl := built.settled accepted
  have hrigid := ((hs.fixedLayout_step hl mem).mp packed).1
  refine ⟨fun r' h => hs.fixedLayout_of_reaches hl mem packed h.to_reflTransGen, ?_, ?_⟩
  · apply forall₂_flatMap
    intro f hf
    obtain ⟨⟨step, hstep, hfield, haccess⟩, -⟩ := r.steps_of_not_sequence (hrigid f hf).1
    exact ⟨step, hstep, hfield, haccess ▸ hs.reachedSafely hl mem packed hf⟩
  · apply forall₂_flatMap
    intro f hf
    obtain ⟨-, step, hstep, hfield, haccess⟩ := r.steps_of_not_sequence (hrigid f hf).1
    exact ⟨step, hstep, hfield, haccess ▸ hs.reachedSafely hl mem packed hf⟩

/-- The corners of a board are borrowed, since points are packed, and the coordinates of a point are
copied. -/
theorem corners_borrowed_coordinates_copied :
    Sample.boardRecord.fixedLayout = true ∧ Sample.pointRecord.fixedLayout = true ∧
      List.Forall₂ (fun f step => step.field = f.ident ∧
          Sample.boardsResolved.ReachedSafely f step.access)
        Sample.boardRecord.fields
        [EncodeStep.writeElements "corners" (.record "Point") .reference,
          .writeValue "mark" (.primitive .char) .reference] ∧
      List.Forall₂ (fun f step => step.field = f.ident ∧
          Sample.boardsResolved.ReachedSafely f step.access)
        Sample.pointRecord.fields
        [DecodeStep.readValue "x" (.primitive .int16) .copy,
          .readValue "y" (.primitive .int16) .copy] := by
  have board : Sample.boardRecord ∈ Sample.boardsResolved.records := by
    simp [Sample.boards_records]
  have point : Sample.pointRecord ∈ Sample.boardsResolved.records := by
    simp [Sample.boards_records]
  refine ⟨rfl, rfl, ?_, ?_⟩
  · exact (packed_fields_reached_safely Sample.boards_built Sample.boards_accepted board rfl).2.1
  · exact (packed_fields_reached_safely Sample.boards_built Sample.boards_accepted point rfl).2.2

end RecordWire
