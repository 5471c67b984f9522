import RecordWire.Codec
import RecordWire.Proofs.Words

/-!
The least size of a record.  A plan adds up what it knows of the fields in machine words, and a sum
or a product that does not fit is cut to the largest word.  The least size is the sum over the
fields in numbers without bound, less what was cut.
-/

namespace RecordWire

theorem saturate_le (n : Nat) : saturate n ≤ n :=
  Nat.min_le_left ..

theorem saturate_eq {n : Nat} (h : n ≤ maxSize) : saturate n = n :=
  Nat.min_eq_left h

theorem minSize_of_isByte {codecs : Element → Codec}
    (hscalar : ∀ p, codecs (.primitive p) = .scalar p) {p : Primitive} (hb : p.isByte = true) :
    (codecs (.primitive p)).minSize = 1 := by
  rw [hscalar]
  exact Primitive.size_of_isByte hb

/-- No encoding of the field is shorter than this. -/
def ResolvedField.minSize (codecs : Element → Codec) (f : ResolvedField) : Nat :=
  match f.kind with
  | .single e => (codecs e).minSize
  | .array e n => n * (codecs e).minSize
  | .sequence _ => if f.countField.isSome then 0 else 4

namespace WireSize

/-- Neither the product nor the sum is cut when so many elements are added. -/
def FitsElement (s : WireSize) (repetitions : Nat) : Element → Prop
  | .primitive p => p.size * repetitions ≤ maxSize ∧ s.fixed + p.size * repetitions ≤ maxSize
  | .record _ | .foreign _ => True

/-- Nothing is cut when a field of that kind is added. -/
def FitsKind (s : WireSize) (counted : Bool) : FieldKind → Prop
  | .single e => s.FitsElement 1 e
  | .array e n => s.FitsElement n e
  | .sequence _ => counted = false → s.fixed + 4 ≤ maxSize

def FitsField (s : WireSize) (f : ResolvedField) : Prop :=
  s.FitsKind f.countField.isSome f.kind

/-- Nothing is cut when the fields are added one after the other. -/
def FitsAll : WireSize → List ResolvedField → Prop
  | _, [] => True
  | s, f :: rest => s.FitsField f ∧ FitsAll (s.addField f) rest

instance (s : WireSize) (n : Nat) : ∀ e, Decidable (s.FitsElement n e)
  | .primitive p =>
    inferInstanceAs (Decidable (p.size * n ≤ maxSize ∧ s.fixed + p.size * n ≤ maxSize))
  | .record _ | .foreign _ => inferInstanceAs (Decidable True)

instance (s : WireSize) (counted : Bool) : ∀ kind, Decidable (s.FitsKind counted kind)
  | .single e => inferInstanceAs (Decidable (s.FitsElement 1 e))
  | .array e n => inferInstanceAs (Decidable (s.FitsElement n e))
  | .sequence _ => inferInstanceAs (Decidable (counted = false → s.fixed + 4 ≤ maxSize))

instance (s : WireSize) (f : ResolvedField) : Decidable (s.FitsField f) :=
  inferInstanceAs (Decidable (s.FitsKind f.countField.isSome f.kind))

instance decidableFitsAll : ∀ (s : WireSize) (fs : List ResolvedField), Decidable (s.FitsAll fs)
  | _, [] => inferInstanceAs (Decidable True)
  | s, f :: rest =>
    have := decidableFitsAll (s.addField f) rest
    inferInstanceAs (Decidable (s.FitsField f ∧ (s.addField f).FitsAll rest))

theorem resolve_eq (codecs : Element → Codec) (s : WireSize) :
    s.resolve codecs =
      s.fixed + (s.terms.map fun term => term.1 * (codecs term.2).minSize).sum := by
  obtain ⟨fixed, terms⟩ := s
  simp only [resolve]
  induction terms generalizing fixed with
  | nil => rfl
  | cons term terms ih => rw [List.foldl_cons, ih, List.map_cons, List.sum_cons, Nat.add_assoc]

section Adding

variable (s : WireSize)

theorem resolve_addFixed (codecs : Element → Codec) (n : Nat) :
    ∃ cut, (s.addFixed n).resolve codecs + cut = s.resolve codecs + n ∧
      (s.fixed + n ≤ maxSize → cut = 0) := by
  have hle := saturate_le (s.fixed + n)
  refine ⟨s.fixed + n - saturate (s.fixed + n), ?_, fun h => ?_⟩
  · rw [resolve_eq, resolve_eq, addFixed]
    dsimp only
    omega
  · rw [saturate_eq h, Nat.sub_self]

variable {codecs : Element → Codec} (hscalar : ∀ p, codecs (.primitive p) = .scalar p)
include hscalar

theorem resolve_addElement (n : Nat) (e : Element) :
    ∃ cut, (s.addElement n e).resolve codecs + cut = s.resolve codecs + n * (codecs e).minSize ∧
      (s.FitsElement n e → cut = 0) := by
  cases e with
  | primitive p =>
    have hle := saturate_le (p.size * n)
    have hsize : n * (codecs (.primitive p)).minSize = p.size * n := by
      rw [hscalar, Nat.mul_comm]
      rfl
    obtain ⟨cut, hcut, hfits⟩ := s.resolve_addFixed codecs (saturate (p.size * n))
    refine ⟨cut + (p.size * n - saturate (p.size * n)), ?_, fun h => ?_⟩
    · rw [hsize, addElement]
      omega
    · rw [saturate_eq h.1] at hfits ⊢
      rw [hfits h.2, Nat.sub_self]
  | record name => exact ⟨0, by simp [addElement, resolve], fun _ => rfl⟩
  | foreign name => exact ⟨0, by simp [addElement, resolve], fun _ => rfl⟩

theorem resolve_addField (f : ResolvedField) :
    ∃ cut, (s.addField f).resolve codecs + cut = s.resolve codecs + f.minSize codecs ∧
      (s.FitsField f → cut = 0) := by
  rw [addField, ResolvedField.minSize, FitsField]
  cases f.kind with
  | single e =>
    have h := s.resolve_addElement hscalar 1 e
    rwa [Nat.one_mul] at h
  | array e n => exact s.resolve_addElement hscalar n e
  | sequence e =>
    cases f.countField.isSome with
    | true => exact ⟨0, rfl, fun _ => rfl⟩
    | false =>
      obtain ⟨cut, hcut, hfits⟩ := s.resolve_addFixed codecs 4
      exact ⟨cut, hcut, fun h => hfits (h rfl)⟩

theorem resolve_foldl (fs : List ResolvedField) :
    ∃ cut, (fs.foldl addField s).resolve codecs + cut =
        s.resolve codecs + (fs.map (·.minSize codecs)).sum ∧
      (s.FitsAll fs → cut = 0) := by
  induction fs generalizing s with
  | nil => exact ⟨0, rfl, fun _ => rfl⟩
  | cons f fs ih =>
    obtain ⟨cut, hcut, hfits⟩ := s.resolve_addField hscalar f
    obtain ⟨cut', hcut', hfits'⟩ := ih (s.addField f)
    refine ⟨cut + cut', ?_, fun h => ?_⟩
    · rw [List.foldl_cons, List.map_cons, List.sum_cons]
      omega
    · rw [hfits h.1, hfits' h.2]

end Adding

end WireSize

namespace ResolvedRecord

/-- No sum and no product is cut on the way to the known bytes of the record. -/
def Unsaturated (r : ResolvedRecord) : Prop :=
  WireSize.FitsAll {} r.fields

instance (r : ResolvedRecord) : Decidable r.Unsaturated :=
  inferInstanceAs (Decidable (WireSize.FitsAll {} r.fields))

variable {codecs : Element → Codec} (hscalar : ∀ p, codecs (.primitive p) = .scalar p)
include hscalar

theorem exists_minSize_add_cut (r : ResolvedRecord) :
    ∃ cut, (r.codec codecs).minSize + cut = (r.fields.map (·.minSize codecs)).sum ∧
      (r.Unsaturated → cut = 0) := by
  obtain ⟨cut, hcut, hfits⟩ := WireSize.resolve_foldl {} hscalar r.fields
  have hzero : ({} : WireSize).resolve codecs = 0 := rfl
  rw [hzero, Nat.zero_add] at hcut
  exact ⟨cut, hcut, hfits⟩

theorem minSize_le (r : ResolvedRecord) :
    (r.codec codecs).minSize ≤ (r.fields.map (·.minSize codecs)).sum := by
  obtain ⟨cut, hcut, -⟩ := r.exists_minSize_add_cut hscalar
  omega

theorem minSize_eq {r : ResolvedRecord} (hr : r.Unsaturated) :
    (r.codec codecs).minSize = (r.fields.map (·.minSize codecs)).sum := by
  obtain ⟨cut, hcut, hfits⟩ := r.exists_minSize_add_cut hscalar
  have hzero := hfits hr
  omega

end ResolvedRecord
end RecordWire
