import Mathlib.Data.List.DropRight
import Mathlib.Data.List.Forall2
import RecordWire.Schema.Kind

/-!
What a field holds, read off its type name.  The name of its elements settles which element it
holds, and a kind is found unless the declared length is zero or sequences would nest.
-/

namespace RecordWire

namespace Text

theorem dropBlankEnd_eq (cs : List Char) : dropBlankEnd cs = cs.rdropWhile isBlank := rfl

/-- A list that does not start with a blank does not start with one after its end is cut. -/
theorem dropBlankStart_dropBlankEnd {cs : List Char} (h : dropBlankStart cs = cs) :
    dropBlankStart (dropBlankEnd cs) = dropBlankEnd cs := by
  rw [dropBlankStart, List.dropWhile_eq_self_iff] at h ⊢
  intro hl
  have hcut : dropBlankEnd cs <+: cs := List.rdropWhile_prefix isBlank cs
  rw [hcut.getElem hl]
  exact h (Nat.lt_of_lt_of_le hl hcut.length_le)

theorem trim_trim (s : String) : trim (trim s) = trim s := by
  have hstart : dropBlankStart (dropBlankStart s.toList) = dropBlankStart s.toList :=
    List.dropWhile_idempotent isBlank s.toList
  rw [trim, trim, String.toList_ofList, dropBlankStart_dropBlankEnd hstart, dropBlankEnd_eq,
    dropBlankEnd_eq, List.rdropWhile_idempotent]

end Text

theorem sequenceElement?_trim (typeName : String) :
    sequenceElement? (Text.trim typeName) = sequenceElement? typeName := by
  rw [sequenceElement?, sequenceElement?, Text.trim_trim]

theorem trim_of_sequenceElement? {typeName inner : String}
    (h : sequenceElement? typeName = some inner) : Text.trim inner = inner := by
  rw [sequenceElement?, List.findSome?_eq_some_iff] at h
  obtain ⟨_, opening, _, -, h, -⟩ := h
  obtain ⟨cs, -, rfl⟩ := Option.map_eq_some_iff.mp h
  exact Text.trim_trim _

namespace Element

theorem recordName?_eq_some {e : Element} {name : String} :
    e.recordName? = some name ↔ e = .record name := by
  cases e <;> simp [recordName?]

theorem foreignName?_eq_some {e : Element} {name : String} :
    e.foreignName? = some name ↔ e = .foreign name := by
  cases e <;> simp [foreignName?]

theorem recordName?_ofName {records : List String} {typeName name : String} :
    (ofName records typeName).recordName? = some name ↔
      Text.trim typeName = name ∧ Primitive.ofName? name = none ∧ name ∈ records := by
  rw [ofName]
  split
  · rename_i p hp
    simp only [recordName?, reduceCtorEq, false_iff, not_and]
    rintro rfl hnone
    rw [hp] at hnone
    cases hnone
  · rename_i hp
    split
    · rename_i hmem
      simp only [recordName?, Option.some.injEq]
      constructor
      · rintro rfl
        exact ⟨rfl, hp, by simpa using hmem⟩
      · exact fun h => h.1
    · rename_i hmem
      simp only [recordName?, reduceCtorEq, false_iff, not_and]
      rintro rfl -
      simpa using hmem

theorem foreignName?_ofName {records : List String} {typeName name : String} :
    (ofName records typeName).foreignName? = some name ↔
      Text.trim typeName = name ∧ Primitive.ofName? name = none ∧ name ∉ records := by
  rw [ofName]
  split
  · rename_i p hp
    simp only [foreignName?, reduceCtorEq, false_iff, not_and]
    rintro rfl hnone
    rw [hp] at hnone
    cases hnone
  · rename_i hp
    split
    · rename_i hmem
      simp only [foreignName?, reduceCtorEq, false_iff, not_and]
      rintro rfl -
      simpa using hmem
    · rename_i hmem
      simp only [foreignName?, Option.some.injEq]
      constructor
      · rintro rfl
        exact ⟨rfl, hp, by simpa using hmem⟩
      · exact fun h => h.1

theorem not_mem_of_ofName {records : List String} {typeName name : String}
    (h : ofName records typeName = .foreign name) : name ∉ records :=
  (foreignName?_ofName.mp (foreignName?_eq_some.mpr h)).2.2

end Element

namespace FieldDef

variable {field : FieldDef} {records : List String} {record : String}

/-- The name of the type of the elements of a field. -/
def elementName (field : FieldDef) : String :=
  (sequenceElement? field.typeName).getD (Text.trim field.typeName)

theorem trim_elementName (field : FieldDef) : Text.trim field.elementName = field.elementName := by
  rw [elementName]
  cases h : sequenceElement? field.typeName with
  | none => exact Text.trim_trim _
  | some inner => exact trim_of_sequenceElement? h

/-- No array of length zero, no array of sequences, no sequence of sequences. -/
structure Admissible (field : FieldDef) : Prop where
  length_ne : field.length ≠ some 0
  not_both : field.length.isSome = true → sequenceElement? field.typeName = none
  not_nested : ∀ inner, sequenceElement? field.typeName = some inner →
    sequenceElement? inner = none

/-- What an error says about the kind of a field is so. -/
def KindFault (field : FieldDef) (record : String) : SchemaError → Prop
  | .invalidArrayLength r name length =>
    r = record ∧ name = field.name ∧ length = 0 ∧ field.length = some 0
  | .unsupportedElement r name typeName =>
    r = record ∧ name = field.name ∧ typeName = Text.trim field.typeName ∧
      ∃ inner, sequenceElement? field.typeName = some inner ∧
        (field.length.isSome = true ∨ (sequenceElement? inner).isSome = true)
  | _ => False

/-- A kind is found for an admissible field, and any other field is refused for what is wrong with
it. -/
theorem kind_cases (field : FieldDef) (records : List String) (record : String) :
    (∃ kind, field.kind records record = .ok kind ∧ field.Admissible ∧
      kind.element = .ofName records field.elementName) ∨
    (∃ e, field.kind records record = .error e ∧ ¬ field.Admissible ∧
      field.KindFault record e) := by
  rw [kind, elementName]
  simp only [sequenceElement?_trim]
  cases hl : field.length with
  | none =>
    cases hs : sequenceElement? field.typeName with
    | none =>
      refine .inl ⟨_, rfl, ⟨by simp [hl], by simp [hl], by simp [hs]⟩, ?_⟩
      rw [FieldKind.element, Option.getD_none]
    | some inner =>
      by_cases hn : (sequenceElement? inner).isSome = true
      · refine .inr ⟨_, if_pos hn, ?_, rfl, rfl, rfl, inner, hs, .inr hn⟩
        intro ha
        rw [ha.not_nested inner hs] at hn
        cases hn
      · refine .inl ⟨_, if_neg hn, ⟨by simp [hl], by simp [hl], ?_⟩, ?_⟩
        · rintro inner' hs'
          obtain rfl : inner = inner' := Option.some.inj (hs.symm.trans hs')
          simpa using hn
        · rw [FieldKind.element, Option.getD_some]
  | some n =>
    cases n with
    | zero =>
      exact .inr ⟨_, rfl, fun ha => ha.length_ne hl, rfl, rfl, rfl, hl⟩
    | succ n =>
      cases hs : sequenceElement? field.typeName with
      | none =>
        refine .inl ⟨_, rfl, ⟨by simp [hl], fun _ => hs, by simp [hs]⟩, ?_⟩
        rw [FieldKind.element, Option.getD_none]
      | some inner =>
        refine .inr ⟨_, rfl, ?_, rfl, rfl, rfl, inner, hs, .inl (by simp [hl])⟩
        intro ha
        have := ha.not_both (by simp [hl])
        rw [hs] at this
        cases this

theorem admissible_of_kind {kind : FieldKind} (h : field.kind records record = .ok kind) :
    field.Admissible := by
  rcases field.kind_cases records record with ⟨-, -, ha, -⟩ | ⟨e, hk, -⟩
  · exact ha
  · rw [h] at hk
    cases hk

theorem element_of_kind {kind : FieldKind} (h : field.kind records record = .ok kind) :
    kind.element = .ofName records field.elementName := by
  rcases field.kind_cases records record with ⟨kind', hk, -, he⟩ | ⟨e, hk, -⟩
  · rw [h] at hk
    cases hk
    exact he
  · rw [h] at hk
    cases hk

theorem recordName?_of_kind {kind : FieldKind} {name : String}
    (h : field.kind records record = .ok kind) :
    kind.recordName? = some name ↔
      field.elementName = name ∧ Primitive.ofName? name = none ∧ name ∈ records := by
  rw [FieldKind.recordName?, element_of_kind h, Element.recordName?_ofName, trim_elementName]

theorem foreignName?_of_kind {kind : FieldKind} {name : String}
    (h : field.kind records record = .ok kind) :
    kind.foreignName? = some name ↔
      field.elementName = name ∧ Primitive.ofName? name = none ∧ name ∉ records := by
  rw [FieldKind.foreignName?, element_of_kind h, Element.foreignName?_ofName, trim_elementName]

end FieldDef

/-! ## Kinds of a schema -/

theorem forall₂_getElem? {α β : Type} {R : α → β → Prop} {as : List α} {bs : List β}
    (h : List.Forall₂ R as bs) {i : Nat} {a : α} (ha : as[i]? = some a) :
    ∃ b, bs[i]? = some b ∧ R a b := by
  induction h generalizing i with
  | nil => simp at ha
  | cons hab _ ih =>
    cases i with
    | zero =>
      cases ha
      exact ⟨_, rfl, hab⟩
    | succ i => exact ih ha

/-- A check of a whole list ends like the checks of its members. -/
theorem mapM_cases {α β ε : Type} {f : α → Except ε β} {R : α → β → Prop} {F : α → ε → Prop}
    (h : ∀ a, (∃ b, f a = .ok b ∧ R a b) ∨ ∃ e, f a = .error e ∧ F a e) (as : List α) :
    (∃ bs, as.mapM f = .ok bs ∧ List.Forall₂ R as bs) ∨
      ∃ e, as.mapM f = .error e ∧ ∃ a ∈ as, F a e := by
  induction as with
  | nil => exact .inl ⟨[], rfl, .nil⟩
  | cons a as ih =>
    rw [List.mapM_cons]
    rcases h a with ⟨b, hb, hR⟩ | ⟨e, he, hF⟩
    · rw [hb]
      rcases ih with ⟨bs, hbs, hall⟩ | ⟨e, he, a', hmem, hF⟩
      · exact .inl ⟨b :: bs, by rw [hbs]; rfl, .cons hR hall⟩
      · exact .inr ⟨e, by rw [he]; rfl, a', List.mem_cons_of_mem _ hmem, hF⟩
    · rw [he]
      exact .inr ⟨e, rfl, a, List.mem_cons_self .., hF⟩

namespace Schema

/-- `kinds` has the kinds of all fields, record by record. -/
def Kinds (s : Schema) (kinds : List (List FieldKind)) : Prop :=
  List.Forall₂ (fun record ks => List.Forall₂ (fun (field : FieldDef) k =>
    field.kind (s.records.map (·.name)) record.name = .ok k) record.fields ks) s.records kinds

theorem kinds_cases (s : Schema) :
    (∃ kinds, s.kinds = .ok kinds ∧ s.Kinds kinds) ∨
    (∃ e, s.kinds = .error e ∧ ∃ record ∈ s.records, ∃ field ∈ record.fields,
      ¬ field.Admissible ∧ field.KindFault record.name e) := by
  refine mapM_cases (fun record => mapM_cases (fun field => ?_) record.fields) s.records
  rcases field.kind_cases (s.records.map (·.name)) record.name with ⟨k, hk, -⟩ | hfault
  · exact .inl ⟨k, hk, hk⟩
  · exact .inr hfault

theorem kinds_of_ok {s : Schema} {kinds : List (List FieldKind)} (h : s.kinds = .ok kinds) :
    s.Kinds kinds := by
  rcases s.kinds_cases with ⟨kinds', hkinds, hall⟩ | ⟨e, he, -⟩
  · rw [h] at hkinds
    cases hkinds
    exact hall
  · rw [h] at he
    cases he

end Schema
end RecordWire
