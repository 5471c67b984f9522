import RecordWire.Proofs.DocumentSpelling
import RecordWire.Proofs.Resolution
import RecordWire.Proofs.TypeSpelling

/-!
Fields without a type.  A document is refused if the type of a field is empty once it is trimmed, so
no single element and no array is left without the name of its type.  A sequence has a type even if
nothing stands between its brackets, and then it is accepted with elements of a foreign type whose
name is empty.
-/

namespace RecordWire

namespace Json

variable {α β σ : Type} {P : α → Prop} {Q : β → Prop}

/-! ## What readers yield -/

/-- Every value that is read has the property. -/
def Shape.Yields (shape : Shape α) (P : α → Prop) : Prop :=
  ∀ ts a rest, shape.read ts = .ok (a, rest) → P a

namespace Shape

theorem yields_true (shape : Shape α) : shape.Yields fun _ => True :=
  fun _ _ _ _ => trivial

theorem Yields.map {shape : Shape α} (h : shape.Yields P) {f : α → β} (hf : ∀ a, P a → Q (f a)) :
    (shape.map f).Yields Q := by
  intro ts b rest hread
  simp only [Shape.map] at hread
  split at hread
  · rename_i a rest' ha
    cases hread
    exact hf a (h ts a _ ha)
  · cases hread

theorem Yields.readElements {item : Shape α} (h : item.Yields P) {ts rest : List Token}
    {as : List α} (hread : Shape.readElements item ts = .ok (as, rest)) : ∀ a ∈ as, P a := by
  fun_induction Shape.readElements item ts generalizing as with
  | case1 | case3 | case4 | case6 => cases hread
  | case2 =>
    cases hread
    exact List.forall_mem_nil P
  | case5 rest' a rest'' ha as' rest₃ heq ih =>
    cases hread
    exact List.forall_mem_cons.mpr ⟨h _ _ _ ha, ih heq⟩

theorem Yields.list {item : Shape α} (h : item.Yields P) :
    (Shape.list item).Yields fun as => ∀ a ∈ as, P a := by
  intro ts as rest hread
  simp only [Shape.list, readList] at hread
  split at hread
  · cases hread
  · cases hread
    exact List.forall_mem_nil P
  · split at hread
    · cases hread
    · rename_i ha
      split at hread
      · cases hread
      · rename_i has
        cases hread
        exact List.forall_mem_cons.mpr ⟨h _ _ _ ha, h.readElements has⟩
  · cases hread

end Shape

namespace ObjectShape

variable {o : ObjectShape σ} {P : σ → Prop}

/-- An object has the property before its members are read, and reading a member keeps it. -/
structure Preserves (o : ObjectShape σ) (P : σ → Prop) : Prop where
  blank : P o.blank
  member : ∀ m ∈ o.members, m.value.Yields fun update => ∀ value, P value → P (update value)

theorem Preserves.readValue (h : o.Preserves P) {p p' : Progress σ} {key : String}
    {ts rest : List Token} (hp : P p.value) (hread : o.readValue p key ts = .ok (p', rest)) :
    P p'.value := by
  unfold ObjectShape.readValue at hread
  split at hread
  · rename_i m hm
    have hmem : m ∈ o.members := List.mem_of_find?_eq_some hm
    split at hread
    · cases hread
    · split at hread
      · split at hread
        · rename_i hupdate
          cases hread
          exact h.member m hmem _ _ _ hupdate _ hp
        · cases hread
      · cases hread
      · cases hread
  -- The value of an unknown key is skipped and changes nothing.
  · split at hread
    · split at hread
      · cases hread
        exact hp
      · cases hread
    · cases hread
    · cases hread

theorem Preserves.readMember (h : o.Preserves P) {p p' : Progress σ} {ts rest : List Token}
    (hp : P p.value) (hread : o.readMember p ts = .ok (p', rest)) : P p'.value := by
  unfold ObjectShape.readMember at hread
  split at hread
  · exact h.readValue hp hread
  all_goals cases hread

theorem value_of_finish {p : Progress σ} {value : σ} (h : o.finish p = .ok value) :
    value = p.value := by
  rw [finish] at h
  split at h <;> cases h
  rfl

theorem Preserves.readMembers (h : o.Preserves P) {p : Progress σ} {ts rest : List Token}
    {value : σ} (hp : P p.value) (hread : o.readMembers p ts = .ok (value, rest)) : P value := by
  fun_induction ObjectShape.readMembers o p ts with
  | case1 | case4 | case5 | case6 => cases hread
  | case2 p ts p' rest' hmember ih => exact ih (h.readMember hp hmember) hread
  | case3 p ts p' rest' hmember value' hfinish =>
    cases hread
    rw [value_of_finish hfinish]
    exact h.readMember hp hmember

theorem Preserves.readPositional (h : o.Preserves P) {position : Nat} {value value' : σ}
    {first : Bool} {members : List (Member σ)} {ts rest : List Token}
    (hmembers : ∀ m ∈ members, m ∈ o.members) (hvalue : P value)
    (hread : o.readPositional position value first members ts = .ok (value', rest)) :
    P value' := by
  induction members generalizing position value first ts with
  | nil =>
    unfold ObjectShape.readPositional at hread
    split at hread <;> cases hread
    exact hvalue
  | cons m members ih =>
    obtain ⟨hm, hrest⟩ := List.forall_mem_cons.mp hmembers
    unfold ObjectShape.readPositional at hread
    split at hread
    · cases hread
    · split at hread
      · cases hread
      · exact ih hrest hvalue hread
    · split at hread
      · cases hread
      · rename_i hupdate
        exact ih hrest (h.member m hm _ _ _ hupdate _ hvalue) hread

/-- What reading a member keeps holds of every object that is read, in either form. -/
theorem Preserves.yields (h : o.Preserves P) : o.shape.Yields P := by
  intro ts value rest hread
  simp only [shape, read] at hread
  split at hread
  · cases hread
  · split at hread
    · rename_i hfinish
      cases hread
      rw [value_of_finish hfinish]
      exact h.blank
    · cases hread
  · exact h.readMembers h.blank hread
  · exact h.readPositional (fun _ hm => hm) h.blank hread
  · cases hread

end ObjectShape

end Json

/-! ## Type names of a document -/

theorem Text.trim_eq_empty_iff {s : String} : trim s = "" ↔ allBlank s = true := by
  constructor
  · intro h
    have hcut : dropBlankEnd (dropBlankStart s.toList) = [] := by
      rw [trim, ← String.toList_inj, String.toList_ofList] at h
      exact h
    -- What is left after the start is cut does not start with a blank, so it is empty.
    rw [dropBlankEnd_eq, List.rdropWhile_eq_nil_iff] at hcut
    have hstart : dropBlankStart s.toList = [] := by
      rw [dropBlankStart, ← List.dropWhile_idempotent, List.dropWhile_eq_nil_iff]
      exact hcut
    exact List.all_eq_true.mpr (List.dropWhile_eq_nil_iff.mp hstart)
  · intro h
    have hpad := trim_padded h (show allBlank "" = true from rfl) ""
    rwa [String.append_empty, String.append_empty] at hpad

namespace Document

open Json

/-- No type of a field of the record has blanks around it. -/
def TypesTrimmed (record : RecordDef) : Prop :=
  ∀ field ∈ record.fields, Text.trim field.typeName = field.typeName

theorem fieldShape_yields :
    fieldShape.shape.Yields fun field => Text.trim field.typeName = field.typeName := by
  refine ObjectShape.Preserves.yields ⟨rfl, ?_⟩
  simp only [fieldShape, List.forall_mem_cons]
  refine ⟨?_, ?_, ?_, ?_, List.forall_mem_nil _⟩
  · exact (Shape.yields_true _).map fun _ _ _ h => h
  · exact (Shape.yields_true _).map fun s _ _ _ => Text.trim_trim s
  · exact (Shape.yields_true _).map fun _ _ _ h => h
  · exact (Shape.yields_true _).map fun _ _ _ h => h

theorem recordShape_yields : recordShape.shape.Yields TypesTrimmed := by
  refine ObjectShape.Preserves.yields ⟨List.forall_mem_nil _, ?_⟩
  simp only [recordShape, List.forall_mem_cons]
  refine ⟨?_, ?_, ?_, List.forall_mem_nil _⟩
  · exact (Shape.yields_true _).map fun _ _ _ h => h
  · exact (Shape.yields_true _).map fun _ _ _ h => h
  · exact fieldShape_yields.list.map fun _ h _ _ => h

theorem draftShape_yields :
    draftShape.shape.Yields fun draft => ∀ record ∈ draft.records, TypesTrimmed record := by
  refine ObjectShape.Preserves.yields ⟨List.forall_mem_nil _, ?_⟩
  simp only [draftShape, List.forall_mem_cons]
  refine ⟨?_, ?_, ?_, List.forall_mem_nil _⟩
  · exact (Shape.yields_true _).map fun _ _ _ h => h
  · exact (Shape.yields_true _).map fun _ _ _ h => h
  · exact recordShape_yields.list.map fun _ h _ _ => h

theorem Draft.records_of_toSchema {d : Draft} {schema : Schema} (h : d.toSchema = .ok schema) :
    schema.records = d.records := by
  have hadd : ∀ start : Schema, start.records = [] →
      (d.records.foldl Schema.addRecord start).records = d.records := by
    intro start hstart
    rw [(Schema.foldl_addRecord d.records start).2.2, hstart, List.nil_append]
  rw [toSchema] at h
  split at h
  · cases h
    exact hadd _ (by split <;> rfl)
  · split at h
    · cases h
      exact hadd _ (by split <;> rfl)
    · cases h

end Document

/-- The types of the fields of a document are trimmed when it is read. -/
theorem Schema.typesTrimmed_of_ofText {text : String} {schema : Schema}
    (h : Schema.ofText text = .ok schema) :
    ∀ record ∈ schema.records, Document.TypesTrimmed record := by
  rw [ofText] at h
  split at h
  · rename_i draft hdraft
    rw [Document.Draft.records_of_toSchema h]
    rw [Document.readDraft] at hdraft
    split at hdraft
    · rename_i hread
      cases hdraft
      exact Document.draftShape_yields _ _ _ hread
    · cases hdraft
    · cases hdraft
  · cases h

/-! ## Empty types -/

/-- A sequence type with only blanks between its brackets. -/
def SpellsEmptySequence (typeName : String) : Prop :=
  ∃ opening ∈ sequenceOpenings, ∃ blanks, Text.allBlank blanks = true ∧
    typeName = opening ++ blanks ++ ">"

theorem spellsEmptySequence_iff {typeName : String} (htrim : Text.trim typeName = typeName) :
    SpellsEmptySequence typeName ↔ sequenceElement? typeName = some "" := by
  rw [sequenceElement?_eq_some_iff, htrim, SpellsEmptySequence]
  simp only [Text.trim_eq_empty_iff, and_comm]

namespace FieldDef

variable {field : FieldDef} {records : List String} {record : String} {kind : FieldKind}

theorem isSequence_of_kind (h : field.kind records record = .ok kind) :
    kind.isSequence = (sequenceElement? field.typeName).isSome := by
  rw [FieldDef.kind] at h
  simp only [sequenceElement?_trim] at h
  split at h
  · cases h
  · cases h
  · rename_i hs
    cases h
    rw [hs]
    rfl
  · rename_i hs
    split at h <;> cases h
    rw [hs]
    rfl
  · rename_i hs
    cases h
    rw [hs]
    rfl

/-- Only the name between the brackets of a sequence can be empty, if the type as a whole is not. -/
theorem elementName_eq_empty_iff (htrim : Text.trim field.typeName = field.typeName)
    (hne : field.typeName ≠ "") :
    field.elementName = "" ↔ sequenceElement? field.typeName = some "" := by
  rw [elementName]
  cases hs : sequenceElement? field.typeName with
  | none => simp [htrim, hne]
  | some inner => simp

end FieldDef

/-- In every accepted document a field has a type without a name just if it is written as a sequence
with nothing in it, and then it is a sequence. -/
theorem empty_foreign_name_iff {text : String} {schema : Schema} {s : Resolved}
    (read : Schema.ofText text = .ok schema) (accepted : schema.resolve.result = .ok s)
    {r : ResolvedRecord} (hr : r ∈ s.records) {f : ResolvedField} (hf : f ∈ r.fields) :
    (f.kind.foreignName? = some "" ↔ SpellsEmptySequence f.typeName) ∧
      (f.kind.foreignName? = some "" → f.kind = .sequence (.foreign "")) := by
  obtain ⟨hnames, kinds, order, hkinds, -, rfl⟩ := Schema.resolve_ok_iff.mp accepted
  have hn := schema.checkNames_ok_iff.mp hnames
  obtain ⟨i, hi⟩ := List.mem_iff_getElem?.mp hr
  obtain ⟨record, _, hrecord, -, -, field, hfield, htype, hkind⟩ :=
    (Schema.kinds_of_ok hkinds).exists_def hi hf
  have hmem := List.mem_of_getElem? hrecord
  have htrim := Schema.typesTrimmed_of_ofText read record hmem field hfield
  have hne := (hn.fields record hmem).typeName_ne field hfield
  -- The empty name is neither a primitive nor a record.
  have hrecords : "" ∉ schema.records.map (·.name) := by
    intro hempty
    obtain ⟨record', hmem', hname⟩ := List.mem_map.mp hempty
    have hident := hn.isIdentifier record' hmem'
    rw [hname] at hident
    cases hident
  have hsome : f.kind.foreignName? = some "" ↔ sequenceElement? field.typeName = some "" := by
    rw [FieldDef.foreignName?_of_kind hkind, FieldDef.elementName_eq_empty_iff htrim hne]
    exact and_iff_left ⟨by decide, hrecords⟩
  rw [htype, spellsEmptySequence_iff htrim]
  refine ⟨hsome, fun hforeign => ?_⟩
  have hsequence : f.kind.isSequence = true := by
    rw [FieldDef.isSequence_of_kind hkind, hsome.mp hforeign, Option.isSome_some]
  cases hk : f.kind with
  | sequence e =>
    rw [hk] at hforeign
    exact congrArg FieldKind.sequence (Element.foreignName?_eq_some.mp hforeign)
  | single e =>
    rw [hk] at hsequence
    cases hsequence
  | array e n =>
    rw [hk] at hsequence
    cases hsequence

namespace Sample

/-- A document with one field, whose type is a sequence of nothing. -/
def bagText : String :=
  Text.braced ("\"records\": [" ++ Text.braced ("\"name\": \"bag\", \"fields\": [" ++
    Text.braced "\"name\": \"items\", \"type\": \"sequence<>\"" ++ "]") ++ "]")

def bag : Schema where
  records := [{ name := "bag", fields := [{ name := "items", typeName := "sequence<>" }] }]
  positions := [("bag", 0)]

theorem bag_read : Schema.ofText bagText = .ok bag := by
  decide +kernel

def bagResolved : Resolved :=
  bag.resolved [[.sequence (.foreign "")]] [0]

theorem bag_accepted : bag.resolve.result = .ok bagResolved := by
  refine Schema.resolve_ok_iff.mpr ⟨?_, [[.sequence (.foreign "")]], [0], ?_, ?_, rfl⟩
  · decide +kernel
  · decide +kernel
  · decide +kernel

def itemsField : ResolvedField where
  name := "items"
  snakeName := "items"
  ident := "items"
  typeName := "sequence<>"
  comment := none
  kind := .sequence (.foreign "")
  countField := none

def bagRecord : ResolvedRecord where
  name := "bag"
  typeName := "Bag"
  comment := none
  fields := [itemsField]
  fixedLayout := false

theorem bagRecord_mem : bagRecord ∈ bagResolved.records := by
  have hrecords : bagResolved.records = [bagRecord] := by decide +kernel
  rw [hrecords]
  exact List.mem_singleton.mpr rfl

theorem itemsField_mem : itemsField ∈ bagRecord.fields :=
  List.mem_singleton.mpr rfl

end Sample

/-- The items of the bag are of a type without a name, and their type is written with nothing in
it. -/
theorem bag_items_unnamed :
    Schema.ofText Sample.bagText = .ok Sample.bag ∧
      Sample.bag.resolve.result = .ok Sample.bagResolved ∧
      SpellsEmptySequence Sample.itemsField.typeName ∧
      Sample.itemsField.kind = .sequence (.foreign "") := by
  obtain ⟨hspelled, hkind⟩ := empty_foreign_name_iff Sample.bag_read Sample.bag_accepted
    Sample.bagRecord_mem Sample.itemsField_mem
  exact ⟨Sample.bag_read, Sample.bag_accepted, hspelled.mp rfl, hkind rfl⟩

/-- A document may be accepted that has a field of an empty type. -/
theorem bag_of_nothing_accepted :
    ∃ schema s r f, Schema.ofText Sample.bagText = .ok schema ∧ schema.resolve.result = .ok s ∧
      r ∈ s.records ∧ f ∈ r.fields ∧ f.kind = .sequence (.foreign "") :=
  ⟨Sample.bag, Sample.bagResolved, Sample.bagRecord, Sample.itemsField, Sample.bag_read,
    Sample.bag_accepted, Sample.bagRecord_mem, Sample.itemsField_mem, rfl⟩

end RecordWire
