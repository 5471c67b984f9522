import RecordWire.Document
import RecordWire.Proofs.Lookup
import RecordWire.Proofs.ObjectReading

/-!
Spellings of a document.  A document says what its module, its byte order and its records are.  It
can be written in many ways, and each of them is read as one schema.
-/

namespace RecordWire

open Json

/-! ## What is written -/

/-- The names of a byte order, in lower case. -/
def ByteOrder.names : ByteOrder → List String
  | bigEndian => ["bigendian", "big-endian", "be"]
  | littleEndian => ["littleendian", "little-endian", "le"]

/-- A name of the byte order, in any case. -/
def ByteOrder.IsNamed (order : ByteOrder) (name : String) : Prop :=
  ∃ spelling ∈ order.names, name.toList.map Char.toLower = spelling.toList

def FieldDef.forms (f : FieldDef) : List MemberForm :=
  [{ name := "name", value := SpellsText f.name },
    { name := "type", value := SpellsText f.typeName },
    { name := "length", otherName := some "arraySize"
      value := SpellsOptional SpellsSize f.length, optional := f.length = none },
    { name := "comment"
      value := SpellsOptional SpellsText f.comment, optional := f.comment = none }]

def FieldDef.Spells (f : FieldDef) (cs : List Char) : Prop :=
  SpellsObject f.forms cs

def RecordDef.forms (r : RecordDef) : List MemberForm :=
  [{ name := "name", value := SpellsText r.name },
    { name := "comment"
      value := SpellsOptional SpellsText r.comment, optional := r.comment = none },
    { name := "fields", otherName := some "members"
      value := SpellsList FieldDef.Spells r.fields, optional := r.fields = [] }]

def RecordDef.Spells (r : RecordDef) (cs : List Char) : Prop :=
  SpellsObject r.forms cs

namespace Document

/-- What a document says. -/
structure Content where
  moduleName : Option String := none
  byteOrder : Option ByteOrder := none
  records : List RecordDef

namespace Content

/-- The members of a document that names its byte order by `orderName`. -/
def forms (c : Content) (orderName : Option String) : List MemberForm :=
  [{ name := "module"
     value := SpellsOptional SpellsText c.moduleName, optional := c.moduleName = none },
    { name := "byteOrder"
      value := SpellsOptional SpellsText orderName, optional := orderName = none },
    { name := "records", otherName := some "structs"
      value := SpellsList RecordDef.Spells c.records }]

/-- The text spells the document, with white space around it. -/
def SpelledBy (c : Content) (text : String) : Prop :=
  ∃ orderName before cs after, Option.Rel ByteOrder.IsNamed c.byteOrder orderName ∧
    Spaces before ∧ SpellsObject (c.forms orderName) cs ∧ Spaces after ∧
    text.toList = before ++ (cs ++ after)

end Content
end Document

/-! ## What is kept -/

/-- The field with its type name trimmed and without a blank comment. -/
def FieldDef.cleaned (f : FieldDef) : FieldDef :=
  { f with
    typeName := Text.trim f.typeName
    comment := f.comment.filter fun c => !Text.allBlank c }

def RecordDef.cleaned (r : RecordDef) : RecordDef :=
  { r with
    comment := r.comment.filter fun c => !Text.allBlank c
    fields := r.fields.map FieldDef.cleaned }

namespace Document.Content

/-- The name of the module, unless it is missing or blank. -/
def title (c : Content) : String :=
  (c.moduleName.filter fun name => !Text.allBlank name).getD "generated_structs"

/-- The schema with the records of the document, one after the other. -/
def schema (c : Content) : Schema :=
  (c.records.map RecordDef.cleaned).foldl Schema.addRecord
    { moduleName := c.title, byteOrder := c.byteOrder.getD .bigEndian }

end Document.Content

/-! ## Reading -/

/-- The field as far as the members in `seen` make it. -/
def FieldDef.part (f : FieldDef) (seen : List String) : FieldDef where
  name := if "name" ∈ seen then f.name else ""
  typeName := if "type" ∈ seen then f.typeName else ""
  length := if "length" ∈ seen then f.length else none
  comment := if "comment" ∈ seen then f.comment else none

def RecordDef.part (r : RecordDef) (seen : List String) : RecordDef where
  name := if "name" ∈ seen then r.name else ""
  comment := if "comment" ∈ seen then r.comment else none
  fields := if "fields" ∈ seen then r.fields else []

theorem ite_eq_left_of_or {α : Type} {p : Prop} [Decidable p] {a b : α} (h : p ∨ a = b) :
    (if p then a else b) = a := by
  rcases h with h | rfl
  · exact if_pos h
  · exact ite_self a

namespace Document

theorem fieldShape_reads (f : FieldDef) :
    fieldShape.Reads f.forms f.cleaned.part f.cleaned where
  members := by
    refine .cons ⟨rfl, rfl, False.elim, fun cs h => ⟨_, (Shape.text_reads h).map _, ?_⟩⟩
      (.cons ⟨rfl, rfl, False.elim, fun cs h => ⟨_, (Shape.text_reads h).map _, ?_⟩⟩
      (.cons ⟨rfl, rfl, fun _ => rfl, fun cs h => ⟨_, (Shape.optionalSize_reads h).map _, ?_⟩⟩
      (.cons ⟨rfl, rfl, fun _ => rfl, fun cs h => ⟨_, (Shape.optionalText_reads h).map _, ?_⟩⟩
      .nil)))
    all_goals
      intro seen
      simp [FieldDef.part, FieldDef.cleaned, unlessBlank]
  distinct := by
    change ["name", "type", "length", "arraySize", "comment"].Nodup
    decide
  blank := rfl
  complete seen h := by
    simp only [FieldDef.forms, List.forall_mem_cons, or_false] at h
    obtain ⟨hname, htype, hlength, hcomment, -⟩ := h
    have hcleaned : f.comment = none → f.cleaned.comment = none := fun hc => by
      rw [FieldDef.cleaned, hc, Option.filter_none]
    have hlength : "length" ∈ seen ∨ f.cleaned.length = none := hlength
    rw [FieldDef.part, if_pos hname, if_pos htype, ite_eq_left_of_or hlength,
      ite_eq_left_of_or (hcomment.imp_right hcleaned)]

theorem recordShape_reads (r : RecordDef) :
    recordShape.Reads r.forms r.cleaned.part r.cleaned where
  members := by
    refine .cons ⟨rfl, rfl, False.elim, fun cs h => ⟨_, (Shape.text_reads h).map _, ?_⟩⟩
      (.cons ⟨rfl, rfl, fun _ => rfl, fun cs h => ⟨_, (Shape.optionalText_reads h).map _, ?_⟩⟩
      (.cons ⟨rfl, rfl, fun _ => rfl, fun cs h => ⟨_, (Shape.list_reads (SpellsList.map
        (fun f _ => (fieldShape_reads f).shape) h)).map _, ?_⟩⟩
      .nil))
    all_goals
      intro seen
      simp [RecordDef.part, RecordDef.cleaned, unlessBlank]
  distinct := by
    change ["name", "comment", "fields", "members"].Nodup
    decide
  blank := rfl
  complete seen h := by
    simp only [RecordDef.forms, List.forall_mem_cons, or_false] at h
    obtain ⟨hname, hcomment, hfields, -⟩ := h
    have hcleaned : r.comment = none → r.cleaned.comment = none := fun hc => by
      rw [RecordDef.cleaned, hc, Option.filter_none]
    have hempty : r.fields = [] → r.cleaned.fields = [] := fun hf => by
      rw [RecordDef.cleaned, hf, List.map_nil]
    rw [RecordDef.part, if_pos hname, ite_eq_left_of_or (hcomment.imp_right hcleaned),
      ite_eq_left_of_or (hfields.imp_right hempty)]

namespace Content

/-- What is read from a document that names its byte order by `orderName`. -/
def draft (c : Content) (orderName : Option String) : Draft where
  moduleName := c.moduleName.filter fun name => !Text.allBlank name
  byteOrder := orderName
  records := c.records.map RecordDef.cleaned

end Content

def Draft.part (d : Draft) (seen : List String) : Draft where
  moduleName := if "module" ∈ seen then d.moduleName else none
  byteOrder := if "byteOrder" ∈ seen then d.byteOrder else none
  records := if "records" ∈ seen then d.records else []

theorem draftShape_reads (c : Content) (orderName : Option String) :
    draftShape.Reads (c.forms orderName) (c.draft orderName).part (c.draft orderName) where
  members := by
    refine .cons ⟨rfl, rfl, fun _ => rfl, fun cs h => ⟨_, (Shape.optionalText_reads h).map _, ?_⟩⟩
      (.cons ⟨rfl, rfl, fun _ => rfl, fun cs h => ⟨_, (Shape.optionalText_reads h).map _, ?_⟩⟩
      (.cons ⟨rfl, rfl, False.elim, fun cs h => ⟨_, (Shape.list_reads (SpellsList.map
        (fun r _ => (recordShape_reads r).shape) h)).map _, ?_⟩⟩
      .nil))
    all_goals
      intro seen
      simp [Draft.part, Content.draft, unlessBlank]
  distinct := by
    change ["module", "byteOrder", "records", "structs"].Nodup
    decide
  blank := rfl
  complete seen h := by
    simp only [Content.forms, List.forall_mem_cons, or_false] at h
    obtain ⟨hmodule, horder, hrecords, -⟩ := h
    have hcleaned : c.moduleName = none → (c.draft orderName).moduleName = none := fun hc => by
      rw [Content.draft, hc, Option.filter_none]
    have horder : "byteOrder" ∈ seen ∨ (c.draft orderName).byteOrder = none := horder
    rw [Draft.part, ite_eq_left_of_or (hmodule.imp_right hcleaned), ite_eq_left_of_or horder,
      if_pos hrecords]

theorem readDraft_of_spells {c : Content} {orderName : Option String} {text : String}
    {before cs after : List Char} (hbefore : Spaces before)
    (hcs : SpellsObject (c.forms orderName) cs) (hafter : Spaces after)
    (htext : text.toList = before ++ (cs ++ after)) :
    readDraft text = .ok (c.draft orderName) := by
  have hread := ((draftShape_reads c orderName).shape hcs).read after (by
    simpa using Ends.after_spaces hafter ends_nil)
  change draftShape.read _ = _ at hread
  rw [readDraft, htext, tokens_spaces hbefore, hread, tokens_of_spaces hafter]

end Document

theorem ByteOrder.ofName?_of_isNamed {order : ByteOrder} {name : String} (h : order.IsNamed name) :
    ByteOrder.ofName? name = some order := by
  obtain ⟨spelling, hspelling, hlower⟩ := h
  have hlookup : ∀ order : ByteOrder, ∀ spelling ∈ order.names,
      ByteOrder.spellings.lookup spelling = some order := by
    intro order
    cases order <;> decide
  rw [ByteOrder.ofName?, hlower, String.ofList_toList, hlookup order spelling hspelling]

namespace Document

theorem Content.toSchema_draft {c : Content} {orderName : Option String}
    (h : Option.Rel ByteOrder.IsNamed c.byteOrder orderName) :
    (c.draft orderName).toSchema = .ok c.schema := by
  simp only [Draft.toSchema, Content.draft, Content.schema, Content.title]
  cases horder : c.byteOrder with
  | none =>
    rw [horder] at h
    cases h
    cases c.moduleName.filter fun name => !Text.allBlank name <;> rfl
  | some order =>
    rw [horder] at h
    cases h with
    | some hname =>
      simp only [ByteOrder.ofName?_of_isNamed hname]
      cases c.moduleName.filter fun name => !Text.allBlank name <;> rfl

end Document

/-- Every text that spells a document is read as the schema of that document: its records in order,
cleaned and with nothing lost, and the defaults for what it leaves out. -/
theorem schema_of_spelling {c : Document.Content} {text : String} (h : c.SpelledBy text) :
    Schema.ofText text = .ok c.schema ∧ c.schema.moduleName = c.title ∧
      c.schema.byteOrder = c.byteOrder.getD .bigEndian ∧
      c.schema.records = c.records.map RecordDef.cleaned := by
  obtain ⟨orderName, before, cs, after, horder, hbefore, hcs, hafter, htext⟩ := h
  refine ⟨?_, Schema.foldl_addRecord (c.records.map RecordDef.cleaned)
    { moduleName := c.title, byteOrder := c.byteOrder.getD .bigEndian }⟩
  rw [Schema.ofText, Document.readDraft_of_spells hbefore hcs hafter htext]
  exact Document.Content.toSchema_draft horder

namespace Sample

/-- The items behind the first, with a blank after each comma. -/
def tailText : List (List Char) → List Char
  | [] => []
  | item :: items => ',' :: ([' '] ++ (item ++ ([] ++ tailText items)))

theorem tail_tailText (items : List (List Char)) : Tail items (tailText items) := by
  induction items with
  | nil => exact .nil
  | cons item items ih => exact .cons (by decide) (by decide) ih

def bracketed (opening closing : Char) : List (List Char) → List Char
  | [] => opening :: ([] ++ [closing])
  | item :: items => opening :: ([] ++ (item ++ ([] ++ (tailText items ++ [closing]))))

theorem enclosed_bracketed (opening closing : Char) (items : List (List Char)) :
    Enclosed opening closing items (bracketed opening closing items) := by
  cases items with
  | nil => exact .empty (by decide)
  | cons item items => exact .items (by decide) (by decide) (tail_tailText items)

def quoted (s : String) : List Char :=
  '"' :: (s.toList.map fun c => [c]).flatten ++ ['"']

theorem spellsChar_singletons {cs : List Char} (h : cs.all fun c => Unescaped c) :
    List.Forall₂ SpellsChar cs (cs.map fun c => [c]) := by
  refine List.forall₂_map_right_iff.mpr (List.forall₂_same.mpr fun c hc => .plain ?_)
  exact of_decide_eq_true (List.all_eq_true.mp h c hc)

theorem spellsText_quoted {s : String} (h : s.toList.all fun c => Unescaped c) :
    SpellsText s (quoted s) :=
  ⟨_, spellsChar_singletons h, rfl⟩

def entry (key value : List Char) : Entry :=
  ⟨key, [], [' '], value, by decide, by decide⟩

def beaconTag : FieldDef where
  name := "tag"
  typeName := " u8 "
  length := some 4

def beaconDef : RecordDef where
  name := "beacon"
  fields := [beaconTag]

/-- The record with its type name trimmed. -/
def beaconKept : RecordDef where
  name := "beacon"
  fields := [{ name := "tag", typeName := "u8", length := some 4 }]

def beacon : Document.Content where
  byteOrder := some .littleEndian
  records := [beaconDef]

/-- The members in another order, and one by its second name. -/
def tagEntries : List Entry :=
  [entry (quoted "arraySize") ['4'], entry (quoted "type") (quoted " u8 "),
    entry (quoted "name") (quoted "tag")]

theorem tag_spelled :
    beaconTag.Spells (bracketed '{' '}' (tagEntries.map Entry.text)) := by
  have hsize : SpellsSize 4 ['4'] := ⟨by decide, by decide⟩
  refine .object (enclosed_bracketed _ _ _) ?_
  refine @WritesMembers.member _ (beaconTag.forms.take 2) (beaconTag.forms.drop 3) _ "arraySize"
    _ _ (spellsText_quoted (by decide)) (by decide) hsize ?_
  refine @WritesMembers.member _ (beaconTag.forms.take 1) (beaconTag.forms.drop 3) _ "type"
    _ _ (spellsText_quoted (by decide)) (by decide) (spellsText_quoted (by decide)) ?_
  refine @WritesMembers.member _ [] (beaconTag.forms.drop 3) _ "name"
    _ _ (spellsText_quoted (by decide)) (by decide) (spellsText_quoted (by decide)) ?_
  refine .done fun m hm => ?_
  cases List.mem_singleton.mp hm
  rfl

/-- The list form of a record, with null for the comment. -/
def beaconItems : List (List Char) :=
  [quoted "beacon", ['n', 'u', 'l', 'l'],
    bracketed '[' ']' [bracketed '{' '}' (tagEntries.map Entry.text)]]

theorem beaconDef_spelled : beaconDef.Spells (bracketed '[' ']' beaconItems) := by
  have hfields : SpellsList FieldDef.Spells [beaconTag]
      (bracketed '[' ']' [bracketed '{' '}' (tagEntries.map Entry.text)]) :=
    ⟨_, enclosed_bracketed _ _ _, .cons tag_spelled .nil⟩
  refine .list (enclosed_bracketed _ _ _) ?_
  refine .member (spellsText_quoted (by decide)) (.member rfl (.member hfields (.done ?_)))
  simp

/-- Half a surrogate pair as the key of a member that nobody reads. -/
def loneEntry : Entry :=
  entry ['"', '\\', 'u', 'd', '8', '0', '0', '"'] ['n', 'u', 'l', 'l']

/-- A number out of range, and an object. -/
def noteText : List Char :=
  bracketed '[' ']'
    [['1', 'e', '9', '9', '9'], bracketed '{' '}' ([loneEntry].map Entry.text)]

theorem noteText_isValue : IsValue noteText := by
  have hwhole : IsDigits ['1'] := by decide
  have hpower : IsDigits ['9', '9', '9'] := by decide
  have hnumber : IsUnsigned ['1', 'e', '9', '9', '9'] :=
    .parts ⟨hwhole, by decide⟩ .none (.mark (.inl rfl) (.inl rfl) hpower)
  have hunit : SpellsUnit 0xd800 ['d', '8', '0', '0'] :=
    .digits (a := 13) (b := 8) (c := 0) (d := 0) (.inl rfl) (.inl rfl) (.inl rfl) (.inl rfl)
  have hkey : IsString loneEntry.key :=
    ⟨[['\\', 'u', 'd', '8', '0', '0']], List.forall_mem_singleton.mpr (.unit hunit), rfl⟩
  have hobject : IsValue (bracketed '{' '}' ([loneEntry].map Entry.text)) :=
    .object (enclosed_bracketed _ _ _) (List.forall_mem_singleton.mpr hkey)
      (List.forall_mem_singleton.mpr (.word (by decide)))
  refine .list (enclosed_bracketed _ _ _) ?_
  rw [List.forall_mem_cons, List.forall_mem_singleton]
  exact ⟨.unsigned hnumber, hobject⟩

/-- The key `structs` with its first letter escaped. -/
def structsKey : List Char :=
  ['"', '\\', 'u', '0', '0', '7', '3', 't', 'r', 'u', 'c', 't', 's', '"']

theorem structsKey_spells : SpellsText "structs" structsKey := by
  have hfirst : SpellsChar 's' ['\\', 'u', '0', '0', '7', '3'] :=
    .unit (.digits (a := 0) (b := 0) (c := 7) (d := 3) (.inl rfl) (.inl rfl) (.inl rfl) (.inl rfl))
  have hrest : List.Forall₂ SpellsChar "tructs".toList ("tructs".toList.map fun c => [c]) :=
    spellsChar_singletons (by decide)
  exact ⟨_, .cons hfirst hrest, rfl⟩

def beaconEntries : List Entry :=
  [entry structsKey (bracketed '[' ']' [bracketed '[' ']' beaconItems]),
    entry (quoted "note") noteText, entry (quoted "byteOrder") (quoted "Le")]

def beaconText : String :=
  Text.braced ("\"\\u0073tructs\": [[\"beacon\", null, [" ++
    Text.braced "\"arraySize\": 4, \"type\": \" u8 \", \"name\": \"tag\"" ++
    "]]], \"note\": [1e999, " ++ Text.braced "\"\\ud800\": null" ++
    "], \"byteOrder\": \"Le\"") ++ "\n"

theorem beacon_spelled : beacon.SpelledBy beaconText := by
  have hrecords : SpellsList RecordDef.Spells [beaconDef]
      (bracketed '[' ']' [bracketed '[' ']' beaconItems]) :=
    ⟨_, enclosed_bracketed _ _ _, .cons beaconDef_spelled .nil⟩
  refine ⟨some "Le", [], bracketed '{' '}' (beaconEntries.map Entry.text), ['\n'],
    .some ⟨"le", by decide, by decide⟩, by decide, .object (enclosed_bracketed _ _ _) ?_, by decide,
    by decide +kernel⟩
  refine @WritesMembers.member _ ((beacon.forms (some "Le")).take 2) [] _ "structs" _ _
    structsKey_spells (by decide) hrecords ?_
  refine .unknown (spellsText_quoted (by decide)) (by decide) noteText_isValue ?_
  refine @WritesMembers.member _ ((beacon.forms (some "Le")).take 1) [] _ "byteOrder" _ _
    (spellsText_quoted (by decide)) (by decide) (spellsText_quoted (by decide)) ?_
  refine .done fun m hm => ?_
  cases List.mem_singleton.mp hm
  rfl

end Sample

/-- A document with escapes, second names, a record as a list and a member that nobody reads. -/
theorem beacon_schema :
    Sample.beacon.SpelledBy Sample.beaconText ∧
      ∃ s, Schema.ofText Sample.beaconText = .ok s ∧ s.moduleName = "generated_structs" ∧
        s.byteOrder = .littleEndian ∧ s.records = [Sample.beaconKept] := by
  obtain ⟨hread, hmodule, horder, hrecords⟩ := schema_of_spelling Sample.beacon_spelled
  refine ⟨Sample.beacon_spelled, _, hread, hmodule, horder, hrecords.trans ?_⟩
  decide +kernel

end RecordWire
