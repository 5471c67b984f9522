import RecordWire.Proofs.TypeGraph

/-!
The identifiers of generated types and fields.  A type identifier is legal and belongs to one record
only.  A field identifier is legal too, but a low bar that keeps a name from being a keyword may
make it the name of another field.
-/

namespace RecordWire
namespace Name

/-! ## Legal identifiers -/

/-- Keywords in use, the last three of them since the edition of 2018. -/
def strictWords : List String :=
  ["as", "break", "const", "continue", "crate", "else", "enum", "extern", "false", "fn", "for",
  "if", "impl", "in", "let", "loop", "match", "mod", "move", "mut", "pub", "ref", "return", "self",
  "Self", "static", "struct", "super", "trait", "true", "type", "unsafe", "use", "where", "while",
  "async", "await", "dyn"]

/-- Keywords set aside for later, the last two of them in the editions of 2018 and 2024. -/
def futureWords : List String :=
  ["abstract", "become", "box", "do", "final", "macro", "override", "priv", "typeof", "unsized",
  "virtual", "yield", "try", "gen"]

def IsWord (s : String) : Prop :=
  s ∈ strictWords ++ futureWords

/-- Only ASCII letters, digits and low bars, and no digit in front. -/
def IsAsciiIdent (s : String) : Prop :=
  ∃ c rest, s.toList = c :: rest ∧ (c.isAlpha = true ∨ c = '_') ∧
    ∀ d ∈ rest, d.isAlphanum = true ∨ d = '_'

/-- The name of a type: an ASCII identifier that starts with a capital and is no keyword. -/
structure IsTypeIdent (s : String) : Prop where
  isAsciiIdent : IsAsciiIdent s
  isUpper : ∃ c, s.toList.head? = some c ∧ c.isUpper = true
  not_isWord : ¬ IsWord s

/-- The name of a field: an ASCII identifier that is no keyword, or a keyword written as a raw
identifier, which four keywords cannot be. -/
inductive IsFieldIdent : String → Prop
  | plain {s : String} : IsAsciiIdent s → s ≠ "_" → ¬ IsWord s → IsFieldIdent s
  | raw {word : String} : IsWord word → word ∉ ["crate", "self", "Self", "super"] →
    IsFieldIdent ("r#" ++ word)

theorem isKeyword_iff {s : String} : isKeyword s = true ↔ IsWord s := by
  have hwords : (keywords ++ reserved).Perm (strictWords ++ futureWords) := by decide +kernel
  rw [IsWord, ← hwords.mem_iff, isKeyword, Bool.or_eq_true, List.contains_iff_mem,
    List.contains_iff_mem, List.mem_append]

theorem isPlain_iff {s : String} : isPlain s = true ↔ IsAsciiIdent s ∧ s ≠ "_" := by
  have hpart : ∀ d : Char, isPartOrDash d = true ∧ d ≠ '-' ↔ d.isAlphanum = true ∨ d = '_' := by
    intro d
    rw [isPartOrDash, isPart, Bool.or_eq_true, Bool.or_eq_true, beq_iff_eq, beq_iff_eq]
    refine ⟨fun h => h.1.resolve_right h.2, fun h => ⟨.inl h, ?_⟩⟩
    rintro rfl
    exact absurd h (by decide)
  have hstart : ∀ c : Char, isStart c = true ↔ c.isAlpha = true ∨ c = '_' := by
    intro c
    rw [isStart, Bool.or_eq_true, beq_iff_eq]
  rw [isPlain, Bool.and_eq_true, isIdentifier_iff, IsAsciiIdent]
  constructor
  · rintro ⟨⟨c, rest, hs, hc, hne, hrest⟩, hdash⟩
    refine ⟨⟨c, rest, hs, (hstart c).mp hc, fun d hd => (hpart d).mp ⟨hrest d hd, ?_⟩⟩, hne⟩
    rintro rfl
    simp [hs, hd] at hdash
  · rintro ⟨⟨c, rest, hs, hc, hrest⟩, hne⟩
    refine ⟨⟨c, rest, hs, (hstart c).mpr hc, hne, fun d hd => ((hpart d).mpr (hrest d hd)).1⟩, ?_⟩
    have hc' : c ≠ '-' := by
      rintro rfl
      exact absurd hc (by decide)
    have hrest' : '-' ∉ rest := fun hd => ((hpart '-').mpr (hrest _ hd)).2 rfl
    simp [hs, hrest', hc'.symm]

theorem IsAsciiIdent.append_lowBar {s : String} (h : IsAsciiIdent s) : IsAsciiIdent (s ++ "_") := by
  obtain ⟨c, rest, hs, hc, hrest⟩ := h
  refine ⟨c, rest ++ ['_'], by rw [String.toList_append, hs]; rfl, hc, fun d hd => ?_⟩
  rcases List.mem_append.mp hd with hd | hd
  · exact hrest d hd
  · exact .inr (List.mem_singleton.mp hd)

theorem IsAsciiIdent.not_mem {s : String} (h : IsAsciiIdent s) {d : Char} (hd : isPart d = false) :
    d ∉ s.toList := by
  obtain ⟨c, rest, hs, hc, hrest⟩ := h
  rw [isPart, Bool.or_eq_false_iff, beq_eq_false_iff_ne] at hd
  rw [hs, List.mem_cons, not_or]
  constructor
  · rintro rfl
    rcases hc with hc | hc
    · simp [Char.isAlphanum, hc] at hd
    · exact hd.2 hc
  · intro hmem
    rcases hrest d hmem with hd' | hd'
    · simp [hd'] at hd
    · exact hd.2 hd'

/-! ## Keywords -/

theorem IsWord.lowBar_not_mem {s : String} (h : IsWord s) : '_' ∉ s.toList := by
  have hall : ∀ word ∈ strictWords ++ futureWords, '_' ∉ word.toList := by decide +kernel
  exact hall s h

theorem not_isWord_append (s : String) : ¬ IsWord (s ++ "_") :=
  fun h => h.lowBar_not_mem (lowBar_mem_append s)

/-- Every keyword but `Self` starts with a small letter. -/
theorem IsWord.head_or_reserved {s : String} (h : IsWord s) :
    reserved.contains s = true ∨ ∃ c, s.toList.head? = some c ∧ (!c.isUpper) = true := by
  have hall : ∀ word ∈ strictWords ++ futureWords,
      reserved.contains word = true ∨ word.toList.head?.any (fun c => !c.isUpper) = true := by
    decide +kernel
  exact (hall s h).imp_right (Option.any_eq_true _ _).mp

/-! ## Identifiers of types -/

/-- A name in Pascal case that is an identifier starts with a capital. -/
theorem head_pascal {s : String} (h : isPlain (pascal s) = true) :
    ∃ c, (pascal s).toList.head? = some c ∧ c.isUpper = true := by
  obtain ⟨⟨c, rest, hs, hc, -⟩, -⟩ := isPlain_iff.mp h
  have hhead : (pascal s).toList.head? = some c := by rw [hs, List.head?_cons]
  have halpha : c.isAlpha = true := by
    refine hc.resolve_right fun hbar => lowBar_not_mem_pascal s ?_
    rw [hs, hbar]
    exact List.mem_cons_self ..
  have hsmall : ¬ (97 ≤ c.toNat ∧ c.toNat ≤ 122) := by
    rw [pascal, String.toList_ofList] at hhead
    exact head_pascalChars hhead
  rw [isAlpha_iff] at halpha
  exact ⟨c, hhead, isUpper_iff.mpr (by omega)⟩

theorem isTypeIdent_typeIdent {s : String} (h : isPlain (pascal s) = true) :
    IsTypeIdent (typeIdent s) := by
  have hascii := (isPlain_iff.mp h).1
  obtain ⟨c, hhead, hupper⟩ := head_pascal h
  simp only [typeIdent]
  by_cases hr : reserved.contains (pascal s) = true
  · rw [if_pos hr]
    refine ⟨hascii.append_lowBar, ⟨c, ?_, hupper⟩, not_isWord_append _⟩
    rw [String.toList_append, List.head?_append, hhead, Option.some_or]
  · rw [if_neg hr]
    refine ⟨hascii, ⟨c, hhead, hupper⟩, fun hword => ?_⟩
    obtain ⟨d, hd, hlower⟩ := hword.head_or_reserved.resolve_left hr
    rw [hhead, Option.some.injEq] at hd
    rw [← hd, hupper] at hlower
    cases hlower

/-! ## Identifiers of fields -/

theorem isFieldIdent_fieldIdent {s : String} (h : isPlain s = true) :
    IsFieldIdent (fieldIdent s) := by
  obtain ⟨hascii, hne⟩ := isPlain_iff.mp h
  rw [fieldIdent]
  by_cases hr : reserved.contains s = true
  · rw [if_pos hr]
    refine .plain hascii.append_lowBar ?_ (not_isWord_append s)
    intro hbar
    obtain ⟨c, rest, hs, -⟩ := hascii
    have hlen := congrArg (fun t : String => t.toList.length) hbar
    simp [hs] at hlen
  rw [if_neg hr]
  by_cases hk : keywords.contains s = true
  · rw [if_pos hk]
    refine .raw (isKeyword_iff.mp (by rw [isKeyword, hk, Bool.true_or])) fun hmem => hr ?_
    exact List.contains_iff_mem.mpr hmem
  · rw [if_neg hk]
    refine .plain hascii hne fun hword => ?_
    have hkeyword := isKeyword_iff.mpr hword
    rw [isKeyword, Bool.or_eq_true] at hkeyword
    exact hkeyword.elim hk hr

theorem fieldIdent_of_not_isWord {s : String} (h : ¬ IsWord s) : fieldIdent s = s := by
  have hword : isKeyword s = false := by
    rw [Bool.eq_false_iff, Ne, isKeyword_iff]
    exact h
  rw [isKeyword, Bool.or_eq_false_iff] at hword
  rw [fieldIdent, hword.1, hword.2]
  rfl

/-- A keyword with a low bar behind it is left as it is. -/
theorem fieldIdent_append_lowBar (s : String) : fieldIdent (s ++ "_") = s ++ "_" :=
  fieldIdent_of_not_isWord (not_isWord_append s)

theorem IsAsciiIdent.ne_raw {s : String} (h : IsAsciiIdent s) (word : String) :
    s ≠ "r#" ++ word := by
  intro he
  have hhash : '#' ∉ s.toList := h.not_mem (by decide)
  apply hhash
  rw [he, String.toList_append]
  exact List.mem_append_left _ (by decide)

/-- A name gets a low bar, is made raw or is left alone. -/
theorem fieldIdent_cases (s : String) :
    (s ∈ reserved ∧ fieldIdent s = s ++ "_") ∨ fieldIdent s = "r#" ++ s ∨ fieldIdent s = s := by
  rw [fieldIdent]
  by_cases hr : reserved.contains s = true
  · rw [if_pos hr]
    exact .inl ⟨List.contains_iff_mem.mp hr, rfl⟩
  rw [if_neg hr]
  by_cases hk : keywords.contains s = true
  · rw [if_pos hk]
    exact .inr (.inl rfl)
  · rw [if_neg hk]
    exact .inr (.inr rfl)

theorem fieldIdent_of_reserved {s : String} (h : s ∈ reserved) : fieldIdent s = s ++ "_" := by
  rw [fieldIdent, if_pos (List.contains_iff_mem.mpr h)]

/-- Two names have one identifier only where one of them is a keyword that cannot be a raw
identifier and the other is that keyword with a low bar behind it. -/
theorem fieldIdent_eq_iff {a b : String} (ha : isPlain a = true) (hb : isPlain b = true) :
    fieldIdent a = fieldIdent b ↔ a = b ∨ (a ∈ reserved ∧ b = a ++ "_") ∨
      (b ∈ reserved ∧ a = b ++ "_") := by
  have ha' := (isPlain_iff.mp ha).1
  have hb' := (isPlain_iff.mp hb).1
  constructor
  · intro h
    rcases fieldIdent_cases a with ⟨har, hia⟩ | hia | hia <;>
      rcases fieldIdent_cases b with ⟨hbr, hib⟩ | hib | hib <;> rw [hia, hib] at h
    · exact .inl ((String.append_left_inj "_").mp h)
    · exact absurd h (ha'.append_lowBar.ne_raw b)
    · exact .inr (.inl ⟨har, h.symm⟩)
    · exact absurd h.symm (hb'.append_lowBar.ne_raw a)
    · exact .inl ((String.append_right_inj "r#").mp h)
    · exact absurd h.symm (hb'.ne_raw a)
    · exact .inr (.inr ⟨hbr, h⟩)
    · exact absurd h (ha'.ne_raw b)
    · exact .inl h
  · rintro (rfl | ⟨har, rfl⟩ | ⟨hbr, rfl⟩)
    · rfl
    · rw [fieldIdent_of_reserved har, fieldIdent_append_lowBar]
    · rw [fieldIdent_of_reserved hbr, fieldIdent_append_lowBar]

/-- Distinct names have distinct identifiers unless a keyword and its way out are both there. -/
theorem nodup_map_fieldIdent_iff {names : List String} (hd : names.Nodup)
    (hp : ∀ s ∈ names, isPlain s = true) :
    (names.map fieldIdent).Nodup ↔ ∀ word ∈ reserved, ¬ (word ∈ names ∧ word ++ "_" ∈ names) := by
  constructor
  · rintro h word hword ⟨hmem, hmem'⟩
    have heq : fieldIdent word = fieldIdent (word ++ "_") := by
      rw [fieldIdent_of_reserved hword, fieldIdent_append_lowBar]
    have hbar : '_' ∈ word.toList := by
      rw [List.inj_on_of_nodup_map h hmem hmem' heq]
      exact lowBar_mem_append word
    have hword' : IsWord word := isKeyword_iff.mp (by
      rw [isKeyword, Bool.or_eq_true]
      exact .inr (List.contains_iff_mem.mpr hword))
    exact hword'.lowBar_not_mem hbar
  · intro h
    refine hd.map_on fun a ha b hb heq => ?_
    rcases (fieldIdent_eq_iff (hp a ha) (hp b hb)).mp heq with hab | ⟨hr, rfl⟩ | ⟨hr, rfl⟩
    · exact hab
    · exact absurd ⟨ha, hb⟩ (h a hr)
    · exact absurd ⟨hb, ha⟩ (h b hr)

end Name

/-! ## Identifiers of a resolved schema -/

namespace Schema

variable {schema : Schema} {s : Resolved}

theorem coherent_of_accepted (accepted : schema.resolve.result = .ok s) {r : ResolvedRecord}
    (hr : r ∈ s.records) : r.Coherent := by
  obtain ⟨hnames, kinds, order, hkinds, -, rfl⟩ := resolve_ok_iff.mp accepted
  exact (schema.checkNames_ok_iff.mp hnames).coherent (kinds_of_ok hkinds) hr

/-- A record of an accepted schema is declared, and the declaration is well named. -/
theorem exists_def_of_accepted (accepted : schema.resolve.result = .ok s) {r : ResolvedRecord}
    (hr : r ∈ s.records) :
    ∃ (record : RecordDef) (kinds : List FieldKind), record.WellNamed ∧
      Name.isPlain (Name.pascal record.name) = true ∧ r.name = record.name ∧
      r.fields = resolveFields none 0 (record.fields.zip kinds) := by
  obtain ⟨hnames, kinds, order, -, -, rfl⟩ := resolve_ok_iff.mp accepted
  have hn := schema.checkNames_ok_iff.mp hnames
  obtain ⟨i, hi⟩ := List.mem_iff_getElem?.mp hr
  obtain ⟨record, ks, hrecord, -, hname, hfields⟩ := getElem?_resolved hi
  have hmem := List.mem_of_getElem? hrecord
  exact ⟨record, ks, hn.fields record hmem, hn.isPlain_pascal record hmem, hname, hfields⟩

/-- The identifier of a field is made from its name in snake case, which is an identifier. -/
theorem ident_of_accepted (accepted : schema.resolve.result = .ok s) {r : ResolvedRecord}
    (hr : r ∈ s.records) {f : ResolvedField} (hf : f ∈ r.fields) :
    Name.isPlain f.snakeName = true ∧ f.ident = Name.fieldIdent f.snakeName := by
  obtain ⟨record, kinds, hnamed, -, -, hfields⟩ := exists_def_of_accepted accepted hr
  rw [hfields] at hf
  obtain ⟨p, hp, -, -, hsnake, hident⟩ := mem_resolveFields hf
  have hmem : p.1 ∈ record.fields := (List.of_mem_zip hp).1
  refine ⟨?_, hident⟩
  rw [hsnake]
  exact Name.isPlain_snake (hnamed.isIdentifier p.1 hmem)

theorem map_typeName_of_accepted (accepted : schema.resolve.result = .ok s) :
    s.records.map (·.typeName) = schema.records.map fun record => Name.typeIdent record.name := by
  obtain ⟨-, kinds, order, hkinds, -, rfl⟩ := resolve_ok_iff.mp accepted
  have hmap : (schema.resolved kinds order).records.map (·.name) = schema.records.map (·.name) :=
    map_name_resolved (kinds_of_ok hkinds).length_eq
  calc
    _ = (schema.resolved kinds order).records.map (fun r => Name.typeIdent r.name) :=
      List.map_congr_left fun r => typeName_of_mem_resolved
    _ = ((schema.resolved kinds order).records.map (·.name)).map Name.typeIdent := by
      rw [List.map_map]
      rfl
    _ = _ := by
      rw [hmap, List.map_map]
      rfl

/-- Names that differ in Pascal case make different types. -/
theorem WellNamed.nodup_typeIdents (hn : schema.WellNamed) :
    (schema.records.map fun record => Name.typeIdent record.name).Nodup := by
  have hd := List.pairwise_map.mp hn.nodup
  refine List.pairwise_map.mpr (hd.imp fun hne heq => hne ?_)
  exact Name.pascal_of_typeIdent heq

end Schema

/-- In every accepted schema types have different names, and the names of types and fields are legal
identifiers. -/
theorem generated_names_legal {schema : Schema} {s : Resolved}
    (accepted : schema.resolve.result = .ok s) :
    (s.records.map (·.typeName)).Nodup ∧ (∀ r ∈ s.records, Name.IsTypeIdent r.typeName) ∧
      ∀ r ∈ s.records, ∀ f ∈ r.fields, Name.IsFieldIdent f.ident := by
  have hn := schema.checkNames_ok_iff.mp (Schema.resolve_ok_iff.mp accepted).1
  refine ⟨?_, fun r hr => ?_, fun r hr f hf => ?_⟩
  · rw [Schema.map_typeName_of_accepted accepted]
    exact hn.nodup_typeIdents
  · obtain ⟨record, kinds, -, hpascal, hname, -⟩ := Schema.exists_def_of_accepted accepted hr
    rw [(Schema.named accepted).typeName_eq r hr, hname]
    exact Name.isTypeIdent_typeIdent hpascal
  · obtain ⟨hplain, hident⟩ := Schema.ident_of_accepted accepted hr hf
    rw [hident]
    exact Name.isFieldIdent_fieldIdent hplain

namespace Sample

/-- Names that are keywords, or become keywords on the way. -/
def selfDef : RecordDef where
  name := "self"
  fields := [{ name := "Type", typeName := "u8" }, { name := "SELF", typeName := "u8" },
    { name := "_-x9", typeName := "u8" }]

/-- Two names that differ in snake case and have one identifier. -/
def actorDef : RecordDef where
  name := "_actor"
  fields := [{ name := "self", typeName := "u8" }, { name := "self_", typeName := "u16" }]

def actors : Schema :=
  (({ moduleName := "actors" } : Schema).addRecord selfDef).addRecord actorDef

def actorsKinds : List (List FieldKind) :=
  [[.single (.primitive .uint8), .single (.primitive .uint8), .single (.primitive .uint8)],
  [.single (.primitive .uint8), .single (.primitive .uint16)]]

def actorsResolved : Resolved :=
  actors.resolved actorsKinds [0, 1]

theorem actors_accepted : actors.resolve.result = .ok actorsResolved := by
  refine Schema.resolve_ok_iff.mpr ⟨?_, actorsKinds, [0, 1], ?_, ?_, rfl⟩
  · decide +kernel
  · decide +kernel
  · decide +kernel

def selfRecord : ResolvedRecord where
  name := "self"
  typeName := "Self_"
  comment := none
  fields := [
    { name := "Type", snakeName := "type", ident := "r#type", typeName := "u8", comment := none
      kind := .single (.primitive .uint8), countField := none },
    { name := "SELF", snakeName := "self", ident := "self_", typeName := "u8", comment := none
      kind := .single (.primitive .uint8), countField := none },
    { name := "_-x9", snakeName := "__x9", ident := "__x9", typeName := "u8", comment := none
      kind := .single (.primitive .uint8), countField := none }]
  fixedLayout := true

def actorRecord : ResolvedRecord where
  name := "_actor"
  typeName := "Actor"
  comment := none
  fields := [
    { name := "self", snakeName := "self", ident := "self_", typeName := "u8", comment := none
      kind := .single (.primitive .uint8), countField := none },
    { name := "self_", snakeName := "self_", ident := "self_", typeName := "u16", comment := none
      kind := .single (.primitive .uint16), countField := none }]
  fixedLayout := true

theorem actors_records : actorsResolved.records = [selfRecord, actorRecord] := by
  decide +kernel

end Sample

/-- A record named `self`, and fields that are keywords, have legal names. -/
theorem actors_names_legal :
    Sample.actors.resolve.result = .ok Sample.actorsResolved ∧
      ["Self_", "Actor"].Nodup ∧ Name.IsTypeIdent "Self_" ∧
      ∀ ident ∈ ["r#type", "self_", "__x9"], Name.IsFieldIdent ident := by
  obtain ⟨hnodup, htypes, hfields⟩ := generated_names_legal Sample.actors_accepted
  rw [Sample.actors_records] at hnodup htypes hfields
  refine ⟨Sample.actors_accepted, hnodup, htypes Sample.selfRecord (List.mem_cons_self ..), ?_⟩
  exact List.forall_mem_map.mpr (hfields Sample.selfRecord (List.mem_cons_self ..))

/-- An accepted schema may have a record with two fields of one identifier. -/
theorem self_field_collides :
    Sample.actors.resolve.result = .ok Sample.actorsResolved ∧
      Sample.actorRecord ∈ Sample.actorsResolved.records ∧
      ¬ (Sample.actorRecord.fields.map (·.ident)).Nodup := by
  refine ⟨Sample.actors_accepted, ?_, by decide⟩
  rw [Sample.actors_records]
  exact List.mem_cons_of_mem _ (List.mem_singleton.mpr rfl)

/-- In every accepted schema the identifiers of the fields of a record are different, unless one
field is named by a keyword that cannot be a raw identifier and another by that keyword with a low
bar behind it. -/
theorem idents_distinct_iff {schema : Schema} {s : Resolved}
    (accepted : schema.resolve.result = .ok s) {r : ResolvedRecord} (hr : r ∈ s.records) :
    (r.fields.map (·.ident)).Nodup ↔ ∀ word ∈ Name.reserved,
      ¬ (word ∈ r.fields.map (·.snakeName) ∧ word ++ "_" ∈ r.fields.map (·.snakeName)) := by
  have hidents : r.fields.map (·.ident) = (r.fields.map (·.snakeName)).map Name.fieldIdent := by
    rw [List.map_map]
    exact List.map_congr_left fun f hf => (Schema.ident_of_accepted accepted hr hf).2
  have hplain : ∀ name ∈ r.fields.map (·.snakeName), Name.isPlain name = true := by
    intro name hname
    obtain ⟨f, hf, rfl⟩ := List.mem_map.mp hname
    exact (Schema.ident_of_accepted accepted hr hf).1
  rw [hidents]
  exact Name.nodup_map_fieldIdent_iff
    (Schema.coherent_of_accepted accepted hr).nodup_snakeNames hplain

/-- A field `self` is told apart from the fields beside it, but not from a field `self_`. -/
theorem self_field_distinct :
    Sample.selfRecord ∈ Sample.actorsResolved.records ∧
      (Sample.selfRecord.fields.map (·.ident)).Nodup ∧
      ¬ (Sample.actorRecord.fields.map (·.ident)).Nodup := by
  have hself : Sample.selfRecord ∈ Sample.actorsResolved.records := by simp [Sample.actors_records]
  have hactor : Sample.actorRecord ∈ Sample.actorsResolved.records := by
    simp [Sample.actors_records]
  refine ⟨hself, (idents_distinct_iff Sample.actors_accepted hself).mpr (by decide +kernel), ?_⟩
  rw [idents_distinct_iff Sample.actors_accepted hactor]
  decide +kernel

end RecordWire
