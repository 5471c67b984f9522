import Mathlib
import RecordWire.Proofs.Lookup
import RecordWire.Schema.Naming

/-!
Which names a schema may have.  The checks on names go through the records and their fields and
stop at the first fault; they pass exactly when the schema is well named, and what they stop at is
a fault of the schema.
-/

namespace RecordWire

/-! ## Identifiers -/

namespace Name

theorem toNat_toLower (c : Char) :
    c.toLower.toNat = if 65 ≤ c.toNat ∧ c.toNat ≤ 90 then c.toNat + 32 else c.toNat := by
  have h : (c.val ≥ 'A'.val ∧ c.val ≤ 'Z'.val) ↔ 65 ≤ c.toNat ∧ c.toNat ≤ 90 := by
    simp only [ge_iff_le, UInt32.le_iff_toNat_le]
    exact Iff.rfl
  rw [Char.toLower]
  split
  · rename_i hc
    have hn := h.mp hc
    rw [if_pos hn]
    show (c.val + ('a'.val - 'A'.val)).toNat = c.toNat + 32
    rw [UInt32.toNat_add]
    show (c.toNat + 32) % 2 ^ 32 = c.toNat + 32
    omega
  · rename_i hc
    rw [if_neg (fun hn => hc (h.mpr hn))]

theorem isAlpha_iff {c : Char} :
    c.isAlpha = true ↔ (65 ≤ c.toNat ∧ c.toNat ≤ 90) ∨ (97 ≤ c.toNat ∧ c.toNat ≤ 122) := by
  simp only [Char.isAlpha, Char.isUpper, Char.isLower, Bool.or_eq_true, Bool.and_eq_true,
    decide_eq_true_eq, ge_iff_le, UInt32.le_iff_toNat_le]
  exact Iff.rfl

theorem isUpper_iff {c : Char} : c.isUpper = true ↔ 65 ≤ c.toNat ∧ c.toNat ≤ 90 := by
  simp only [Char.isUpper, decide_eq_true_eq, ge_iff_le, UInt32.le_iff_toNat_le]
  exact Iff.rfl

theorem isDigit_iff {c : Char} : c.isDigit = true ↔ 48 ≤ c.toNat ∧ c.toNat ≤ 57 := by
  simp only [Char.isDigit, Bool.and_eq_true, decide_eq_true_eq, ge_iff_le,
    UInt32.le_iff_toNat_le]
  exact Iff.rfl

theorem eq_lowBar_iff {c : Char} : c = '_' ↔ c.toNat = 95 := by
  rw [← Char.toNat_inj]
  rfl

theorem isStart_toLower {c : Char} (h : isStart c = true) : isStart c.toLower = true := by
  simp only [isStart, Bool.or_eq_true, beq_iff_eq, isAlpha_iff, eq_lowBar_iff, toNat_toLower] at h ⊢
  split <;> omega

theorem isPart_toLower {c : Char} (h : isPart c = true) : isPart c.toLower = true := by
  simp only [isPart, Char.isAlphanum, Bool.or_eq_true, beq_iff_eq, isAlpha_iff, isDigit_iff,
    eq_lowBar_iff, toNat_toLower] at h ⊢
  split <;> omega

theorem isBlank_of_isStart {c : Char} (h : isStart c = true) : Text.isBlank c = false := by
  simp only [isStart, Bool.or_eq_true, beq_iff_eq, isAlpha_iff, eq_lowBar_iff] at h
  rw [Bool.eq_false_iff, Text.isBlank]
  intro hb
  obtain ⟨range, hmem, hrange⟩ := Text.inRanges_iff.mp hb
  simp only [Text.blankRanges, List.mem_cons, List.not_mem_nil, or_false] at hmem
  rcases hmem with rfl | rfl | rfl | rfl | rfl | rfl | rfl | rfl | rfl | rfl <;>
    (dsimp only at hrange; omega)

theorem isIdentifier_iff {s : String} :
    isIdentifier s = true ↔ ∃ c rest, s.toList = c :: rest ∧ isStart c = true ∧ s ≠ "_" ∧
      ∀ d ∈ rest, isPartOrDash d = true := by
  rw [isIdentifier]
  cases s.toList with
  | nil => simp
  | cons c rest => simp [and_assoc]

theorem not_allBlank_of_isIdentifier {s : String} (h : isIdentifier s = true) :
    Text.allBlank s = false := by
  obtain ⟨c, rest, hs, hc, -⟩ := isIdentifier_iff.mp h
  rw [Text.allBlank, hs, List.all_cons, isBlank_of_isStart hc, Bool.false_and]

/-- Snake case has low bars and the lower case of whatever is neither a dash nor a blank. -/
theorem forall_mem_snakeChars {P : Char → Prop} {before : Option Char} {barred : Bool}
    {cs : List Char} (hbar : P '_') (h : ∀ c ∈ cs, c ≠ '-' → c ≠ ' ' → P c.toLower) :
    ∀ d ∈ snakeChars before barred cs, P d := by
  induction cs generalizing before barred with
  | nil => simp [snakeChars]
  | cons c rest ih =>
    have hrest : ∀ b x, ∀ d ∈ snakeChars b x rest, P d := fun b x =>
      ih fun d hd => h d (List.mem_cons_of_mem c hd)
    rw [snakeChars]
    split
    · rw [List.forall_mem_cons]
      exact ⟨hbar, hrest _ _⟩
    · rename_i hc
      rw [not_or] at hc
      have hlow : P c.toLower := h c (List.mem_cons_self ..) hc.1 hc.2
      dsimp only
      split
      · simp only [List.forall_mem_cons]
        exact ⟨hbar, hlow, hrest _ _⟩
      · rw [List.forall_mem_cons]
        exact ⟨hlow, hrest _ _⟩

/-- Snake case turns dashes into low bars and leaves nothing else that an identifier may not
have. -/
theorem isPart_of_mem_snakeChars {before : Option Char} {barred : Bool} {cs : List Char}
    (h : ∀ c ∈ cs, isPartOrDash c = true) :
    ∀ d ∈ snakeChars before barred cs, isPart d = true := by
  refine forall_mem_snakeChars (by decide) fun c hmem hdash _ => ?_
  have hc := h c hmem
  rw [isPartOrDash, Bool.or_eq_true, beq_iff_eq] at hc
  exact isPart_toLower (hc.resolve_right hdash)

theorem snakeChars_ne_nil {before : Option Char} {barred : Bool} {cs : List Char} (h : cs ≠ []) :
    snakeChars before barred cs ≠ [] := by
  cases cs with
  | nil => exact absurd rfl h
  | cons c rest =>
    rw [snakeChars]
    split
    · simp
    · dsimp only
      split <;> simp

theorem toList_snake_cons {s : String} {c : Char} {rest : List Char} (hs : s.toList = c :: rest)
    (hc : isStart c = true) :
    (snake s).toList = c.toLower :: snakeChars (some c) (c.toLower == '_') rest := by
  have hsep : ¬ (c = '-' ∨ c = ' ') := by
    rintro (rfl | rfl) <;> exact absurd hc (by decide)
  simp [snake, hs, snakeChars, hsep, opensWord]

/-- The snake case of an identifier is an identifier without dashes. -/
theorem isPlain_snake {s : String} (h : isIdentifier s = true) : isPlain (snake s) = true := by
  obtain ⟨c, rest, hs, hc, hne, hrest⟩ := isIdentifier_iff.mp h
  have hsnake := toList_snake_cons hs hc
  have hparts : ∀ d ∈ snakeChars (some c) (c.toLower == '_') rest, isPart d = true :=
    isPart_of_mem_snakeChars hrest
  have hstart := isStart_toLower hc
  rw [isPlain, Bool.and_eq_true]
  constructor
  · rw [isIdentifier_iff]
    refine ⟨_, _, hsnake, hstart, ?_, fun d hd => by simp [isPartOrDash, hparts d hd]⟩
    -- Only a low bar alone becomes a low bar alone.
    intro he
    rw [he] at hsnake
    obtain ⟨hlow, htail⟩ : '_' = c.toLower ∧ [] = snakeChars (some c) (c.toLower == '_') rest :=
      List.cons.inj hsnake
    have hnil : rest = [] := by
      by_contra hn
      exact snakeChars_ne_nil hn htail.symm
    have hbar : c = '_' := by
      have h95 := eq_lowBar_iff.mp hlow.symm
      rw [toNat_toLower] at h95
      rw [eq_lowBar_iff]
      split at h95 <;> omega
    apply hne
    rw [← String.toList_inj, hs, hnil, hbar]
    rfl
  · have hdash : ∀ d : Char, isPart d = true → d ≠ '-' := by
      rintro d hd rfl
      exact absurd hd (by decide)
    have hstart' : c.toLower ≠ '-' := by
      intro he
      rw [he] at hstart
      exact absurd hstart (by decide)
    simp only [hsnake, List.contains_cons, Bool.not_eq_true', Bool.or_eq_false_iff]
    refine ⟨by simpa using hstart'.symm, ?_⟩
    rw [List.contains_eq_mem, decide_eq_false_iff_not]
    exact fun hmem => hdash _ (hparts _ hmem) rfl

end Name

/-! ## Results without their events -/

namespace Traced

variable {ε α β : Type}

@[simp] theorem result_pure (a : α) : (pure a : Traced ε α).result = .ok a := rfl

@[simp] theorem result_ofExcept (x : Except ε α) : (ofExcept x).result = x := rfl

@[simp] theorem result_raise (event : Event) : (raise event : Traced ε Unit).result = .ok () := rfl

theorem result_bind (t : Traced ε α) (f : α → Traced ε β) :
    (t >>= f).result = t.result >>= fun a => (f a).result := by
  show (Traced.bind t f).result = _
  rw [Traced.bind]
  cases t.result <;> rfl

end Traced

/-! ## Fields -/

/-- The fields of a record can be told apart in snake case, and each has a name and a type. -/
structure RecordDef.WellNamed (record : RecordDef) : Prop where
  isIdentifier : ∀ field ∈ record.fields, Name.isIdentifier field.name = true
  typeName_ne : ∀ field ∈ record.fields, field.typeName ≠ ""
  nodup : (record.fields.map fun field => Name.snake field.name).Nodup

/-- What an error says about the name or the type of a field is so. -/
def RecordDef.NameFault (record : RecordDef) : SchemaError → Prop
  | .emptyName .field context =>
    context = record.name ∧ ∃ field ∈ record.fields, Text.allBlank field.name = true
  | .emptyName .type context =>
    ∃ field ∈ record.fields, field.typeName = "" ∧ context = s!"{record.name}.{field.name}"
  | .invalidName .field name =>
    ∃ field ∈ record.fields, Name.isIdentifier field.name = false ∧
      name = s!"{record.name}.{field.name}"
  | .duplicateDefinition .field name =>
    ∃ first second, [first, second].Sublist record.fields ∧
      Name.snake first.name = Name.snake second.name ∧
      name = s!"{record.name}.{collisionLabel first.name second.name}"
  | _ => False

theorem checkFieldNames_cons_ok_iff {record : String} {seen : List (String × String)}
    {field : FieldDef} {rest : List FieldDef} :
    checkFieldNames record seen (field :: rest) = .ok () ↔
      Name.isIdentifier field.name = true ∧ field.typeName ≠ "" ∧
        seen.lookup (Name.snake field.name) = none ∧
        checkFieldNames record ((Name.snake field.name, field.name) :: seen) rest = .ok () := by
  rw [checkFieldNames]
  by_cases hid : Name.isIdentifier field.name = true
  · have hblank := Name.not_allBlank_of_isIdentifier hid
    have hplain := Name.isPlain_snake hid
    by_cases hty : field.typeName = ""
    · simp [hblank, hty]
    · cases hseen : seen.lookup (Name.snake field.name) <;> simp [hblank, hid, hplain, hty]
  · simp only [hid, Bool.not_false, Bool.true_or, if_true, false_and, iff_false,
      Bool.false_eq_true]
    split
    · simp
    · split <;> simp

/-- A key that is seen before a list of names is not to come again in it. -/
theorem forall_not_mem_keys_cons {α : Type} {f : α → String} {xs : List α} {key name : String}
    {seen : List (String × String)} :
    (∀ a ∈ xs, f a ∉ ((key, name) :: seen).map Prod.fst) ↔
      key ∉ xs.map f ∧ ∀ a ∈ xs, f a ∉ seen.map Prod.fst := by
  have hkey : (∀ a ∈ xs, f a ≠ key) ↔ key ∉ xs.map f := by simp
  simp only [List.map_cons, List.mem_cons, not_or, forall_and]
  exact and_congr_left' hkey

theorem checkFieldNames_ok_iff {record : String} {seen : List (String × String)}
    {fields : List FieldDef} :
    checkFieldNames record seen fields = .ok () ↔
      (∀ field ∈ fields, Name.isIdentifier field.name = true ∧ field.typeName ≠ "") ∧
        (fields.map fun field => Name.snake field.name).Nodup ∧
        ∀ field ∈ fields, Name.snake field.name ∉ seen.map Prod.fst := by
  induction fields generalizing seen with
  | nil => simp [checkFieldNames]
  | cons field rest ih =>
    rw [checkFieldNames_cons_ok_iff, ih, lookup_eq_none_iff_not_mem, forall_not_mem_keys_cons,
      List.forall_mem_cons, List.forall_mem_cons, List.map_cons, List.nodup_cons]
    constructor
    · rintro ⟨hid, hty, hnot, hrest, hnodup, hhead, hfresh⟩
      exact ⟨⟨⟨hid, hty⟩, hrest⟩, ⟨hhead, hnodup⟩, hnot, hfresh⟩
    · rintro ⟨⟨⟨hid, hty⟩, hrest⟩, ⟨hhead, hnodup⟩, hnot, hfresh⟩
      exact ⟨hid, hty, hnot, hrest, hnodup, hhead, hfresh⟩

theorem RecordDef.checkFieldNames_ok_iff_wellNamed (record : RecordDef) :
    checkFieldNames record.name [] record.fields = .ok () ↔ record.WellNamed := by
  rw [checkFieldNames_ok_iff]
  constructor
  · rintro ⟨h, hd, -⟩
    exact ⟨fun f hf => (h f hf).1, fun f hf => (h f hf).2, hd⟩
  · intro h
    exact ⟨fun f hf => ⟨h.isIdentifier f hf, h.typeName_ne f hf⟩, h.nodup, by simp⟩

/-- Two entries of a list, one in each part, stand in it one after the other. -/
theorem pair_sublist_append {α : Type} {a b : α} {xs ys : List α} (ha : a ∈ xs) (hb : b ∈ ys) :
    [a, b].Sublist (xs ++ ys) :=
  (List.singleton_sublist.mpr ha).append (List.singleton_sublist.mpr hb)

theorem RecordDef.nameFault_of_error {record : RecordDef} {done fields : List FieldDef}
    {e : SchemaError} (hf : record.fields = done ++ fields)
    (h : checkFieldNames record.name
      (done.map fun field => (Name.snake field.name, field.name)).reverse fields = .error e) :
    record.NameFault e := by
  induction fields generalizing done with
  | nil => simp [checkFieldNames] at h
  | cons field rest ih =>
    have hmem : field ∈ record.fields := by simp [hf]
    rw [checkFieldNames] at h
    dsimp only at h
    split at h
    · rename_i hblank
      cases h
      exact ⟨rfl, field, hmem, hblank⟩
    split at h
    · rename_i hty
      cases h
      exact ⟨field, hmem, by simpa using hty, rfl⟩
    split at h
    · rename_i hid
      cases h
      refine ⟨field, hmem, ?_, rfl⟩
      by_contra hne
      have hid' : Name.isIdentifier field.name = true := by simpa using hne
      simp [hid', Name.isPlain_snake hid'] at hid
    split at h
    · rename_i previous hprevious
      cases h
      have hseen := mem_of_lookup hprevious
      rw [List.mem_reverse, List.mem_map] at hseen
      obtain ⟨first, hfirst, heq⟩ := hseen
      obtain ⟨hsnake, rfl⟩ := Prod.mk.inj heq
      refine ⟨first, field, ?_, hsnake, rfl⟩
      rw [hf]
      exact pair_sublist_append hfirst (List.mem_cons_self ..)
    · have hnext : record.fields = (done ++ [field]) ++ rest := by simp [hf]
      refine ih hnext ?_
      simpa using h

/-! ## Records -/

/-- Module and records have names to make identifiers of, and no two records have the same. -/
structure Schema.WellNamed (s : Schema) : Prop where
  isPlain_module : Name.isPlain s.moduleName = true
  isIdentifier : ∀ record ∈ s.records, Name.isIdentifier record.name = true
  isPlain_pascal : ∀ record ∈ s.records, Name.isPlain (Name.pascal record.name) = true
  nodup : (s.records.map fun record => Name.pascal record.name).Nodup
  fields : ∀ record ∈ s.records, record.WellNamed

/-- What an error says about a name is so. -/
def Schema.NameFault (s : Schema) : SchemaError → Prop
  | .invalidName .module name => name = s.moduleName ∧ Name.isPlain s.moduleName = false
  | .emptyName .record context =>
    context = s.moduleName ∧ ∃ record ∈ s.records, Text.allBlank record.name = true
  | .invalidName .record name =>
    ∃ record ∈ s.records, name = record.name ∧
      (Name.isIdentifier record.name = false ∨ Name.isPlain (Name.pascal record.name) = false)
  | .duplicateDefinition .record name =>
    ∃ first second, [first, second].Sublist s.records ∧
      Name.pascal first.name = Name.pascal second.name ∧
      name = collisionLabel first.name second.name
  | e => ∃ record ∈ s.records, record.NameFault e

theorem checkRecordNames_cons_result (moduleName : String) (seen : List (String × String))
    (record : RecordDef) (rest : List RecordDef) :
    (checkRecordNames moduleName seen (record :: rest)).result =
      if Text.allBlank record.name then .error (.emptyName .record moduleName)
      else if !Name.isIdentifier record.name || !Name.isPlain (Name.pascal record.name) then
        .error (.invalidName .record record.name)
      else
        match seen.lookup (Name.pascal record.name) with
        | some previous =>
          .error (.duplicateDefinition .record (collisionLabel previous record.name))
        | none =>
          checkFieldNames record.name [] record.fields >>= fun _ =>
            (checkRecordNames moduleName ((Name.pascal record.name, record.name) :: seen)
              rest).result := by
  rw [checkRecordNames]
  dsimp only
  split
  · rfl
  split
  · rfl
  cases seen.lookup (Name.pascal record.name) with
  | some previous => rfl
  | none =>
    -- The warning changes the events only.
    dsimp only
    split
    · simp only [Traced.result_bind, Traced.result_raise, Traced.result_ofExcept]
      rfl
    · simp only [Traced.result_bind, Traced.result_ofExcept]

theorem checkRecordNames_cons_ok_iff {moduleName : String} {seen : List (String × String)}
    {record : RecordDef} {rest : List RecordDef} :
    (checkRecordNames moduleName seen (record :: rest)).result = .ok () ↔
      Name.isIdentifier record.name = true ∧ Name.isPlain (Name.pascal record.name) = true ∧
        seen.lookup (Name.pascal record.name) = none ∧ record.WellNamed ∧
        (checkRecordNames moduleName ((Name.pascal record.name, record.name) :: seen)
          rest).result = .ok () := by
  rw [checkRecordNames_cons_result, ← record.checkFieldNames_ok_iff_wellNamed]
  by_cases hid : Name.isIdentifier record.name = true
  · have hblank := Name.not_allBlank_of_isIdentifier hid
    by_cases hplain : Name.isPlain (Name.pascal record.name) = true
    · cases seen.lookup (Name.pascal record.name) with
      | some previous => simp [hblank, hid, hplain]
      | none =>
        cases checkFieldNames record.name [] record.fields <;>
          simp [hblank, hid, hplain, bind, Except.bind]
    · simp [hblank, hid, hplain]
  · simp only [hid, Bool.not_false, Bool.true_or, if_true, false_and, iff_false,
      Bool.false_eq_true]
    split <;> simp

theorem checkRecordNames_ok_iff {moduleName : String} {seen : List (String × String)}
    {records : List RecordDef} :
    (checkRecordNames moduleName seen records).result = .ok () ↔
      (∀ record ∈ records, Name.isIdentifier record.name = true ∧
        Name.isPlain (Name.pascal record.name) = true ∧ record.WellNamed) ∧
        (records.map fun record => Name.pascal record.name).Nodup ∧
        ∀ record ∈ records, Name.pascal record.name ∉ seen.map Prod.fst := by
  induction records generalizing seen with
  | nil => simp [checkRecordNames]
  | cons record rest ih =>
    rw [checkRecordNames_cons_ok_iff, ih, lookup_eq_none_iff_not_mem, forall_not_mem_keys_cons,
      List.forall_mem_cons, List.forall_mem_cons, List.map_cons, List.nodup_cons]
    constructor
    · rintro ⟨hid, hplain, hnot, hfields, hrest, hnodup, hhead, hfresh⟩
      exact ⟨⟨⟨hid, hplain, hfields⟩, hrest⟩, ⟨hhead, hnodup⟩, hnot, hfresh⟩
    · rintro ⟨⟨⟨hid, hplain, hfields⟩, hrest⟩, ⟨hhead, hnodup⟩, hnot, hfresh⟩
      exact ⟨hid, hplain, hnot, hfields, hrest, hnodup, hhead, hfresh⟩

theorem Schema.checkNames_ok_iff (s : Schema) :
    s.checkNames.result = .ok () ↔ s.WellNamed := by
  rw [Schema.checkNames]
  split
  · rename_i hplain
    rw [checkRecordNames_ok_iff]
    constructor
    · rintro ⟨h, hd, -⟩
      exact ⟨hplain, fun r hr => (h r hr).1, fun r hr => (h r hr).2.1, hd,
        fun r hr => (h r hr).2.2⟩
    · intro h
      exact ⟨fun r hr => ⟨h.isIdentifier r hr, h.isPlain_pascal r hr, h.fields r hr⟩, h.nodup,
        by simp⟩
  · rename_i hplain
    rw [Traced.result_ofExcept]
    constructor
    · intro h
      cases h
    · intro h
      exact absurd h.isPlain_module hplain

/-- A fault of a record's field is a fault of the schema. -/
theorem RecordDef.NameFault.schema {s : Schema} {record : RecordDef} {e : SchemaError}
    (hr : record ∈ s.records) (h : record.NameFault e) : s.NameFault e := by
  cases e with
  | emptyName kind context =>
    cases kind with
    | module | record => exact h.elim
    | field | type => exact ⟨record, hr, h⟩
  | invalidName kind name =>
    cases kind with
    | module | record | type => exact h.elim
    | field => exact ⟨record, hr, h⟩
  | duplicateDefinition kind name =>
    cases kind with
    | module | record | type => exact h.elim
    | field => exact ⟨record, hr, h⟩
  | invalidArrayLength => exact h.elim
  | unsupportedElement => exact h.elim
  | circularReference => exact h.elim

theorem Schema.nameFault_of_checkRecordNames {s : Schema} {done records : List RecordDef}
    {e : SchemaError} (hs : s.records = done ++ records)
    (h : (checkRecordNames s.moduleName
      (done.map fun record => (Name.pascal record.name, record.name)).reverse records).result =
        .error e) : s.NameFault e := by
  induction records generalizing done with
  | nil => simp [checkRecordNames] at h
  | cons record rest ih =>
    have hmem : record ∈ s.records := by simp [hs]
    rw [checkRecordNames_cons_result] at h
    split at h
    · rename_i hblank
      cases h
      exact ⟨rfl, record, hmem, hblank⟩
    split at h
    · rename_i hid
      cases h
      exact ⟨record, hmem, rfl, by simpa using hid⟩
    split at h
    · rename_i previous hprevious
      cases h
      have hseen := mem_of_lookup hprevious
      rw [List.mem_reverse, List.mem_map] at hseen
      obtain ⟨first, hfirst, heq⟩ := hseen
      obtain ⟨hpascal, rfl⟩ := Prod.mk.inj heq
      refine ⟨first, record, ?_, hpascal, rfl⟩
      rw [hs]
      exact pair_sublist_append hfirst (List.mem_cons_self ..)
    · cases hfields : checkFieldNames record.name [] record.fields with
      | error e' =>
        rw [hfields] at h
        cases h
        exact (RecordDef.nameFault_of_error (List.nil_append _).symm hfields).schema hmem
      | ok u =>
        rw [hfields] at h
        have hnext : s.records = (done ++ [record]) ++ rest := by simp [hs]
        refine ih hnext ?_
        rw [List.map_append, List.reverse_append]
        exact h

theorem Schema.nameFault_of_checkNames {s : Schema} {e : SchemaError}
    (h : s.checkNames.result = .error e) : s.NameFault e := by
  rw [Schema.checkNames] at h
  split at h
  · exact s.nameFault_of_checkRecordNames (List.nil_append _).symm h
  · rename_i hplain
    cases h
    exact ⟨rfl, by simpa using hplain⟩

end RecordWire
