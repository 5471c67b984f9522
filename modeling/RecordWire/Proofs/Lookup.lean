import Mathlib.Data.List.Nodup
import RecordWire.Schema.Basic

/-!
Lookup in a list of named entries, and the records of a schema by name.
-/

namespace RecordWire

section Lookup

variable {α : Type} {entries : List (String × α)} {name : String} {a : α}

theorem lookup_eq_none_iff_not_mem :
    entries.lookup name = none ↔ name ∉ entries.map Prod.fst := by
  rw [List.lookup_eq_none_iff, List.mem_map]
  constructor
  · rintro h ⟨entry, hmem, rfl⟩
    simpa using h entry hmem
  · intro h entry hmem
    rw [bne_iff_ne]
    exact fun he => h ⟨entry, hmem, he.symm⟩

theorem mem_of_lookup (h : entries.lookup name = some a) : (name, a) ∈ entries := by
  obtain ⟨before, after, rfl, -⟩ := List.lookup_eq_some_iff.mp h
  simp

theorem lookup_eq_some_iff_mem (hd : (entries.map Prod.fst).Nodup) :
    entries.lookup name = some a ↔ (name, a) ∈ entries := by
  refine ⟨mem_of_lookup, fun h => ?_⟩
  obtain ⟨before, after, rfl⟩ := List.append_of_mem h
  rw [List.map_append, List.map_cons, List.nodup_append] at hd
  refine List.lookup_eq_some_iff.mpr ⟨before, after, rfl, fun entry hmem => ?_⟩
  rw [bne_iff_ne]
  exact fun he => hd.2.2 _ (List.mem_map_of_mem hmem) _ (List.mem_cons_self ..) he.symm

end Lookup

namespace Schema

/-- A schema made by adding records to a new one. -/
inductive Built : Schema → Prop
  | new (moduleName : String) (order : ByteOrder) :
    Built { moduleName := moduleName, byteOrder := order }
  | add {s : Schema} (record : RecordDef) : Built s → Built (s.addRecord record)

theorem Built.foldl {s : Schema} (hs : s.Built) (records : List RecordDef) :
    (records.foldl addRecord s).Built := by
  induction records generalizing s with
  | nil => exact hs
  | cons record records ih => exact ih (hs.add record)

theorem foldl_addRecord (records : List RecordDef) (s : Schema) :
    (records.foldl addRecord s).moduleName = s.moduleName ∧
      (records.foldl addRecord s).byteOrder = s.byteOrder ∧
      (records.foldl addRecord s).records = s.records ++ records := by
  induction records generalizing s with
  | nil => simp
  | cons record records ih =>
    obtain ⟨hmodule, horder, hrecords⟩ := ih (s.addRecord record)
    refine ⟨hmodule, horder, hrecords.trans ?_⟩
    rw [addRecord, List.append_assoc, List.singleton_append]

/-- A name stands for the first record that has it. -/
theorem Built.recordIndex?_eq {s : Schema} (hs : s.Built) (name : String) :
    s.recordIndex? name = s.records.findIdx? (·.name == name) := by
  induction hs generalizing name with
  | new => rfl
  | @add s record _ ih =>
    have ih' : ∀ name, s.positions.lookup name = s.records.findIdx? (·.name == name) := ih
    simp only [recordIndex?, addRecord]
    rw [List.findIdx?_append]
    split
    · rename_i hfound
      rw [ih']
      by_cases hname : record.name = name
      · subst hname
        rw [ih', Option.isSome_iff_exists] at hfound
        obtain ⟨i, hi⟩ := hfound
        rw [hi, Option.some_or]
      · have hne : (record.name == name) = false := beq_eq_false_iff_ne.mpr hname
        simp [List.findIdx?_cons, hne]
    · rw [List.lookup_append, ih', List.lookup_cons, List.findIdx?_cons]
      by_cases hname : record.name = name
      · simp [hname]
      · have hne : (name == record.name) = false := beq_eq_false_iff_ne.mpr (Ne.symm hname)
        simp [hname, hne]

/-- What a name stands for is a record of that name. -/
theorem Built.getElem?_recordIndex? {s : Schema} (hs : s.Built) {name : String} {i : Nat}
    (h : s.recordIndex? name = some i) :
    ∃ record, s.records[i]? = some record ∧ record.name = name := by
  rw [hs.recordIndex?_eq, List.findIdx?_eq_some_iff_getElem] at h
  obtain ⟨hi, hname, -⟩ := h
  exact ⟨s.records[i], List.getElem?_eq_getElem hi, by simpa using hname⟩

theorem Built.exists_recordIndex? {s : Schema} (hs : s.Built) {name : String}
    (h : name ∈ s.records.map (·.name)) : ∃ i, s.recordIndex? name = some i := by
  rw [hs.recordIndex?_eq, ← Option.isSome_iff_exists, List.findIdx?_isSome, List.any_eq_true]
  obtain ⟨record, hmem, rfl⟩ := List.mem_map.mp h
  exact ⟨record, hmem, by simp⟩

end Schema
end RecordWire
