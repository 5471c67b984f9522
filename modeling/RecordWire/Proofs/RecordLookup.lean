import RecordWire.Proofs.DependencyOrder
import RecordWire.Proofs.FixedLayout

/-!
Records by name.  Where a name repeats, a schema finds the first record of that name and a resolved
schema the last.  The names of an accepted schema do not repeat, so both find the same one there:
what a name stands for in the resolved schema is made from what it stands for in the schema.
-/

namespace RecordWire
namespace Schema

/-- `r` has all that `record` declares, with the kinds its fields have beside the other records of
the schema.  Whether the layout is fixed depends on the records inside and is left open. -/
def ResolvesTo (s : Schema) (record : RecordDef) (r : ResolvedRecord) : Prop :=
  ∃ kinds, List.Forall₂ (fun (field : FieldDef) kind =>
      field.kind (s.records.map (·.name)) record.name = .ok kind) record.fields kinds ∧
    { r with fixedLayout := false } = ResolvedRecord.ofDef record kinds

variable {s : Schema} {name : String} {i : Nat}

/-! ## Schemas -/

theorem Built.hasRecord_iff (hs : s.Built) :
    s.hasRecord name = true ↔ ∃ i, s.FirstNamed name i := by
  rw [hasRecord, Option.isSome_iff_exists]
  exact exists_congr fun i => hs.recordIndex?_eq_some_iff

theorem Built.getRecord?_eq_some_iff (hs : s.Built) {record : RecordDef} :
    s.getRecord? name = some record ↔
      ∃ i, s.FirstNamed name i ∧ s.records[i]? = some record := by
  rw [getRecord?, Option.bind_eq_some_iff]
  exact exists_congr fun i => and_congr_left' hs.recordIndex?_eq_some_iff

/-! ## Accepted schemas -/

/-- Where names do not repeat, the first record of a name is the only one. -/
theorem WellNamed.firstNamed_iff (hn : s.WellNamed) :
    s.FirstNamed name i ↔ (s.records.map (·.name))[i]? = some name := by
  refine ⟨And.left, fun hi => ⟨hi, fun j hj heq => ?_⟩⟩
  have hlt := (List.getElem?_eq_some_iff.mp heq).1
  have hji : j = i := (List.getElem?_inj hlt hn.nodup_names).mp (heq.trans hi.symm)
  omega

variable {kinds : List (List FieldKind)} {order : List Nat}

/-- The two tables of names agree. -/
theorem WellNamed.lookup_positions_iff (hn : s.WellNamed) (hk : s.Kinds kinds) :
    (s.resolved kinds order).positions.lookup name = some i ↔ s.FirstNamed name i := by
  rw [hn.lookup_positions hk, hn.firstNamed_iff]

theorem Kinds.resolvesTo (hk : s.Kinds kinds) {r : ResolvedRecord}
    (hr : (s.resolved kinds order).records[i]? = some r) :
    ∃ record, s.records[i]? = some record ∧ s.ResolvesTo record r := by
  obtain ⟨record, ks, hrecord, hks, hform⟩ := ofDef_of_getElem?_resolved hr
  obtain ⟨ks', hks', hall⟩ := forall₂_getElem? hk hrecord
  obtain rfl : ks = ks' := Option.some.inj (hks.symm.trans hks')
  exact ⟨record, hrecord, ks, hall, hform⟩

/-- The record found under a name is made from the first record of that name. -/
theorem WellNamed.getRecord?_of_firstNamed (hn : s.WellNamed) (hk : s.Kinds kinds)
    (hi : s.FirstNamed name i) :
    ∃ record found, s.records[i]? = some record ∧
      (s.resolved kinds order).records[i]? = some found ∧
      (s.resolved kinds order).getRecord? name = some found ∧ s.ResolvesTo record found := by
  have hnames : (s.resolved kinds order).records.map (·.name) = s.records.map (·.name) :=
    map_name_resolved hk.length_eq
  obtain ⟨found, hfound, -⟩ : ∃ found, (s.resolved kinds order).records[i]? = some found ∧
      found.name = name := by
    rw [← Option.map_eq_some_iff, ← List.getElem?_map, hnames]
    exact hi.1
  obtain ⟨record, hrecord, hform⟩ := hk.resolvesTo hfound
  refine ⟨record, found, hrecord, hfound, ?_, hform⟩
  rw [Resolved.getRecord?, (hn.lookup_positions_iff hk).mpr hi, Option.bind_some, hfound]

theorem WellNamed.getRecord?_eq_none (hn : s.WellNamed) (hk : s.Kinds kinds)
    (hnot : ∀ i, ¬ s.FirstNamed name i) : (s.resolved kinds order).getRecord? name = none := by
  have hlookup : (s.resolved kinds order).positions.lookup name = none := by
    rw [Option.eq_none_iff_forall_ne_some]
    exact fun i hi => hnot i ((hn.lookup_positions_iff hk).mp hi)
  rw [Resolved.getRecord?, hlookup, Option.bind_none]

end Schema

/-- However records are added to a new schema, it has them in that order and finds the first of each
name.  In every accepted schema the resolved schema finds what that record resolves to.  If the
schema was made by adding records, the layout of a resolved record is fixed just when the records
that its fields name make it so. -/
theorem names_find_first_record :
    (∀ (moduleName : String) (byteOrder : ByteOrder) (added : List RecordDef) (s : Schema),
      s = added.foldl Schema.addRecord { moduleName := moduleName, byteOrder := byteOrder } →
      s.records = added ∧ ∀ name,
        (∀ i, s.recordIndex? name = some i ↔ s.FirstNamed name i) ∧
        (s.hasRecord name = true ↔ ∃ i, s.FirstNamed name i) ∧
        ∀ record, s.getRecord? name = some record ↔
          ∃ i, s.FirstNamed name i ∧ s.records[i]? = some record) ∧
    ∀ (s : Schema) (r : Resolved), s.resolve.result = .ok r →
      (∀ name,
        (∀ i, s.FirstNamed name i → ∃ record found, s.records[i]? = some record ∧
          r.records[i]? = some found ∧ r.getRecord? name = some found ∧
          s.ResolvesTo record found) ∧
        ((∀ i, ¬ s.FirstNamed name i) → r.getRecord? name = none)) ∧
      (s.Built → ∀ found ∈ r.records, found.fixedLayout = found.fields.all fun f =>
        f.kind.hasFixedLayout fun inner => (r.getRecord? inner).any (·.fixedLayout)) := by
  constructor
  · rintro moduleName byteOrder added s rfl
    have hs := (Schema.Built.new moduleName byteOrder).foldl added
    refine ⟨(Schema.foldl_addRecord added _).2.2, fun name => ?_⟩
    exact ⟨fun i => hs.recordIndex?_eq_some_iff, hs.hasRecord_iff,
      fun record => hs.getRecord?_eq_some_iff⟩
  · intro s r accepted
    refine ⟨fun name => ?_, fun built => built.settled accepted⟩
    obtain ⟨hnames, kinds, order, hkinds, -, rfl⟩ := Schema.resolve_ok_iff.mp accepted
    have hn := s.checkNames_ok_iff.mp hnames
    have hk := Schema.kinds_of_ok hkinds
    exact ⟨fun i => hn.getRecord?_of_firstNamed hk, hn.getRecord?_eq_none hk⟩

/-- Of two records of one name the first is found, and an accepted schema finds a record as it is
spelled. -/
theorem part_found_first :
    Sample.repeated.recordIndex? "Part" = some 1 ∧
      Sample.repeated.getRecord? "Part" = some { name := "Part" } ∧
      Sample.boards.ResolvesTo Sample.tripDef Sample.tripRecord ∧
      Sample.boardsResolved.getRecord? "Trip" = some Sample.tripRecord ∧
      Sample.boardsResolved.getRecord? "trip" = none := by
  obtain ⟨hadded, haccepted⟩ := names_find_first_record
  obtain ⟨-, hlookup⟩ := hadded _ _ Sample.repeated.records Sample.repeated rfl
  obtain ⟨hindex, -, hget⟩ := hlookup "Part"
  have hpart : Sample.repeated.FirstNamed "Part" 1 := ⟨by decide +kernel, by decide +kernel⟩
  obtain ⟨hresolved, -⟩ := haccepted Sample.boards _ Sample.boards_accepted
  have htrip : Sample.boards.FirstNamed "Trip" 1 := ⟨by decide +kernel, by decide +kernel⟩
  have hnone : ∀ i, ¬ Sample.boards.FirstNamed "trip" i := by
    intro i hi
    exact absurd (List.mem_of_getElem? hi.1) (by decide +kernel)
  obtain ⟨record, found, hrecord, hfound, hgot, hform⟩ := (hresolved "Trip").1 1 htrip
  obtain rfl : Sample.tripDef = record := Option.some.inj hrecord
  rw [Sample.boards_records] at hfound
  obtain rfl : Sample.tripRecord = found := Option.some.inj hfound
  exact ⟨(hindex 1).mpr hpart, (hget _).mpr ⟨1, hpart, rfl⟩, hform, hgot,
    (hresolved "trip").2 hnone⟩

end RecordWire
