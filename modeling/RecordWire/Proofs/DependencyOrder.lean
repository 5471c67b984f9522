import RecordWire.Proofs.Resolution

/-!
The order of the records of a schema.  Names may be malformed and may repeat here, and a field
refers to the first record of its name.  An order is found exactly when no record reaches itself
that way, and then every record stands after the records it refers to.
-/

namespace RecordWire

/-- In an order without repeats, what a node refers to has the smaller position. -/
theorem Ordered.idxOf_lt {edges : List (List Nat)} {order : List Nat} (ho : Ordered edges order)
    (hd : order.Nodup) {i j : Nat} (hi : i ∈ order) (hij : RefersTo edges i j) :
    order.idxOf j < order.idxOf i := by
  obtain ⟨before, after, rfl⟩ := List.append_of_mem hi
  have hj : j ∈ before := ho before i after rfl j hij
  have hnot : i ∉ before := by
    intro h
    rw [List.nodup_append] at hd
    exact hd.2.2 i h i (List.mem_cons_self ..) rfl
  rw [List.idxOf_append_of_mem hj, List.idxOf_append_of_notMem hnot, List.idxOf_cons_self]
  have hlt := List.idxOf_lt_length_of_mem hj
  omega

namespace Schema

variable {s : Schema} {kinds : List (List FieldKind)}

/-- Record `i` has the name and no record before it does. -/
def FirstNamed (s : Schema) (name : String) (i : Nat) : Prop :=
  (s.records.map (·.name))[i]? = some name ∧
    ∀ j < i, (s.records.map (·.name))[j]? ≠ some name

/-- Record `i` has a field, an array or a sequence of the record `j`. -/
def Refers (s : Schema) (i j : Nat) : Prop :=
  ∃ record, s.records[i]? = some record ∧ ∃ field ∈ record.fields, ∃ kind name,
    field.kind (s.records.map (·.name)) record.name = .ok kind ∧
      kind.recordName? = some name ∧ s.FirstNamed name j

theorem Built.recordIndex?_eq_some_iff (hs : s.Built) {name : String} {i : Nat} :
    s.recordIndex? name = some i ↔ s.FirstNamed name i := by
  rw [hs.recordIndex?_eq, List.findIdx?_eq_some_iff_getElem, FirstNamed]
  constructor
  · rintro ⟨hi, hname, hfirst⟩
    constructor
    · simpa [hi] using hname
    · intro j hj heq
      have hlt : j < s.records.length := by omega
      exact hfirst j hj (by simpa [hlt] using heq)
  · rintro ⟨hname, hfirst⟩
    rw [List.getElem?_map, Option.map_eq_some_iff] at hname
    obtain ⟨record, hrecord, rfl⟩ := hname
    obtain ⟨hi, rfl⟩ := List.getElem?_eq_some_iff.mp hrecord
    refine ⟨hi, by simp, fun j hj heq => hfirst j hj ?_⟩
    have hlt : j < s.records.length := by omega
    simpa [hlt] using heq

/-- The graph that is sorted has just the references of the schema. -/
theorem Built.refersTo_iff (hs : s.Built) (hk : s.Kinds kinds) {i j : Nat} :
    RefersTo (s.references kinds) i j ↔ s.Refers i j := by
  rw [refersTo_references]
  constructor
  · rintro ⟨ks, hks, kind, hkind, name, hname, hj⟩
    obtain ⟨record, hrecord, hall⟩ := forall₂_getElem? hk.flip hks
    obtain ⟨l, hl⟩ := List.mem_iff_getElem?.mp hkind
    obtain ⟨field, hfield, hfk⟩ := forall₂_getElem? hall.flip hl
    exact ⟨record, hrecord, field, List.mem_of_getElem? hfield, kind, name, hfk, hname,
      hs.recordIndex?_eq_some_iff.mp hj⟩
  · rintro ⟨record, hrecord, field, hfield, kind, name, hfk, hname, hj⟩
    obtain ⟨ks, hks, hall⟩ := forall₂_getElem? hk hrecord
    obtain ⟨l, hl⟩ := List.mem_iff_getElem?.mp hfield
    obtain ⟨kind', hkind, hfk'⟩ := forall₂_getElem? hall hl
    obtain rfl : kind = kind' := Except.ok.inj (hfk.symm.trans hfk')
    exact ⟨ks, hks, kind, List.mem_of_getElem? hkind, name, hname,
      hs.recordIndex?_eq_some_iff.mpr hj⟩

end Schema

/-- The records of any schema can be ordered if and only if none reaches itself, and then the order
lists every record once and after the records it refers to. -/
theorem dependencyOrder_isOk_iff_acyclic {s : Schema} {kinds : List (List FieldKind)}
    (built : s.Built) (classified : s.kinds = .ok kinds) :
    ((∃ order, s.dependencyOrder kinds = .ok order) ↔
      ∀ i, ¬ Relation.TransGen s.Refers i i) ∧
    ∀ order, s.dependencyOrder kinds = .ok order →
      order.Perm (List.range s.records.length) ∧
        ∀ i j, s.Refers i j → order.idxOf j < order.idxOf i := by
  have hk := Schema.kinds_of_ok classified
  have hc := built.closedGraph hk.length_eq.symm
  have hrefers : RefersTo (s.references kinds) = s.Refers :=
    funext fun i => funext fun j => propext (built.refersTo_iff hk)
  constructor
  · simp only [Schema.dependencyOrder_ok_iff]
    rw [topologicalOrder_isOk_iff hc, Acyclic, hrefers]
  · intro order h
    obtain ⟨hperm, hord⟩ := topologicalOrder_ok hc (Schema.dependencyOrder_ok_iff.mp h)
    have hlen : (s.references kinds).length = s.records.length := by
      rw [Schema.references, List.length_map, hk.length_eq]
    rw [hlen] at hperm
    refine ⟨hperm, fun i j hij => ?_⟩
    have hi : i ∈ order := by
      obtain ⟨record, hrecord, -⟩ := hij
      rw [hperm.mem_iff, List.mem_range]
      exact (List.getElem?_eq_some_iff.mp hrecord).1
    exact hord.idxOf_lt (hperm.nodup_iff.mpr List.nodup_range) hi ((built.refersTo_iff hk).mpr hij)

/-- Two records share a name and one name is malformed.  The second `Part` would close a cycle if
references could lead to it. -/
def Sample.repeated : Schema :=
  ((({} : Schema).addRecord
    { name := "whole thing", fields := [{ name := "part", typeName := "Part" }] }).addRecord
    { name := "Part" }).addRecord
    { name := "Part", fields := [{ name := "of", typeName := "sequence<whole thing>" }] }

theorem repeated_ordered :
    Sample.repeated.Refers 0 1 ∧ Sample.repeated.Refers 2 0 ∧
      (∀ i, ¬ Relation.TransGen Sample.repeated.Refers i i) ∧
      Sample.repeated.dependencyOrder
        [[.single (.record "Part")], [], [.sequence (.record "whole thing")]] = .ok [1, 0, 2] ∧
      [1, 0, 2].idxOf 0 < [1, 0, 2].idxOf 2 := by
  have built : Sample.repeated.Built := .add _ (.add _ (.add _ (.new _ _)))
  have classified : Sample.repeated.kinds =
      .ok [[.single (.record "Part")], [], [.sequence (.record "whole thing")]] := by
    decide +kernel
  have hk := Schema.kinds_of_ok classified
  have h₀₁ : Sample.repeated.Refers 0 1 := (built.refersTo_iff hk).mp (by decide +kernel)
  have h₂₀ : Sample.repeated.Refers 2 0 := (built.refersTo_iff hk).mp (by decide +kernel)
  obtain ⟨hiff, horder⟩ := dependencyOrder_isOk_iff_acyclic built classified
  have hok : Sample.repeated.dependencyOrder
      [[.single (.record "Part")], [], [.sequence (.record "whole thing")]] = .ok [1, 0, 2] := by
    decide +kernel
  exact ⟨h₀₁, h₂₀, hiff.mp ⟨_, hok⟩, hok, (horder _ hok).2 2 0 h₂₀⟩

end RecordWire
