import RecordWire.Proofs.Values

/-!
Which schemas are accepted.  Resolving succeeds exactly for a well-formed schema, and what an error
says is wrong with a schema is wrong with it.
-/

namespace RecordWire
namespace Schema

variable {s : Schema} {kinds : List (List FieldKind)}

/-- A record named `a` has a field, an array or a sequence of the record `b`.  A name that spells a
primitive stands for that primitive. -/
def Embeds (s : Schema) (a b : String) : Prop :=
  ∃ record ∈ s.records, record.name = a ∧ ∃ field ∈ record.fields,
    field.elementName = b ∧ Primitive.ofName? b = none ∧ b ∈ s.records.map (·.name)

structure WellFormed (s : Schema) : Prop where
  named : s.WellNamed
  admissible : ∀ record ∈ s.records, ∀ field ∈ record.fields, field.Admissible
  acyclic : ∀ name, ¬ Relation.TransGen s.Embeds name name

/-- What an error says about the schema is so. -/
def Faulty (s : Schema) : SchemaError → Prop
  | .invalidArrayLength record field length =>
    ∃ r ∈ s.records, ∃ f ∈ r.fields, f.KindFault r.name (.invalidArrayLength record field length)
  | .unsupportedElement record field typeName =>
    ∃ r ∈ s.records, ∃ f ∈ r.fields, f.KindFault r.name (.unsupportedElement record field typeName)
  | .circularReference path =>
    ∃ name rest, path = name :: rest ++ [name] ∧ (name :: rest).Nodup ∧ path.IsChain s.Embeds
  | e => s.NameFault e

/-! ## References by name -/

theorem embeds_of_refersTo (hs : s.Built) (hk : s.Kinds kinds) {i j : Nat}
    (h : RefersTo (s.references kinds) i j) :
    ∃ a b, s.records[i]? = some a ∧ s.records[j]? = some b ∧ s.Embeds a.name b.name := by
  obtain ⟨ks, hks, kind, hkind, name, hname, hj⟩ := refersTo_references.mp h
  obtain ⟨a, ha, hall⟩ := forall₂_getElem? hk.flip hks
  obtain ⟨b, hb, rfl⟩ := hs.getElem?_recordIndex? hj
  obtain ⟨l, hl⟩ := List.mem_iff_getElem?.mp hkind
  obtain ⟨field, hfield, hfk⟩ := forall₂_getElem? hall.flip hl
  have hname' := (FieldDef.recordName?_of_kind hfk).mp hname
  exact ⟨a, b, ha, hb, a, List.mem_of_getElem? ha, rfl, field, List.mem_of_getElem? hfield,
    hname'⟩

/-- With distinct names, a reference by name is one by position. -/
theorem refersTo_of_embeds (hs : s.Built) (hd : (s.records.map (·.name)).Nodup)
    (hk : s.Kinds kinds) {a b : String} (h : s.Embeds a b) :
    ∃ i j, s.recordIndex? a = some i ∧ s.recordIndex? b = some j ∧
      RefersTo (s.references kinds) i j := by
  obtain ⟨record, hrecord, rfl, field, hfield, hname⟩ := h
  obtain ⟨i, hi⟩ := hs.exists_recordIndex? (List.mem_map_of_mem hrecord)
  obtain ⟨j, hj⟩ := hs.exists_recordIndex? hname.2.2
  obtain ⟨record', hrecord', hnames⟩ := hs.getElem?_recordIndex? hi
  obtain rfl : record' = record :=
    List.inj_on_of_nodup_map hd (List.mem_of_getElem? hrecord') hrecord hnames
  obtain ⟨ks, hks, hall⟩ := forall₂_getElem? hk hrecord'
  obtain ⟨l, hl⟩ := List.mem_iff_getElem?.mp hfield
  obtain ⟨kind, hkind, hfk⟩ := forall₂_getElem? hall hl
  exact ⟨i, j, hi, hj, refersTo_references.mpr ⟨ks, hks, kind, List.mem_of_getElem? hkind, b,
    (FieldDef.recordName?_of_kind hfk).mpr hname, hj⟩⟩

/-- The name of the record at a position, and no name past the last. -/
def nameAt (s : Schema) (i : Nat) : String :=
  (s.records[i]?.map (·.name)).getD ""

theorem nameAt_eq {i : Nat} {record : RecordDef} (h : s.records[i]? = some record) :
    s.nameAt i = record.name := by
  rw [nameAt, h, Option.map_some, Option.getD_some]

theorem embeds_nameAt (hs : s.Built) (hk : s.Kinds kinds) {i j : Nat}
    (h : RefersTo (s.references kinds) i j) : s.Embeds (s.nameAt i) (s.nameAt j) := by
  obtain ⟨a, b, ha, hb, hab⟩ := embeds_of_refersTo hs hk h
  rwa [nameAt_eq ha, nameAt_eq hb]

theorem acyclic_iff (hs : s.Built) (hd : (s.records.map (·.name)).Nodup) (hk : s.Kinds kinds) :
    Acyclic (s.references kinds) ↔ ∀ name, ¬ Relation.TransGen s.Embeds name name := by
  constructor
  · intro h name hname
    refine h _ (hname.lift (fun a => (s.recordIndex? a).getD 0) fun a b hab => ?_)
    obtain ⟨i, j, hi, hj, hij⟩ := refersTo_of_embeds hs hd hk hab
    show RefersTo _ ((s.recordIndex? a).getD 0) ((s.recordIndex? b).getD 0)
    rwa [hi, hj]
  · intro h i hi
    exact h _ (hi.lift s.nameAt fun i j => embeds_nameAt hs hk)

theorem exists_of_mem_chain {α : Type} {R : α → α → Prop} {a : α} {l : List α}
    (h : (a :: l).IsChain R) {b : α} (hb : b ∈ l) : ∃ x, R x b := by
  induction l generalizing a with
  | nil => cases hb
  | cons c l ih =>
    rw [List.isChain_cons_cons] at h
    rcases List.mem_cons.mp hb with rfl | hb
    · exact ⟨a, h.1⟩
    · exact ih h.2 hb

/-- The names along a cycle of positions are a cycle of names. -/
theorem faulty_of_isCycle (hs : s.Built) (hd : (s.records.map (·.name)).Nodup)
    (hk : s.Kinds kinds) {c : List Nat} (hc : IsCycle (s.references kinds) c) :
    s.Faulty (.circularReference (c.filterMap fun i => s.records[i]?.map (·.name))) := by
  obtain ⟨node, rest, rfl, hnodup, hchain⟩ := hc
  -- Every node of a cycle is referred to, the first by the one before the last.
  have hrecord : ∀ i ∈ node :: rest, ∃ record, s.records[i]? = some record := by
    intro i hi
    have hi' : i ∈ rest ++ [node] := by simpa [or_comm] using hi
    obtain ⟨j, hj⟩ := exists_of_mem_chain hchain hi'
    obtain ⟨_, record, -, hrecord, -⟩ := embeds_of_refersTo hs hk hj
    exact ⟨record, hrecord⟩
  have hname : ∀ i ∈ node :: rest, s.records[i]?.map (·.name) = some (s.nameAt i) := by
    intro i hi
    obtain ⟨record, hrecord⟩ := hrecord i hi
    rw [nameAt_eq hrecord, hrecord, Option.map_some]
  have hpath : (node :: rest ++ [node]).filterMap (fun i => s.records[i]?.map (·.name)) =
      (node :: rest ++ [node]).map s.nameAt := by
    rw [← List.filterMap_eq_map]
    refine List.filterMap_congr fun i hi => hname i ?_
    simpa [or_comm] using hi
  rw [hpath]
  refine ⟨s.nameAt node, rest.map s.nameAt, by simp, ?_, ?_⟩
  · rw [← List.map_cons]
    refine hnodup.map_on fun i hi j hj hij => ?_
    have hi' := hname i hi
    rw [hij, ← hname j hj, ← List.getElem?_map, ← List.getElem?_map] at hi'
    obtain ⟨record, hrecord⟩ := hrecord i hi
    refine (List.getElem?_inj ?_ hd).mp hi'
    rw [List.length_map]
    exact (List.getElem?_eq_some_iff.mp hrecord).1
  · rw [List.isChain_map]
    exact hchain.imp fun i j => embeds_nameAt hs hk

theorem faulty_of_nameFault {e : SchemaError} (h : s.NameFault e) : s.Faulty e := by
  cases e with
  | emptyName kind context => exact h
  | invalidName kind name => exact h
  | duplicateDefinition kind name => exact h
  | invalidArrayLength record field length =>
    obtain ⟨r, -, hr⟩ := h
    exact hr.elim
  | unsupportedElement record field typeName =>
    obtain ⟨r, -, hr⟩ := h
    exact hr.elim
  | circularReference path =>
    obtain ⟨r, -, hr⟩ := h
    exact hr.elim

theorem faulty_of_kindFault {e : SchemaError} {record : RecordDef} (hr : record ∈ s.records)
    {field : FieldDef} (hf : field ∈ record.fields) (h : field.KindFault record.name e) :
    s.Faulty e := by
  cases e with
  | invalidArrayLength => exact ⟨record, hr, field, hf, h⟩
  | unsupportedElement => exact ⟨record, hr, field, hf, h⟩
  | emptyName => exact h.elim
  | invalidName => exact h.elim
  | duplicateDefinition => exact h.elim
  | circularReference => exact h.elim

/-! ## Acceptance -/

theorem Kinds.admissible (hk : s.Kinds kinds) {record : RecordDef} (hr : record ∈ s.records)
    {field : FieldDef} (hf : field ∈ record.fields) : field.Admissible := by
  obtain ⟨i, hi⟩ := List.mem_iff_getElem?.mp hr
  obtain ⟨ks, -, hall⟩ := forall₂_getElem? hk hi
  obtain ⟨l, hl⟩ := List.mem_iff_getElem?.mp hf
  obtain ⟨kind, -, hkind⟩ := forall₂_getElem? hall hl
  exact FieldDef.admissible_of_kind hkind

theorem wellFormed_of_resolve (hs : s.Built) {r : Resolved} (h : s.resolve.result = .ok r) :
    s.WellFormed := by
  obtain ⟨hnames, kinds, order, hkinds, horder, -⟩ := resolve_ok_iff.mp h
  have hn := s.checkNames_ok_iff.mp hnames
  have hk := kinds_of_ok hkinds
  have hacyclic : Acyclic (s.references kinds) :=
    (topologicalOrder_isOk_iff (hs.closedGraph hk.length_eq.symm)).mp
      ⟨order, dependencyOrder_ok_iff.mp horder⟩
  exact ⟨hn, fun record hr field hf => hk.admissible hr hf,
    (acyclic_iff hs hn.nodup_names hk).mp hacyclic⟩

theorem WellFormed.resolve (h : s.WellFormed) (hs : s.Built) : ∃ r, s.resolve.result = .ok r := by
  have hnames := s.checkNames_ok_iff.mpr h.named
  rcases s.kinds_cases with ⟨kinds, hkinds, hk⟩ | ⟨-, -, record, hr, field, hf, hfield, -⟩
  · have hacyclic := (acyclic_iff hs h.named.nodup_names hk).mpr h.acyclic
    obtain ⟨order, horder⟩ :=
      (topologicalOrder_isOk_iff (hs.closedGraph hk.length_eq.symm)).mpr hacyclic
    exact ⟨_, resolve_ok_iff.mpr
      ⟨hnames, kinds, order, hkinds, dependencyOrder_ok_iff.mpr horder, rfl⟩⟩
  · exact absurd (h.admissible record hr field hf) hfield

theorem faulty_of_resolve (hs : s.Built) {e : SchemaError} (h : s.resolve.result = .error e) :
    s.Faulty e := by
  rcases resolve_error_iff.mp h with hnames | ⟨hnames, hkinds | ⟨kinds, hkinds, horder⟩⟩
  · exact faulty_of_nameFault (s.nameFault_of_checkNames hnames)
  · rcases s.kinds_cases with ⟨kinds, hok, -⟩ | ⟨e', he, record, hr, field, hf, -, hfault⟩
    · rw [hok] at hkinds
      cases hkinds
    · rw [he] at hkinds
      cases hkinds
      exact faulty_of_kindFault hr hf hfault
  · have hn := s.checkNames_ok_iff.mp hnames
    have hk := kinds_of_ok hkinds
    rw [dependencyOrder] at horder
    split at horder
    · cases horder
    · rename_i c hc
      cases horder
      exact faulty_of_isCycle hs hn.nodup_names hk
        (topologicalOrder_error (hs.closedGraph hk.length_eq.symm) hc)

end Schema

/-- A schema made by adding records is accepted if and only if it is well formed, and what the
error says about a refused schema is so. -/
theorem accepted_iff_wellFormed {s : Schema} (built : s.Built) :
    ((∃ r, s.resolve.result = .ok r) ↔ s.WellFormed) ∧
      ∀ e, s.resolve.result = .error e → s.Faulty e :=
  ⟨⟨fun ⟨_, h⟩ => Schema.wellFormed_of_resolve built h, fun h => h.resolve built⟩,
    fun _ => Schema.faulty_of_resolve built⟩

/-- Two records that embed each other, one through a sequence and one through an array. -/
def Sample.loop : Schema :=
  (({ moduleName := "graph" } : Schema).addRecord
    { name := "Node", fields := [{ name := "edges", typeName := "sequence<Edge>" }] }).addRecord
    { name := "Edge", fields := [{ name := "ends", typeName := "Node", length := some 2 }] }

theorem loop_refused :
    Sample.schema.WellFormed ∧ ¬ Sample.loop.WellFormed ∧
      Sample.loop.Faulty (.circularReference ["Node", "Edge", "Node"]) := by
  have hloop : Sample.loop.Built := .add _ (.add _ (.new "graph" .bigEndian))
  have hrefused : Sample.loop.resolve.result =
      .error (.circularReference ["Node", "Edge", "Node"]) := by
    refine Schema.resolve_error_iff.mpr (.inr ⟨by decide +kernel, .inr
      ⟨[[.sequence (.record "Edge")], [.array (.record "Node") 2]], ?_, ?_⟩⟩)
    · decide +kernel
    · decide +kernel
  refine ⟨(accepted_iff_wellFormed Sample.built).1.mp ⟨_, Sample.accepted⟩, fun h => ?_,
    (accepted_iff_wellFormed hloop).2 _ hrefused⟩
  obtain ⟨r, hr⟩ := (accepted_iff_wellFormed hloop).1.mpr h
  rw [hrefused] at hr
  cases hr

end RecordWire
