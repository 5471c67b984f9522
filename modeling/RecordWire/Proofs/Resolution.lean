import RecordWire.Proofs.Kinds
import RecordWire.Proofs.Names
import RecordWire.Proofs.RecordReading
import RecordWire.Proofs.TopologicalOrder
import RecordWire.Schema.Resolved

/-!
What an accepted schema gives.  The records of a resolved schema are told apart by name, each is
coherent, and in dependency order each stands after the records it embeds.
-/

namespace RecordWire

deriving instance DecidableEq for Schema

/-! ## References between records -/

namespace Schema

variable {s : Schema} {kinds : List (List FieldKind)}

theorem refersTo_references {i j : Nat} :
    RefersTo (s.references kinds) i j ↔ ∃ ks, kinds[i]? = some ks ∧ ∃ kind ∈ ks, ∃ name,
      kind.recordName? = some name ∧ s.recordIndex? name = some j := by
  rw [RefersTo, references, List.getElem?_map]
  cases kinds[i]? with
  | none => simp
  | some ks =>
    simp only [Option.map_some, Option.getD_some, List.mem_filterMap, Option.some.injEq,
      exists_eq_left']
    constructor
    · rintro ⟨name, ⟨kind, hmem, hname⟩, hj⟩
      exact ⟨kind, hmem, name, hname, hj⟩
    · rintro ⟨kind, hmem, name, hname, hj⟩
      exact ⟨name, ⟨kind, hmem, hname⟩, hj⟩

theorem Built.closedGraph (hs : s.Built) (hl : kinds.length = s.records.length) :
    ClosedGraph (s.references kinds) := by
  intro i j h
  obtain ⟨ks, -, kind, -, name, -, hj⟩ := refersTo_references.mp h
  obtain ⟨record, hrecord, -⟩ := hs.getElem?_recordIndex? hj
  rw [references, List.length_map, hl]
  exact (List.getElem?_eq_some_iff.mp hrecord).1

end Schema

/-! ## The result of resolving -/

namespace Traced

variable {ε α β : Type}

instance : LawfulMonad (Traced ε) :=
  LawfulMonad.mk' _
    (by
      rintro α ⟨events, result⟩
      cases result <;> simp [Functor.map, Traced.bind])
    (by
      intro α β a f
      simp [Bind.bind, Pure.pure, Traced.bind])
    (by
      rintro α β γ ⟨events, result⟩ f g
      cases result with
      | error e => rfl
      | ok a =>
        show Traced.bind (Traced.bind _ f) g = Traced.bind _ fun a => Traced.bind (f a) g
        cases h : (f a).result <;> simp [Traced.bind, h])

theorem result_mapM (f : α → Traced ε β) (as : List α) :
    (as.mapM f).result = as.mapM fun a => (f a).result := by
  induction as with
  | nil => rfl
  | cons a as ih =>
    rw [List.mapM_cons, List.mapM_cons, result_bind]
    refine congrArg _ (funext fun b => ?_)
    rw [result_bind, ih]
    rfl

end Traced

namespace Schema

variable {s : Schema} {kinds : List (List FieldKind)} {order : List Nat} {r : Resolved}

/-- The records of a schema before their layout is settled. -/
def unsettledRecords (s : Schema) (kinds : List (List FieldKind)) : List ResolvedRecord :=
  (s.records.zip kinds).map fun (record, ks) => ResolvedRecord.ofDef record ks

def resolved (s : Schema) (kinds : List (List FieldKind)) (order : List Nat) : Resolved :=
  let records := s.unsettledRecords kinds
  { moduleName := s.moduleName
    byteOrder := s.byteOrder
    records := order.foldl (settleLayout (lastPositions records)) records
    dependencyOrder := order
    positions := lastPositions records }

theorem resolve_result (s : Schema) :
    s.resolve.result = (do
      s.checkNames.result
      let kinds ← s.kinds
      let order ← s.dependencyOrder kinds
      pure (s.resolved kinds order)) := by
  rw [resolve]
  simp only [Traced.result_bind, Traced.result_ofExcept, Traced.result_mapM, Traced.result_pure]
  refine congrArg _ (funext fun _ => congrArg _ (funext fun kinds => congrArg _
    (funext fun order => ?_)))
  have hrecords : (s.records.zip kinds).mapM
      (fun p => (ResolvedRecord.resolve p.1 p.2).result) =
        (pure (s.unsettledRecords kinds) : Except SchemaError _) :=
    List.mapM_pure
  rw [hrecords]
  rfl

theorem resolve_ok_iff :
    s.resolve.result = .ok r ↔ s.checkNames.result = .ok () ∧ ∃ kinds order,
      s.kinds = .ok kinds ∧ s.dependencyOrder kinds = .ok order ∧ r = s.resolved kinds order := by
  rw [resolve_result]
  cases s.checkNames.result with
  | error e => simp [bind, Except.bind]
  | ok u =>
    cases hk : s.kinds with
    | error e => simp [bind, Except.bind]
    | ok kinds =>
      cases ho : s.dependencyOrder kinds with
      | error e => simp [bind, Except.bind, ho]
      | ok order => simp [bind, Except.bind, ho, pure, Except.pure, eq_comm]

theorem resolve_error_iff {e : SchemaError} :
    s.resolve.result = .error e ↔ s.checkNames.result = .error e ∨ s.checkNames.result = .ok () ∧
      (s.kinds = .error e ∨ ∃ kinds, s.kinds = .ok kinds ∧ s.dependencyOrder kinds = .error e) := by
  rw [resolve_result]
  cases s.checkNames.result with
  | error e => simp [bind, Except.bind]
  | ok u =>
    cases hk : s.kinds with
    | error e => simp [bind, Except.bind]
    | ok kinds =>
      cases ho : s.dependencyOrder kinds with
      | error e => simp [bind, Except.bind, ho]
      | ok order => simp [bind, Except.bind, ho, pure, Except.pure]

theorem dependencyOrder_ok_iff :
    s.dependencyOrder kinds = .ok order ↔ topologicalOrder (s.references kinds) = .ok order := by
  rw [dependencyOrder]
  cases topologicalOrder (s.references kinds) <;> simp

end Schema

section Settling

variable {α : Type} {g : ResolvedRecord → α}
  (hg : ∀ r fixedLayout, g { r with fixedLayout := fixedLayout } = g r)
include hg

/-- Settling the layout of a record changes nothing else. -/
theorem map_settleLayout (positions : List (String × Nat)) (records : List ResolvedRecord)
    (i : Nat) : (settleLayout positions records i).map g = records.map g := by
  refine List.ext_getElem? fun j => ?_
  rw [List.getElem?_map, List.getElem?_map, settleLayout, List.getElem?_modify]
  cases records[j]? with
  | none => rfl
  | some r => by_cases hij : i = j <;> simp [hij, hg]

theorem map_foldl_settleLayout (positions : List (String × Nat)) (records : List ResolvedRecord)
    (order : List Nat) :
    (order.foldl (settleLayout positions) records).map g = records.map g := by
  induction order generalizing records with
  | nil => rfl
  | cons i order ih => rw [List.foldl_cons, ih, map_settleLayout hg]

end Settling

/-! ## Resolved fields -/

theorem map_snakeName_resolveFields (previous : Option FieldKind) (position : Nat)
    (fields : List (FieldDef × FieldKind)) :
    (resolveFields previous position fields).map (·.snakeName) =
      fields.map fun f => Name.snake f.1.name := by
  induction fields generalizing previous position with
  | nil => rfl
  | cons f rest ih => rw [resolveFields, List.map_cons, List.map_cons, ih]

/-- What a resolved field takes over from its declaration and its kind. -/
theorem mem_resolveFields {previous : Option FieldKind} {position : Nat}
    {fields : List (FieldDef × FieldKind)} {f : ResolvedField}
    (hf : f ∈ resolveFields previous position fields) :
    ∃ p ∈ fields, f.typeName = p.1.typeName ∧ f.kind = p.2 ∧
      f.snakeName = Name.snake p.1.name ∧ f.ident = Name.fieldIdent f.snakeName := by
  induction fields generalizing previous position with
  | nil => cases hf
  | cons g rest ih =>
    rw [resolveFields, List.mem_cons] at hf
    rcases hf with rfl | hf
    · exact ⟨g, List.mem_cons_self .., rfl, rfl, rfl, rfl⟩
    · obtain ⟨p, hp, hfrom⟩ := ih hf
      exact ⟨p, List.mem_cons_of_mem _ hp, hfrom⟩

theorem countField_resolveFields {previous : Option FieldKind} {position : Nat}
    {fields : List (FieldDef × FieldKind)} {done rest : List ResolvedField} {f : ResolvedField}
    (hf : resolveFields previous position fields = done ++ f :: rest) :
    f.countField = countPosition ((done.getLast?.map (·.kind)).or previous)
      (position + done.length) f.kind := by
  induction done generalizing previous position fields with
  | nil =>
    cases fields with
    | nil => simp [resolveFields] at hf
    | cons g fields =>
      rw [resolveFields, List.nil_append, List.cons.injEq] at hf
      rw [← hf.1]
      rfl
  | cons g done ih =>
    cases fields with
    | nil => simp [resolveFields] at hf
    | cons h fields =>
      rw [resolveFields, List.cons_append, List.cons.injEq] at hf
      rw [ih hf.2, ← hf.1, List.length_cons, Nat.add_right_comm, Nat.add_assoc,
        List.getLast?_cons]
      cases done.getLast? <;> rfl

/-! ## What resolving guarantees -/

/-- A name stands for the one record that has it, and in dependency order each record stands after
the records it embeds. -/
structure Resolved.Sound (s : Resolved) : Prop where
  coherent : ∀ r ∈ s.records, r.Coherent
  getRecord?_eq_some : ∀ {name r}, s.getRecord? name = some r ↔ r ∈ s.records ∧ r.name = name
  mem_order : ∀ r, r ∈ s.recordsInDependencyOrder ↔ r ∈ s.records
  nodup_order : (s.recordsInDependencyOrder.map (·.name)).Nodup
  embedded : ∀ before r after, s.recordsInDependencyOrder = before ++ r :: after →
    ∀ f ∈ r.fields, ∀ name, f.kind.recordName? = some name → ∃ r' ∈ before, r'.name = name

namespace Schema

variable {s : Schema} {kinds : List (List FieldKind)} {order : List Nat}

theorem map_unsettled_resolved (s : Schema) (kinds : List (List FieldKind)) (order : List Nat) :
    (s.resolved kinds order).records.map (fun r => { r with fixedLayout := false }) =
      s.unsettledRecords kinds := by
  rw [resolved, map_foldl_settleLayout fun _ _ => rfl, unsettledRecords, List.map_map]
  rfl

/-- Each resolved record is made from the declared one in the same place. -/
theorem ofDef_of_getElem?_resolved {i : Nat} {r : ResolvedRecord}
    (h : (s.resolved kinds order).records[i]? = some r) :
    ∃ record ks, s.records[i]? = some record ∧ kinds[i]? = some ks ∧
      { r with fixedLayout := false } = ResolvedRecord.ofDef record ks := by
  have hi := congrArg (·[i]?) (s.map_unsettled_resolved kinds order)
  simp only [unsettledRecords, List.getElem?_map, h, Option.map_some] at hi
  obtain ⟨⟨record, ks⟩, hzip, heq⟩ := Option.map_eq_some_iff.mp hi.symm
  obtain ⟨hrecord, hks⟩ := List.getElem?_zip_eq_some.mp hzip
  exact ⟨record, ks, hrecord, hks, heq.symm⟩

theorem getElem?_resolved {i : Nat} {r : ResolvedRecord}
    (h : (s.resolved kinds order).records[i]? = some r) :
    ∃ record ks, s.records[i]? = some record ∧ kinds[i]? = some ks ∧ r.name = record.name ∧
      r.fields = resolveFields none 0 (record.fields.zip ks) := by
  obtain ⟨record, ks, hrecord, hks, heq⟩ := ofDef_of_getElem?_resolved h
  exact ⟨record, ks, hrecord, hks, congrArg ResolvedRecord.name heq,
    congrArg ResolvedRecord.fields heq⟩

theorem map_name_unsettledRecords (hl : s.records.length = kinds.length) :
    (s.unsettledRecords kinds).map (·.name) = s.records.map (·.name) := by
  have hzip : (s.records.zip kinds).map Prod.fst = s.records := List.map_fst_zip (Nat.le_of_eq hl)
  calc
    _ = ((s.records.zip kinds).map Prod.fst).map (·.name) := by
      rw [unsettledRecords, List.map_map, List.map_map]
      rfl
    _ = _ := by rw [hzip]

theorem map_name_resolved (hl : s.records.length = kinds.length) :
    (s.resolved kinds order).records.map (·.name) = s.records.map (·.name) := by
  rw [resolved, map_foldl_settleLayout fun _ _ => rfl]
  exact map_name_unsettledRecords hl

theorem typeName_of_mem_resolved {r : ResolvedRecord}
    (hr : r ∈ (s.resolved kinds order).records) : r.typeName = Name.typeIdent r.name := by
  obtain ⟨i, hi⟩ := List.mem_iff_getElem?.mp hr
  obtain ⟨record, ks, -, -, heq⟩ := ofDef_of_getElem?_resolved hi
  have htype : r.typeName = Name.typeIdent record.name := congrArg ResolvedRecord.typeName heq
  have hname : r.name = record.name := congrArg ResolvedRecord.name heq
  rw [htype, hname]

theorem WellNamed.nodup_names (hn : s.WellNamed) : (s.records.map (·.name)).Nodup := by
  have h := hn.nodup
  have hmap : (s.records.map fun record => Name.pascal record.name) =
      (s.records.map (·.name)).map Name.pascal := by
    rw [List.map_map]
    rfl
  rw [hmap] at h
  exact h.of_map

theorem WellNamed.coherent (hn : s.WellNamed) (hk : s.Kinds kinds) {r : ResolvedRecord}
    (hr : r ∈ (s.resolved kinds order).records) : r.Coherent := by
  obtain ⟨i, hi⟩ := List.mem_iff_getElem?.mp hr
  obtain ⟨record, ks, hrecord, hks, -, hfields⟩ := getElem?_resolved hi
  constructor
  · have hl : record.fields.length = ks.length := by
      obtain ⟨ks', hks', hall⟩ := forall₂_getElem? hk hrecord
      obtain rfl : ks = ks' := Option.some.inj (hks.symm.trans hks')
      exact hall.length_eq
    have hzip : (record.fields.zip ks).map Prod.fst = record.fields :=
      List.map_fst_zip (Nat.le_of_eq hl)
    have hd := (hn.fields record (List.mem_of_getElem? hrecord)).nodup
    rw [← hzip, List.map_map] at hd
    rw [hfields, map_snakeName_resolveFields]
    exact hd
  · intro done f rest hsplit
    rw [hfields] at hsplit
    have h := countField_resolveFields hsplit
    rwa [Option.or_none, Nat.zero_add] at h

end Schema

theorem lookup_lastPositions {records : List ResolvedRecord} (hd : (records.map (·.name)).Nodup)
    {name : String} {i : Nat} :
    (lastPositions records).lookup name = some i ↔ (records.map (·.name))[i]? = some name := by
  have hkeys : (lastPositions records).map Prod.fst = (records.map (·.name)).reverse := by
    have h : (records.zipIdx.map Prod.fst).map (·.name) = records.map (·.name) := by
      rw [List.zipIdx_map_fst]
    rw [List.map_map] at h
    rw [lastPositions, List.map_reverse, List.map_map]
    exact congrArg List.reverse h
  rw [lookup_eq_some_iff_mem (by rwa [hkeys, List.nodup_reverse]), lastPositions, List.mem_reverse,
    List.mem_map, List.getElem?_map, Option.map_eq_some_iff]
  constructor
  · rintro ⟨⟨r, j⟩, hmem, heq⟩
    rw [Prod.mk.injEq] at heq
    obtain ⟨rfl, rfl⟩ := heq
    exact ⟨r, List.mem_zipIdx_iff_getElem?.mp hmem, rfl⟩
  · rintro ⟨r, hr, rfl⟩
    exact ⟨(r, i), List.mem_zipIdx_iff_getElem?.mpr hr, rfl⟩

namespace Resolved

variable {s : Resolved}

theorem mem_recordsInDependencyOrder (h : ∀ i, i ∈ s.dependencyOrder ↔ i < s.records.length)
    {r : ResolvedRecord} : r ∈ s.recordsInDependencyOrder ↔ r ∈ s.records := by
  rw [recordsInDependencyOrder, List.mem_filterMap, List.mem_iff_getElem?]
  refine exists_congr fun i => ⟨And.right, fun hi => ⟨?_, hi⟩⟩
  exact (h i).mpr (List.getElem?_eq_some_iff.mp hi).1

theorem nodup_recordsInDependencyOrder (hn : (s.records.map (·.name)).Nodup)
    (ho : s.dependencyOrder.Nodup) : (s.recordsInDependencyOrder.map (·.name)).Nodup := by
  rw [recordsInDependencyOrder, List.map_filterMap]
  refine List.Nodup.filterMap (fun i j name hi hj => ?_) ho
  rw [← List.getElem?_map] at hi hj
  exact (List.getElem?_inj (List.getElem?_eq_some_iff.mp hi).1 hn).mp (hi.trans hj.symm)

end Resolved

namespace Schema

variable {s : Schema} {kinds : List (List FieldKind)} {order : List Nat}

/-- In a well-named schema the last record of a name is the only one. -/
theorem WellNamed.lookup_positions (hn : s.WellNamed) (hk : s.Kinds kinds) {name : String}
    {i : Nat} :
    (s.resolved kinds order).positions.lookup name = some i ↔
      (s.records.map (·.name))[i]? = some name := by
  have hnames : (s.unsettledRecords kinds).map (·.name) = s.records.map (·.name) :=
    map_name_unsettledRecords hk.length_eq
  rw [← hnames]
  exact lookup_lastPositions (hnames ▸ hn.nodup_names)

theorem WellNamed.getRecord?_eq_some (hn : s.WellNamed) (hk : s.Kinds kinds) {name : String}
    {r : ResolvedRecord} :
    (s.resolved kinds order).getRecord? name = some r ↔
      r ∈ (s.resolved kinds order).records ∧ r.name = name := by
  have hnames : (s.resolved kinds order).records.map (·.name) = s.records.map (·.name) :=
    map_name_resolved hk.length_eq
  rw [Resolved.getRecord?, Option.bind_eq_some_iff]
  simp only [hn.lookup_positions hk, ← hnames]
  constructor
  · rintro ⟨i, hi, hr⟩
    rw [List.getElem?_map, hr, Option.map_some, Option.some.injEq] at hi
    exact ⟨List.mem_of_getElem? hr, hi⟩
  · rintro ⟨hr, rfl⟩
    obtain ⟨i, hi⟩ := List.mem_iff_getElem?.mp hr
    refine ⟨i, ?_, hi⟩
    rw [List.getElem?_map, hi, Option.map_some]

/-- Each resolved field comes from a declared one. -/
theorem Kinds.exists_def (hk : s.Kinds kinds) {i : Nat} {r : ResolvedRecord}
    (hr : (s.resolved kinds order).records[i]? = some r) {f : ResolvedField} (hf : f ∈ r.fields) :
    ∃ record ks, s.records[i]? = some record ∧ kinds[i]? = some ks ∧ f.kind ∈ ks ∧
      ∃ field ∈ record.fields, f.typeName = field.typeName ∧
        field.kind (s.records.map (·.name)) record.name = .ok f.kind := by
  obtain ⟨record, ks, hrecord, hks, -, hfields⟩ := getElem?_resolved hr
  obtain ⟨ks', hks', hall⟩ := forall₂_getElem? hk hrecord
  obtain rfl : ks = ks' := Option.some.inj (hks.symm.trans hks')
  rw [hfields] at hf
  obtain ⟨⟨field, kind⟩, hp, htype, hkind, -⟩ := mem_resolveFields hf
  obtain ⟨hfield, hmem⟩ := List.of_mem_zip hp
  rw [hkind]
  exact ⟨record, ks, hrecord, hks, hmem, field, hfield, htype, (List.forall₂_iff_zip.mp hall).2 hp⟩

theorem Kinds.exists_field (hk : s.Kinds kinds) {i : Nat} {r : ResolvedRecord}
    (hr : (s.resolved kinds order).records[i]? = some r) {f : ResolvedField} (hf : f ∈ r.fields) :
    (∃ ks, kinds[i]? = some ks ∧ f.kind ∈ ks) ∧ ∃ (field : FieldDef) (record : String),
      field.kind (s.records.map (·.name)) record = .ok f.kind := by
  obtain ⟨record, ks, -, hks, hmem, field, -, -, hkind⟩ := hk.exists_def hr hf
  exact ⟨⟨ks, hks, hmem⟩, field, record.name, hkind⟩

/-- A record that embeds another refers to it in the graph that the order is found for. -/
theorem Built.refersTo_of_embedded (hs : s.Built) (hk : s.Kinds kinds) {i : Nat}
    {r : ResolvedRecord} (hr : (s.resolved kinds order).records[i]? = some r) {f : ResolvedField}
    (hf : f ∈ r.fields) {name : String} (hname : f.kind.recordName? = some name) :
    ∃ j record, RefersTo (s.references kinds) i j ∧ s.records[j]? = some record ∧
      record.name = name := by
  obtain ⟨⟨ks, hks, hkind⟩, field, _, hfield⟩ := hk.exists_field hr hf
  have hmem : name ∈ s.records.map (·.name) :=
    ((FieldDef.recordName?_of_kind hfield).mp hname).2.2
  obtain ⟨j, hj⟩ := hs.exists_recordIndex? hmem
  obtain ⟨record', hrecord', hname'⟩ := hs.getElem?_recordIndex? hj
  exact ⟨j, record', refersTo_references.mpr ⟨ks, hks, f.kind, hkind, name, hname, hj⟩, hrecord',
    hname'⟩

theorem Built.sound_resolved (hs : s.Built) (hn : s.WellNamed) (hk : s.Kinds kinds)
    (ho : topologicalOrder (s.references kinds) = .ok order) :
    (s.resolved kinds order).Sound := by
  have hl := hk.length_eq
  obtain ⟨hperm, hord⟩ := topologicalOrder_ok (hs.closedGraph hl.symm) ho
  have hnames : (s.resolved kinds order).records.map (·.name) = s.records.map (·.name) :=
    map_name_resolved hl
  have hlen : (s.resolved kinds order).records.length = s.records.length := by
    simpa using congrArg List.length hnames
  have hmem : ∀ i, i ∈ order ↔ i < (s.resolved kinds order).records.length := by
    intro i
    rw [hperm.mem_iff, List.mem_range, hlen, hl, references, List.length_map]
  refine ⟨fun r => hn.coherent hk, hn.getRecord?_eq_some hk,
    fun r => Resolved.mem_recordsInDependencyOrder hmem, ?_, ?_⟩
  · refine Resolved.nodup_recordsInDependencyOrder ?_ (hperm.nodup_iff.mpr List.nodup_range)
    rw [hnames]
    exact hn.nodup_names
  · intro before r after hsplit f hf name hname
    obtain ⟨first, last, horder, rfl, hlast⟩ := List.filterMap_eq_append_iff.mp hsplit
    obtain ⟨skipped, i, last, rfl, hskipped, hr, rfl⟩ := List.filterMap_eq_cons_iff.mp hlast
    obtain ⟨j, record, hij, hrecord, rfl⟩ := hs.refersTo_of_embedded hk hr hf hname
    have hj : j ∈ first ++ skipped := hord _ i last (by rw [List.append_assoc]; exact horder) j hij
    obtain ⟨r', hr'⟩ : ∃ r', (s.resolved kinds order).records[j]? = some r' := by
      rw [← Option.isSome_iff_exists, isSome_getElem?, hlen]
      exact (List.getElem?_eq_some_iff.mp hrecord).1
    rcases List.mem_append.mp hj with hj | hj
    · refine ⟨r', List.mem_filterMap.mpr ⟨j, hj, hr'⟩, ?_⟩
      obtain ⟨record', _, hrecord', -, hname', -⟩ := getElem?_resolved hr'
      rw [hname', Option.some.inj (hrecord'.symm.trans hrecord)]
    · rw [hskipped j hj] at hr'
      cases hr'

/-- An accepted schema resolves to a sound one. -/
theorem Built.sound (hs : s.Built) {r : Resolved} (h : s.resolve.result = .ok r) : r.Sound := by
  obtain ⟨hnames, kinds, order, hkinds, horder, rfl⟩ := resolve_ok_iff.mp h
  exact hs.sound_resolved (s.checkNames_ok_iff.mp hnames) (kinds_of_ok hkinds)
    (dependencyOrder_ok_iff.mp horder)

end Schema
end RecordWire
