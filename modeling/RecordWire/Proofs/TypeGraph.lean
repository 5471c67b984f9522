import RecordWire.Proofs.CodecTable

/-!
Record types that contain themselves.  The records of a schema are ordered by their own names, but
the types made from them have names in Pascal case, and a foreign type keeps its name as it is.  So
a field may spell the type of a record without referring to the record.  Nothing else leads from a
record type back to itself.
-/

namespace RecordWire

/-! ## Names of record types -/

namespace Name

theorem toNat_toUpper (c : Char) :
    c.toUpper.toNat = if 97 ≤ c.toNat ∧ c.toNat ≤ 122 then c.toNat - 32 else c.toNat := by
  have h : (c.val ≥ 'a'.val ∧ c.val ≤ 'z'.val) ↔ 97 ≤ c.toNat ∧ c.toNat ≤ 122 := by
    simp only [ge_iff_le, UInt32.le_iff_toNat_le]
    exact Iff.rfl
  rw [Char.toUpper]
  split
  · rename_i hc
    have hn := h.mp hc
    rw [if_pos hn]
    have hshift : ('A'.val - 'a'.val).toNat = 4294967264 := by decide
    show (c.val + ('A'.val - 'a'.val)).toNat = c.val.toNat - 32
    have hn : 97 ≤ c.val.toNat ∧ c.val.toNat ≤ 122 := hn
    rw [UInt32.toNat_add, hshift]
    omega
  · rename_i hc
    rw [if_neg (fun hn => hc (h.mpr hn))]

theorem lowBar_not_mem_pascalChars (capital : Bool) (cs : List Char) :
    '_' ∉ pascalChars capital cs := by
  induction cs generalizing capital with
  | nil => exact List.not_mem_nil
  | cons c rest ih =>
    rw [pascalChars]
    by_cases hsep : c = '_' ∨ c = '-'
    · rw [if_pos hsep]
      exact ih true
    · rw [if_neg hsep, List.mem_cons, not_or]
      refine ⟨fun hbar => ?_, ih false⟩
      have hc : c.toNat ≠ 95 := fun h => hsep (.inl (eq_lowBar_iff.mpr h))
      have hbar := eq_lowBar_iff.mp hbar.symm
      cases capital with
      | false => exact hc hbar
      | true =>
        rw [if_pos rfl, toNat_toUpper] at hbar
        split at hbar <;> omega

theorem lowBar_not_mem_pascal (s : String) : '_' ∉ (pascal s).toList := by
  rw [pascal, String.toList_ofList]
  exact lowBar_not_mem_pascalChars true s.toList

theorem lowBar_mem_append (s : String) : '_' ∈ (s ++ "_").toList := by
  rw [String.toList_append]
  exact List.mem_append_right _ (List.mem_singleton.mpr rfl)

/-- A name in Pascal case does not start with a small letter. -/
theorem head_pascalChars {cs : List Char} {d : Char} (h : (pascalChars true cs).head? = some d) :
    ¬ (97 ≤ d.toNat ∧ d.toNat ≤ 122) := by
  induction cs with
  | nil => cases h
  | cons c rest ih =>
    rw [pascalChars] at h
    by_cases hsep : c = '_' ∨ c = '-'
    · rw [if_pos hsep] at h
      exact ih h
    · rw [if_neg hsep, if_pos rfl, List.head?_cons, Option.some.injEq] at h
      rw [← h, toNat_toUpper]
      split <;> omega

/-- The low bar that keeps a type name from being a keyword is not found in another. -/
theorem pascal_of_typeIdent {a b : String} (h : typeIdent a = typeIdent b) :
    pascal a = pascal b := by
  simp only [typeIdent] at h
  by_cases ha : reserved.contains (pascal a) = true
  · by_cases hb : reserved.contains (pascal b) = true
    · rw [if_pos ha, if_pos hb] at h
      have hlist := congrArg String.toList h
      rw [String.toList_append, String.toList_append] at hlist
      exact String.toList_inj.mp (List.append_cancel_right hlist)
    · rw [if_pos ha, if_neg hb] at h
      exact absurd (h ▸ lowBar_mem_append (pascal a)) (lowBar_not_mem_pascal b)
  · by_cases hb : reserved.contains (pascal b) = true
    · rw [if_neg ha, if_pos hb] at h
      exact absurd (h ▸ lowBar_mem_append (pascal b)) (lowBar_not_mem_pascal a)
    · rwa [if_neg ha, if_neg hb] at h

theorem rustType_ne_typeIdent (p : Primitive) (s : String) : p.rustType ≠ typeIdent s := by
  have hbar : '_' ∉ p.rustType.toList := by cases p <;> decide
  have hhead : ∃ d, p.rustType.toList.head? = some d ∧ 97 ≤ d.toNat ∧ d.toNat ≤ 122 := by
    cases p <;> exact ⟨_, rfl, by decide, by decide⟩
  intro h
  simp only [typeIdent] at h
  by_cases hs : reserved.contains (pascal s) = true
  · rw [if_pos hs] at h
    rw [h] at hbar
    exact hbar (lowBar_mem_append (pascal s))
  · rw [if_neg hs] at h
    obtain ⟨d, hd, hsmall⟩ := hhead
    rw [h, pascal, String.toList_ofList] at hd
    exact head_pascalChars hd hsmall

end Name

/-! ## The graph of record types -/

namespace Resolved

/-- Some field of the type of `a` has the type of `b`, or an array or a sequence of it. -/
def Uses (s : Resolved) (a b : ResolvedRecord) : Prop :=
  a ∈ s.records ∧ b ∈ s.records ∧ ∃ f ∈ a.fields, f.kind.element.rustType = b.typeName

/-- Types are named after records and tell them apart, and no foreign type has the name of a
record. -/
structure Named (s : Resolved) : Prop where
  typeName_eq : ∀ r ∈ s.records, r.typeName = Name.typeIdent r.name
  pascal_inj : ∀ r ∈ s.records, ∀ r' ∈ s.records,
    Name.pascal r.name = Name.pascal r'.name → r = r'
  foreign_ne : ∀ r ∈ s.records, ∀ f ∈ r.fields, ∀ name, f.kind.foreignName? = some name →
    ∀ r' ∈ s.records, r'.name ≠ name

end Resolved

theorem Schema.named {schema : Schema} {s : Resolved} (h : schema.resolve.result = .ok s) :
    s.Named := by
  obtain ⟨hnames, kinds, order, hkinds, -, rfl⟩ := resolve_ok_iff.mp h
  have hn := schema.checkNames_ok_iff.mp hnames
  have hk := kinds_of_ok hkinds
  have hmap : (schema.resolved kinds order).records.map (·.name) = schema.records.map (·.name) :=
    map_name_resolved hk.length_eq
  refine ⟨fun r => typeName_of_mem_resolved, fun r hr r' hr' heq => ?_,
    fun r hr f hf name hname r' hr' heq => ?_⟩
  · have hd : ((schema.resolved kinds order).records.map fun r => Name.pascal r.name).Nodup := by
      have hpascal := congrArg (List.map Name.pascal) hmap
      rw [List.map_map, List.map_map] at hpascal
      exact hpascal ▸ hn.nodup
    exact List.inj_on_of_nodup_map hd hr hr' heq
  · obtain ⟨i, hi⟩ := List.mem_iff_getElem?.mp hr
    obtain ⟨-, field, record, hkind⟩ := hk.exists_field hi hf
    have hforeign : f.kind.element = .foreign name := Element.foreignName?_eq_some.mp hname
    rw [FieldDef.element_of_kind hkind] at hforeign
    apply Element.not_mem_of_ofName hforeign
    rw [← hmap, ← heq]
    exact List.mem_map_of_mem hr'

namespace Resolved

variable {s : Resolved} {a b r : ResolvedRecord}

/-- A field that has the type of a record holds the record, or else it is foreign. -/
theorem Sound.embeds_or_foreign (hs : s.Sound) (hn : s.Named) (ha : a ∈ s.records)
    (hb : b ∈ s.records) {f : ResolvedField} (hf : f ∈ a.fields)
    (htype : f.kind.element.rustType = b.typeName) :
    s.Embeds a b ∨ f.kind.foreignName? = some b.typeName := by
  rw [hn.typeName_eq b hb] at htype ⊢
  rcases hs.field_cases ha hf with ⟨p, he⟩ | ⟨name, -, he⟩ | ⟨r', hr', he⟩
  · rw [he] at htype
    exact absurd htype (Name.rustType_ne_typeIdent p b.name)
  · rw [he] at htype
    refine .inr (Element.foreignName?_eq_some.mpr ?_)
    rw [he]
    exact congrArg Element.foreign htype
  · rw [he] at htype
    obtain rfl := hn.pascal_inj r' hr'.1 b hb (Name.pascal_of_typeIdent htype)
    exact .inl hr'

theorem Sound.not_embeds_self (hs : s.Sound) (hr : r ∈ s.records) :
    ¬ Relation.TransGen s.Embeds r r := by
  apply hs.embeds_induction (P := fun r => ¬ Relation.TransGen s.Embeds r r) ?_ hr
  intro r _ ih hcycle
  obtain ⟨r', hstep, hback⟩ := Relation.TransGen.head'_iff.mp hcycle
  exact ih r' hstep (.tail' hback hstep)

/-- Somewhere on the way from a record back to itself the next record is not embedded. -/
theorem Sound.exists_not_embeds (hs : s.Sound) (ha : a ∈ s.records) (rest : List ResolvedRecord) :
    ∃ x y, [x, y] <:+: a :: rest ++ [a] ∧ ¬ s.Embeds x y := by
  by_contra h
  push Not at h
  have hchain : (a :: rest ++ [a]).IsChain s.Embeds := (List.isChain_isInfix _).imp h
  exact hs.not_embeds_self ha (transGen_of_isChain hchain)

end Resolved

namespace Sample

def nodeDef : RecordDef where
  name := "node"
  fields := [{ name := "link", typeName := "link" }]

def linkDef : RecordDef where
  name := "link"
  fields := [{ name := "target", typeName := "Node" }]

/-- A node has a link, and a link has a foreign type that is spelled like the type of a node. -/
def links : Schema :=
  (({ moduleName := "links" } : Schema).addRecord nodeDef).addRecord linkDef

def linksKinds : List (List FieldKind) :=
  [[.single (.record "link")], [.single (.foreign "Node")]]

def linksResolved : Resolved :=
  links.resolved linksKinds [1, 0]

theorem links_built : links.Built :=
  .add linkDef (.add nodeDef (.new "links" .bigEndian))

theorem links_accepted : links.resolve.result = .ok linksResolved := by
  refine Schema.resolve_ok_iff.mpr ⟨?_, linksKinds, [1, 0], ?_, ?_, rfl⟩
  · decide +kernel
  · decide +kernel
  · decide +kernel

def nodeRecord : ResolvedRecord where
  name := "node"
  typeName := "Node"
  comment := none
  fields := [{ name := "link", snakeName := "link", ident := "link", typeName := "link"
               comment := none, kind := .single (.record "link"), countField := none }]
  fixedLayout := false

def linkRecord : ResolvedRecord where
  name := "link"
  typeName := "Link"
  comment := none
  fields := [{ name := "target", snakeName := "target", ident := "target", typeName := "Node"
               comment := none, kind := .single (.foreign "Node"), countField := none }]
  fixedLayout := false

theorem links_records : linksResolved.records = [nodeRecord, linkRecord] := by
  decide +kernel

theorem node_uses_link : linksResolved.Uses nodeRecord linkRecord := by
  refine ⟨by simp [links_records], by simp [links_records], _, List.mem_singleton.mpr rfl, ?_⟩
  decide +kernel

theorem link_uses_node : linksResolved.Uses linkRecord nodeRecord :=
  ⟨by simp [links_records], by simp [links_records], _, List.mem_singleton.mpr rfl, rfl⟩

end Sample

/-- An accepted schema may have a type that contains itself. -/
theorem node_contains_itself :
    Sample.links.Built ∧ Sample.links.resolve.result = .ok Sample.linksResolved ∧
      Relation.TransGen Sample.linksResolved.Uses Sample.nodeRecord Sample.nodeRecord :=
  ⟨Sample.links_built, Sample.links_accepted,
    .tail (.single Sample.node_uses_link) Sample.link_uses_node⟩

/-- For every accepted schema, a chain of record types that leads from one back to itself has in it
a type that is named by foreign fields only, and that is not the name of any record. -/
theorem recursion_through_foreign_name {schema : Schema} {s : Resolved} (built : schema.Built)
    (accepted : schema.resolve.result = .ok s) {a : ResolvedRecord} {rest : List ResolvedRecord}
    (cycle : (a :: rest ++ [a]).IsChain s.Uses) :
    ∃ x y, [x, y] <:+: a :: rest ++ [a] ∧
      (∃ f ∈ x.fields, f.kind.foreignName? = some y.typeName) ∧
      (∀ f ∈ x.fields, f.kind.element.rustType = y.typeName → f.kind.isForeign = true) ∧
      ∀ r ∈ s.records, r.name ≠ y.typeName := by
  have hs := built.sound accepted
  have hn := Schema.named accepted
  have ha : a ∈ s.records := by
    obtain ⟨b, hstep, -⟩ := Relation.TransGen.head'_iff.mp (transGen_of_isChain cycle)
    exact hstep.1
  obtain ⟨x, y, hinfix, hembeds⟩ := hs.exists_not_embeds ha rest
  have hpair := List.IsChain.infix cycle hinfix
  obtain ⟨hx, hy, f, hf, htype⟩ := List.isChain_pair.mp hpair
  have hforeign : ∀ f ∈ x.fields, f.kind.element.rustType = y.typeName →
      f.kind.foreignName? = some y.typeName := by
    intro f hf htype
    exact (hs.embeds_or_foreign hn hx hy hf htype).resolve_left hembeds
  refine ⟨x, y, hinfix, ⟨f, hf, hforeign f hf htype⟩, fun f hf htype => ?_,
    hn.foreign_ne x hx f hf _ (hforeign f hf htype)⟩
  rw [FieldKind.isForeign, hforeign f hf htype, Option.isSome_some]

/-- From a link back to its node there is only the foreign name. -/
theorem node_through_foreign_name :
    [Sample.nodeRecord, Sample.linkRecord, Sample.nodeRecord].IsChain Sample.linksResolved.Uses ∧
    ∃ x y, [x, y] <:+: [Sample.nodeRecord, Sample.linkRecord, Sample.nodeRecord] ∧
      (∃ f ∈ x.fields, f.kind.foreignName? = some y.typeName) ∧
      (∀ f ∈ x.fields, f.kind.element.rustType = y.typeName → f.kind.isForeign = true) ∧
      ∀ r ∈ Sample.linksResolved.records, r.name ≠ y.typeName := by
  have cycle : (Sample.nodeRecord :: [Sample.linkRecord] ++ [Sample.nodeRecord]).IsChain
      Sample.linksResolved.Uses :=
    .cons_cons Sample.node_uses_link (List.isChain_pair.mpr Sample.link_uses_node)
  exact ⟨cycle, recursion_through_foreign_name Sample.links_built Sample.links_accepted cycle⟩

end RecordWire
