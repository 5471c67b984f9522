import RecordWire.Proofs.CodecTable

/-!
Which records have a fixed layout.  One pass in dependency order settles it for each record, from
what it has settled before for the records inside.  So a record has a fixed layout exactly when
neither it nor any record inside it, at any depth, has a sequence or a foreign type.
-/

namespace RecordWire

/-- Record `a` has a field of the record `b`, or a fixed array of it. -/
def Resolved.Inlines (s : Resolved) (a b : ResolvedRecord) : Prop :=
  b ∈ s.records ∧ ∃ f ∈ a.fields,
    f.kind = .single (.record b.name) ∨ ∃ n, f.kind = .array (.record b.name) n

/-! ## The pass over the records -/

section Pass

variable {positions : List (String × Nat)} {records : List ResolvedRecord} {i j : Nat}

/-- A record that does not come any more stays as it is. -/
theorem getElem?_foldl_settleLayout {order : List Nat} (h : j ∉ order) :
    (order.foldl (settleLayout positions) records)[j]? = records[j]? := by
  induction order generalizing records with
  | nil => rfl
  | cons i order ih =>
    rw [List.mem_cons, not_or] at h
    rw [List.foldl_cons, ih h.2, settleLayout, List.getElem?_modify_ne _ _ (Ne.symm h.1)]

/-- The last time a record comes, its flag is set by the flags there are then. -/
theorem fixedLayout_of_foldl {before after : List Nat} (hi : i ∉ after) {r : ResolvedRecord}
    (hr : ((before ++ i :: after).foldl (settleLayout positions) records)[i]? = some r) :
    r.fixedLayout = r.fields.all fun f => f.kind.hasFixedLayout fun name =>
      ((positions.lookup name).bind
        ((before.foldl (settleLayout positions) records)[·]?)).any (·.fixedLayout) := by
  rw [List.foldl_append, List.foldl_cons, getElem?_foldl_settleLayout hi, settleLayout,
    List.getElem?_modify_eq, Option.map_eq_map, Option.map_eq_some_iff] at hr
  obtain ⟨r', -, rfl⟩ := hr
  rfl

end Pass

/-- Each flag is the one that the flags of the other records give. -/
def Resolved.Settled (s : Resolved) : Prop :=
  ∀ r ∈ s.records, r.fixedLayout = r.fields.all fun f =>
    f.kind.hasFixedLayout fun name => (s.getRecord? name).any (·.fixedLayout)

/-- A field allows a fixed layout if it is no sequence and not foreign, and the record it holds has
one. -/
theorem FieldKind.hasFixedLayout_iff {kind : FieldKind} {fixed : String → Bool} :
    kind.hasFixedLayout fixed = true ↔ (kind.isSequence = false ∧ kind.isForeign = false) ∧
      ∀ name, kind.recordName? = some name → fixed name = true := by
  cases kind with
  | sequence e => simp [hasFixedLayout, isSequence]
  | single e =>
    cases e <;> simp [hasFixedLayout, isSequence, isForeign, foreignName?, recordName?, element,
      Element.foreignName?, Element.recordName?]
  | array e n =>
    cases e <;> simp [hasFixedLayout, isSequence, isForeign, foreignName?, recordName?, element,
      Element.foreignName?, Element.recordName?]

namespace Schema

variable {s : Schema} {kinds : List (List FieldKind)}

/-- When a record comes, the records inside it are already what they are in the end. -/
theorem Built.getRecord?_of_before (hs : s.Built) (hn : s.WellNamed) (hk : s.Kinds kinds)
    {before after : List Nat} {i : Nat}
    (ho : topologicalOrder (s.references kinds) = .ok (before ++ i :: after)) {r : ResolvedRecord}
    (hr : (s.resolved kinds (before ++ i :: after)).records[i]? = some r) {f : ResolvedField}
    (hf : f ∈ r.fields) {name : String} (hname : f.kind.recordName? = some name) :
    (s.resolved kinds (before ++ i :: after)).getRecord? name =
      ((lastPositions (s.unsettledRecords kinds)).lookup name).bind
        ((before.foldl (settleLayout (lastPositions (s.unsettledRecords kinds)))
          (s.unsettledRecords kinds))[·]?) := by
  obtain ⟨hperm, hord⟩ := topologicalOrder_ok (hs.closedGraph hk.length_eq.symm) ho
  obtain ⟨j, record, hij, hrecord, rfl⟩ := hs.refersTo_of_embedded hk hr hf hname
  have hlater : j ∉ i :: after := by
    have hnodup : (before ++ i :: after).Nodup := hperm.nodup_iff.mpr List.nodup_range
    rw [List.nodup_append] at hnodup
    exact fun h => hnodup.2.2 j (hord before i after rfl j hij) j h rfl
  have hpositions : (s.resolved kinds (before ++ i :: after)).positions =
      lastPositions (s.unsettledRecords kinds) := rfl
  have hlookup : (lastPositions (s.unsettledRecords kinds)).lookup record.name = some j := by
    rw [← hpositions, hn.lookup_positions hk, List.getElem?_map, hrecord, Option.map_some]
  have hfinal : (s.resolved kinds (before ++ i :: after)).records[j]? =
      (before.foldl (settleLayout (lastPositions (s.unsettledRecords kinds)))
        (s.unsettledRecords kinds))[j]? := by
    rw [resolved, List.foldl_append]
    exact getElem?_foldl_settleLayout hlater
  rw [Resolved.getRecord?, hpositions, hlookup, Option.bind_some, Option.bind_some, hfinal]

theorem Built.settled_resolved (hs : s.Built) (hn : s.WellNamed) (hk : s.Kinds kinds)
    {order : List Nat} (ho : topologicalOrder (s.references kinds) = .ok order) :
    (s.resolved kinds order).Settled := by
  obtain ⟨hperm, -⟩ := topologicalOrder_ok (hs.closedGraph hk.length_eq.symm) ho
  intro r hr
  obtain ⟨i, hi⟩ := List.mem_iff_getElem?.mp hr
  have hmem : i ∈ order := by
    obtain ⟨-, ks, -, hks, -⟩ := getElem?_resolved hi
    rw [hperm.mem_iff, List.mem_range, references, List.length_map]
    exact (List.getElem?_eq_some_iff.mp hks).1
  obtain ⟨before, after, rfl⟩ := List.append_of_mem hmem
  have hlast : i ∉ after := by
    have hnodup : (before ++ i :: after).Nodup := hperm.nodup_iff.mpr List.nodup_range
    rw [List.nodup_append, List.nodup_cons] at hnodup
    exact hnodup.2.1.1
  rw [fixedLayout_of_foldl hlast hi, Bool.eq_iff_iff, List.all_eq_true, List.all_eq_true]
  apply forall₂_congr
  intro f hf
  rw [FieldKind.hasFixedLayout_iff, FieldKind.hasFixedLayout_iff]
  apply and_congr_right'
  apply forall₂_congr
  intro name hname
  rw [hs.getRecord?_of_before hn hk ho hi hf hname]

theorem Built.settled (hs : s.Built) {r : Resolved} (h : s.resolve.result = .ok r) : r.Settled := by
  obtain ⟨hnames, kinds, order, hkinds, horder, rfl⟩ := resolve_ok_iff.mp h
  exact hs.settled_resolved (s.checkNames_ok_iff.mp hnames) (kinds_of_ok hkinds)
    (dependencyOrder_ok_iff.mp horder)

end Schema

/-! ## Records inside records -/

/-- The record itself has neither a sequence nor a foreign type. -/
def ResolvedRecord.Rigid (r : ResolvedRecord) : Prop :=
  ∀ f ∈ r.fields, f.kind.isSequence = false ∧ f.kind.isForeign = false

theorem ResolvedRecord.Rigid.element_ne_foreign {r : ResolvedRecord} (hr : r.Rigid)
    {f : ResolvedField} (hf : f ∈ r.fields) (name : String) : f.kind.element ≠ .foreign name := by
  intro he
  have hforeign := (hr f hf).2
  rw [FieldKind.isForeign, FieldKind.foreignName?, he] at hforeign
  cases hforeign

namespace Resolved

variable {s : Resolved} {r r' : ResolvedRecord}

/-- In a record without sequences, the records that fields refer to are inside. -/
theorem inlines_of_element {f : ResolvedField} (hf : f ∈ r.fields)
    (hs : f.kind.isSequence = false) (he : f.kind.element = .record r'.name)
    (hr' : r' ∈ s.records) : s.Inlines r r' := by
  refine ⟨hr', f, hf, ?_⟩
  cases hk : f.kind with
  | single e =>
    rw [hk] at he
    exact .inl (congrArg FieldKind.single he)
  | array e n =>
    rw [hk] at he
    exact .inr ⟨n, congrArg (FieldKind.array · n) he⟩
  | sequence e =>
    rw [hk] at hs
    cases hs

theorem Inlines.embeds (h : s.Inlines r r') : s.Embeds r r' := by
  obtain ⟨hr', f, hf, hk | ⟨n, hk⟩⟩ := h
  · exact ⟨hr', f, hf, by rw [hk]; rfl⟩
  · exact ⟨hr', f, hf, by rw [hk]; rfl⟩

/-- One record further in. -/
theorem Sound.fixedLayout_step (hs : s.Sound) (hl : s.Settled) (hr : r ∈ s.records) :
    r.fixedLayout = true ↔ r.Rigid ∧ ∀ r', s.Inlines r r' → r'.fixedLayout = true := by
  have hfound : ∀ r' ∈ s.records, s.getRecord? r'.name = some r' := by
    intro r' hr'
    exact hs.getRecord?_eq_some.mpr ⟨hr', rfl⟩
  rw [hl r hr, List.all_eq_true]
  simp only [FieldKind.hasFixedLayout_iff]
  constructor
  · intro h
    refine ⟨fun f hf => (h f hf).1, fun r' hr' => ?_⟩
    obtain ⟨-, f, hf, hname⟩ := hr'.embeds
    have hfixed := (h f hf).2 _ hname
    rwa [hfound r' hr'.1, Option.any_some] at hfixed
  · rintro ⟨hrigid, hinside⟩ f hf
    refine ⟨hrigid f hf, fun name hname => ?_⟩
    obtain ⟨r', hr', rfl⟩ := hs.embeds_of_recordName? hr hf hname
    rw [hfound r' hr'.1, Option.any_some]
    have he := Element.recordName?_eq_some.mp hname
    exact hinside r' (inlines_of_element hf (hrigid f hf).1 he hr'.1)

theorem mem_of_reaches (h : Relation.ReflTransGen s.Inlines r r') (hr : r ∈ s.records) :
    r' ∈ s.records := by
  induction h with
  | refl => exact hr
  | tail _ hstep _ => exact hstep.1

theorem Sound.fixedLayout_of_reaches (hs : s.Sound) (hl : s.Settled) (hr : r ∈ s.records)
    (hfixed : r.fixedLayout = true) (h : Relation.ReflTransGen s.Inlines r r') :
    r'.fixedLayout = true := by
  induction h with
  | refl => exact hfixed
  | tail hreach hstep ih =>
    exact ((hs.fixedLayout_step hl (mem_of_reaches hreach hr)).mp ih).2 _ hstep

/-- The flags follow from the inside out, in the order in which the records can be built. -/
theorem Sound.fixedLayout_of_rigid (hs : s.Sound) (hl : s.Settled) (hr : r ∈ s.records) :
    (∀ r', Relation.ReflTransGen s.Inlines r r' → r'.Rigid) → r.fixedLayout = true := by
  apply hs.embeds_induction (P := fun r =>
    (∀ r', Relation.ReflTransGen s.Inlines r r' → r'.Rigid) → r.fixedLayout = true) ?_ hr
  intro r hr ih hrigid
  refine (hs.fixedLayout_step hl hr).mpr ⟨hrigid r .refl, fun r' hr' => ?_⟩
  exact ih r' hr'.embeds fun r'' hreach => hrigid r'' (.head hr' hreach)

end Resolved

/-- For every accepted schema, a record has a fixed layout if and only if there is no sequence and
no foreign type in it or in any record inside it. -/
theorem fixedLayout_iff_rigid_inside {schema : Schema} {s : Resolved} (built : schema.Built)
    (accepted : schema.resolve.result = .ok s) {r : ResolvedRecord} (mem : r ∈ s.records) :
    r.fixedLayout = true ↔ ∀ r', Relation.ReflTransGen s.Inlines r r' →
      ∀ f ∈ r'.fields, f.kind.isSequence = false ∧ f.kind.isForeign = false := by
  have hs := built.sound accepted
  have hl := built.settled accepted
  constructor
  · intro hfixed r' hreach
    have hfixed' := hs.fixedLayout_of_reaches hl mem hfixed hreach
    exact ((hs.fixedLayout_step hl (Resolved.mem_of_reaches hreach mem)).mp hfixed').1
  · exact hs.fixedLayout_of_rigid hl mem

namespace Sample

def boardDef : RecordDef where
  name := "Board"
  fields := [{ name := "corners", typeName := "Point", length := some 2 },
    { name := "mark", typeName := "char" }]

def tripDef : RecordDef where
  name := "Trip"
  fields := [{ name := "start", typeName := "Point" },
    { name := "legs", typeName := "Route", length := some 2 }]

def pointDef : RecordDef where
  name := "Point"
  fields := [{ name := "x", typeName := "int16" }, { name := "y", typeName := "int16" }]

def routeDef : RecordDef where
  name := "Route"
  fields := [{ name := "stops", typeName := "sequence<Point>" }]

/-- Two records that stand before the records inside them. -/
def boards : Schema :=
  (((({ moduleName := "boards" } : Schema).addRecord boardDef).addRecord tripDef).addRecord
    pointDef).addRecord routeDef

def boardsKinds : List (List FieldKind) :=
  [[.array (.record "Point") 2, .single (.primitive .char)],
    [.single (.record "Point"), .array (.record "Route") 2],
    [.single (.primitive .int16), .single (.primitive .int16)], [.sequence (.record "Point")]]

def boardsResolved : Resolved :=
  boards.resolved boardsKinds [2, 0, 3, 1]

theorem boards_built : boards.Built :=
  .add routeDef (.add pointDef (.add tripDef (.add boardDef (.new "boards" .bigEndian))))

theorem boards_accepted : boards.resolve.result = .ok boardsResolved := by
  refine Schema.resolve_ok_iff.mpr ⟨?_, boardsKinds, [2, 0, 3, 1], ?_, ?_, rfl⟩
  · decide +kernel
  · decide +kernel
  · decide +kernel

/-- A field that keeps its name and is counted by no other. -/
def field (name typeName : String) (kind : FieldKind) : ResolvedField where
  name := name
  snakeName := name
  ident := name
  typeName := typeName
  comment := none
  kind := kind
  countField := none

/-- A record that keeps its name. -/
def record (name : String) (fields : List ResolvedField) (fixedLayout : Bool) :
    ResolvedRecord where
  name := name
  typeName := name
  comment := none
  fields := fields
  fixedLayout := fixedLayout

def boardRecord : ResolvedRecord :=
  record "Board" [field "corners" "Point" (.array (.record "Point") 2),
    field "mark" "char" (.single (.primitive .char))] true

def tripRecord : ResolvedRecord :=
  record "Trip" [field "start" "Point" (.single (.record "Point")),
    field "legs" "Route" (.array (.record "Route") 2)] false

def pointRecord : ResolvedRecord :=
  record "Point" [field "x" "int16" (.single (.primitive .int16)),
    field "y" "int16" (.single (.primitive .int16))] true

def routeRecord : ResolvedRecord :=
  record "Route" [field "stops" "sequence<Point>" (.sequence (.record "Point"))] false

theorem boards_records :
    boardsResolved.records = [boardRecord, tripRecord, pointRecord, routeRecord] := by
  decide +kernel

theorem trip_inlines_route : boardsResolved.Inlines tripRecord routeRecord :=
  ⟨by simp [boards_records], tripRecord.fields[1], List.getElem_mem _, .inr ⟨2, rfl⟩⟩

end Sample

/-- A board has points inside and nothing else.  A trip has no sequence of its own, but its legs
do. -/
theorem board_rigid_trip_not :
    Sample.tripRecord.fixedLayout = false ∧
      ∀ r', Relation.ReflTransGen Sample.boardsResolved.Inlines Sample.boardRecord r' →
        ∀ f ∈ r'.fields, f.kind.isSequence = false ∧ f.kind.isForeign = false := by
  have board : Sample.boardRecord ∈ Sample.boardsResolved.records := by
    simp [Sample.boards_records]
  have trip : Sample.tripRecord ∈ Sample.boardsResolved.records := by
    simp [Sample.boards_records]
  constructor
  · rw [← Bool.not_eq_true]
    intro hfixed
    have hrigid := (fixedLayout_iff_rigid_inside Sample.boards_built Sample.boards_accepted trip).mp
      hfixed _ (.single Sample.trip_inlines_route)
    exact absurd (hrigid _ (List.mem_singleton.mpr rfl)).1 (by decide)
  · exact (fixedLayout_iff_rigid_inside Sample.boards_built Sample.boards_accepted board).mp rfl

end RecordWire
