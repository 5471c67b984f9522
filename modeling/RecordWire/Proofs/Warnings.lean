import RecordWire.Proofs.Resolution

/-!
What a schema is warned about.  Names are checked first, and a record that a primitive hides is
warned about there.  Foreign types are warned about only when all records are resolved, so a schema
that is refused on the way has no such warning.
-/

namespace RecordWire

/-! ## Events -/

namespace Traced

variable {ε α β : Type}

theorem events_bind_of_ok {t : Traced ε α} {a : α} (h : t.result = .ok a) (f : α → Traced ε β) :
    (t >>= f).events = t.events ++ (f a).events := by
  show (Traced.bind t f).events = _
  rw [Traced.bind, h]

theorem events_bind_of_error {t : Traced ε α} {e : ε} (h : t.result = .error e)
    (f : α → Traced ε β) : (t >>= f).events = t.events := by
  show (Traced.bind t f).events = _
  rw [Traced.bind, h]

theorem events_ofExcept_bind {x : Except ε α} {a : α} (h : x = .ok a) (f : α → Traced ε β) :
    (ofExcept x >>= f).events = (f a).events := by
  rw [events_bind_of_ok (by rw [result_ofExcept, h])]
  rfl

/-- Steps that cannot fail raise their events one after the other. -/
theorem events_mapM {f : α → Traced ε β} {g : α → β} (h : ∀ a, (f a).result = .ok (g a))
    (as : List α) : (as.mapM f).events = as.flatMap fun a => (f a).events := by
  have hresult : ∀ as : List α, (as.mapM f).result = .ok (as.map g) := by
    intro as
    rw [result_mapM]
    simp only [h]
    exact List.mapM_pure
  induction as with
  | nil => rfl
  | cons a as ih =>
    rw [List.mapM_cons, events_bind_of_ok (h a), events_bind_of_ok (hresult as), ih,
      List.flatMap_cons]
    exact congrArg _ (List.append_nil _)

end Traced

/-! ## Records with the name of a primitive -/

/-- One warning for each record with the name of a primitive. -/
def shadowWarnings (records : List RecordDef) : List Event :=
  (records.filter fun record => (Primitive.ofName? record.name).isSome).map
    fun record => .shadowedPrimitive record.name

theorem shadowWarnings_cons (record : RecordDef) (rest : List RecordDef) :
    shadowWarnings (record :: rest) = shadowWarnings [record] ++ shadowWarnings rest := by
  rw [shadowWarnings, ← List.singleton_append, List.filter_append, List.map_append]
  rfl

/-- Warning about a record whose own name has passed. -/
theorem events_warned_bind (record : RecordDef) (next : Traced SchemaError Unit) :
    (do
      if (Primitive.ofName? record.name).isSome then
        Traced.raise (.shadowedPrimitive record.name)
      next).events = shadowWarnings [record] ++ next.events := by
  by_cases h : (Primitive.ofName? record.name).isSome = true
  · rw [if_pos h, shadowWarnings, List.filter_singleton, h]
    rfl
  · rw [if_neg h, shadowWarnings, List.filter_singleton, Bool.eq_false_iff.mpr h]
    rfl

/-- The check of names warns about the records it gets to, and if it passes about all. -/
theorem checkRecordNames_events (moduleName : String) (seen : List (String × String))
    (records : List RecordDef) :
    (checkRecordNames moduleName seen records).events <+: shadowWarnings records ∧
      ((checkRecordNames moduleName seen records).result = .ok () →
        (checkRecordNames moduleName seen records).events = shadowWarnings records) := by
  induction records generalizing seen with
  | nil => exact ⟨List.prefix_rfl, fun _ => rfl⟩
  | cons record rest ih =>
    rw [shadowWarnings_cons, checkRecordNames_cons_result, checkRecordNames]
    dsimp only
    -- A record that is refused for its own name is refused before it is warned about.
    split
    · exact ⟨List.nil_prefix, fun h => by cases h⟩
    split
    · exact ⟨List.nil_prefix, fun h => by cases h⟩
    cases seen.lookup (Name.pascal record.name) with
    | some previous => exact ⟨List.nil_prefix, fun h => by cases h⟩
    | none =>
      dsimp only
      rw [events_warned_bind]
      cases hfields : checkFieldNames record.name [] record.fields with
      | error e =>
        rw [Traced.events_bind_of_error rfl]
        exact ⟨(List.prefix_append_right_inj _).mpr List.nil_prefix, fun h => by cases h⟩
      | ok u =>
        obtain ⟨hbegins, hall⟩ := ih ((Name.pascal record.name, record.name) :: seen)
        rw [Traced.events_ofExcept_bind rfl]
        exact ⟨(List.prefix_append_right_inj _).mpr hbegins, fun h => by rw [hall h]⟩

theorem Schema.checkNames_events (s : Schema) :
    s.checkNames.events <+: shadowWarnings s.records ∧
      (s.checkNames.result = .ok () → s.checkNames.events = shadowWarnings s.records) := by
  rw [checkNames]
  split
  · exact checkRecordNames_events s.moduleName [] s.records
  · exact ⟨List.nil_prefix, fun h => by cases h⟩

/-! ## Fields of foreign types -/

/-- A field of a foreign type. -/
structure ForeignUse where
  record : String
  field : String
  typeName : String

def ForeignUse.warning (u : ForeignUse) : Event :=
  .foreignType u.record u.field u.typeName

/-- The type of a field, or of its elements, if that is neither a primitive nor a record. -/
def FieldDef.foreignType? (field : FieldDef) (records : List String) : Option String :=
  if (Primitive.ofName? field.elementName).isSome || records.contains field.elementName then none
  else some field.elementName

def RecordDef.foreignUses (record : RecordDef) (records : List String) : List ForeignUse :=
  record.fields.filterMap fun field =>
    (field.foreignType? records).map (ForeignUse.mk record.name field.name)

/-- All uses of foreign types, in the order of the document. -/
def Schema.foreignUses (s : Schema) : List ForeignUse :=
  s.records.flatMap fun record => record.foreignUses (s.records.map (·.name))

theorem FieldDef.foreignType?_eq {field : FieldDef} {records : List String} {record : String}
    {kind : FieldKind} (h : field.kind records record = .ok kind) :
    kind.foreignName? = field.foreignType? records := by
  refine Option.ext fun name => ?_
  rw [FieldDef.foreignName?_of_kind h, foreignType?]
  cases hp : Primitive.ofName? field.elementName with
  | some p =>
    simp only [Option.isSome_some, Bool.true_or, if_true, reduceCtorEq, iff_false, not_and]
    rintro rfl hnone
    rw [hp] at hnone
    cases hnone
  | none =>
    by_cases hmem : field.elementName ∈ records
    · simp only [Option.isSome_none, Bool.false_or, List.contains_iff_mem, hmem, if_true,
        reduceCtorEq, iff_false, not_and, not_not]
      rintro rfl -
      exact hmem
    · simp only [Option.isSome_none, Bool.false_or, List.contains_iff_mem, hmem, if_false,
        Option.some.injEq]
      exact ⟨fun h => h.1, fun h => h ▸ ⟨rfl, hp, hmem⟩⟩

theorem filterMap_resolveFields {record : String} {names : List String} {fields : List FieldDef}
    {kinds : List FieldKind}
    (h : List.Forall₂ (fun (field : FieldDef) k => field.kind names record = .ok k) fields kinds)
    (previous : Option FieldKind) (position : Nat) :
    (resolveFields previous position (fields.zip kinds)).filterMap
        (fun f => f.kind.foreignName?.map (ForeignUse.mk record f.name)) =
      fields.filterMap fun field =>
        (field.foreignType? names).map (ForeignUse.mk record field.name) := by
  induction h generalizing previous position with
  | nil => rfl
  | cons hk _ ih =>
    rw [List.zip_cons_cons, resolveFields, List.filterMap_cons, List.filterMap_cons, ih,
      ← FieldDef.foreignType?_eq hk]

namespace ResolvedRecord

/-- The fields of foreign types of a resolved record. -/
def foreignUses (r : ResolvedRecord) : List ForeignUse :=
  r.fields.filterMap fun f => f.kind.foreignName?.map (ForeignUse.mk r.name f.name)

theorem foreignWarnings_eq (r : ResolvedRecord) :
    r.foreignWarnings = r.foreignUses.map ForeignUse.warning := by
  rw [foreignWarnings, foreignUses, List.map_filterMap]
  exact List.filterMap_congr fun f _ => by rw [Option.map_map]; rfl

theorem filterMap_foreignName? (r : ResolvedRecord) :
    r.fields.filterMap (·.kind.foreignName?) = r.foreignUses.map (·.typeName) := by
  rw [foreignUses, List.map_filterMap]
  exact List.filterMap_congr fun f _ => by rw [Option.map_map]; exact Option.map_id'.symm

/-- The uses are those that the declaration shows. -/
theorem foreignUses_ofDef {record : RecordDef} {kinds : List FieldKind} {names : List String}
    (h : List.Forall₂ (fun (field : FieldDef) k => field.kind names record.name = .ok k)
      record.fields kinds) :
    (ofDef record kinds).foreignUses = record.foreignUses names :=
  filterMap_resolveFields h none 0

end ResolvedRecord

namespace Schema

variable {s : Schema} {kinds : List (List FieldKind)}

theorem flatMap_foreignUses (hk : s.Kinds kinds) :
    (s.unsettledRecords kinds).flatMap ResolvedRecord.foreignUses = s.foreignUses := by
  rw [unsettledRecords, foreignUses, List.flatMap_map]
  rw [Kinds] at hk
  generalize s.records.map (·.name) = names at hk ⊢
  generalize s.records = records at hk ⊢
  induction hk with
  | nil => rfl
  | cons hr _ ih =>
    rw [List.zip_cons_cons, List.flatMap_cons, List.flatMap_cons, ih]
    exact congrArg (· ++ _) (ResolvedRecord.foreignUses_ofDef hr)

theorem resolve_events (hn : s.checkNames.result = .ok ()) {order : List Nat}
    (hkinds : s.kinds = .ok kinds) (horder : s.dependencyOrder kinds = .ok order) :
    s.resolve.events =
      shadowWarnings s.records ++ s.foreignUses.map ForeignUse.warning := by
  have hresult : ((s.records.zip kinds).mapM fun p => ResolvedRecord.resolve p.1 p.2).result =
      .ok (s.unsettledRecords kinds) := by
    rw [Traced.result_mapM]
    exact List.mapM_pure
  rw [resolve, Traced.events_bind_of_ok hn, Traced.events_ofExcept_bind hkinds,
    Traced.events_ofExcept_bind horder, Traced.events_bind_of_ok hresult,
    Traced.events_mapM (fun _ => rfl), s.checkNames_events.2 hn]
  have huses := congrArg (List.map ForeignUse.warning) (flatMap_foreignUses (kinds_of_ok hkinds))
  rw [List.map_flatMap, unsettledRecords, List.flatMap_map] at huses
  rw [← huses]
  simp only [ResolvedRecord.resolve, ResolvedRecord.foreignWarnings_eq]
  exact congrArg _ (List.append_nil _)

/-- A schema that is refused after its names were checked has the warnings of that check only. -/
theorem resolve_events_of_refused (hn : s.checkNames.result = .ok ()) {e : SchemaError}
    (h : s.resolve.result = .error e) : s.resolve.events = shadowWarnings s.records := by
  rw [resolve, Traced.events_bind_of_ok hn, s.checkNames_events.2 hn]
  rcases resolve_error_iff.mp h with hnames | ⟨-, hkinds | ⟨kinds, hkinds, horder⟩⟩
  · rw [hn] at hnames
    cases hnames
  · rw [Traced.events_bind_of_error (e := e) (by rw [Traced.result_ofExcept, hkinds])]
    exact List.append_nil _
  · rw [Traced.events_ofExcept_bind hkinds,
      Traced.events_bind_of_error (e := e) (by rw [Traced.result_ofExcept, horder])]
    exact List.append_nil _

end Schema

/-! ## Foreign types without repeats -/

theorem foldl_distinct (names done : List String) :
    names.foldl (fun names name => if names.contains name then names else names ++ [name]) done =
      done ++ (names.filter fun name => !done.contains name).eraseDups := by
  induction names generalizing done with
  | nil => simp
  | cons name rest ih =>
    rw [List.foldl_cons, ih]
    by_cases h : name ∈ done
    · rw [if_pos (List.contains_iff_mem.mpr h), List.filter_cons_of_neg (by simp [h])]
    · have hrest : rest.filter (fun other => !(done ++ [name]).contains other) =
          rest.filter fun other => !other == name && !done.contains other := by
        refine List.filter_congr fun other _ => ?_
        rw [Bool.eq_iff_iff]
        simp [and_comm]
      rw [if_neg (mt List.contains_iff_mem.mp h), List.filter_cons_of_pos (by simp [h]),
        List.eraseDups_cons, List.filter_filter, List.append_assoc, List.singleton_append, hrest]

theorem Resolved.foreignTypes_eq (r : Resolved) :
    r.foreignTypes =
      ((r.records.flatMap ResolvedRecord.foreignUses).map (·.typeName)).eraseDups := by
  rw [foreignTypes, foldl_distinct, List.filterMap_flatMap, List.map_flatMap]
  simp only [ResolvedRecord.filterMap_foreignName?]
  simp

theorem Schema.foreignTypes_resolved {s : Schema} {kinds : List (List FieldKind)}
    (hk : s.Kinds kinds) (order : List Nat) :
    (s.resolved kinds order).foreignTypes = (s.foreignUses.map (·.typeName)).eraseDups := by
  have hrecords := map_foldl_settleLayout (g := ResolvedRecord.foreignUses) (fun _ _ => rfl)
    (lastPositions (s.unsettledRecords kinds)) (s.unsettledRecords kinds) order
  have huses : (s.resolved kinds order).records.flatMap ResolvedRecord.foreignUses =
      s.foreignUses := by
    rw [← flatMap_foreignUses hk, List.flatMap_def, List.flatMap_def]
    exact congrArg List.flatten hrecords
  rw [Resolved.foreignTypes_eq, huses]

/-- Every record that a primitive hides and every field of a foreign type is warned about once, in
the order of the document and records first.  The foreign types of an accepted schema are those of
the warnings, each where it comes first.  A schema that is refused has no warning about a foreign
type, and if its names are in order it has all those about records. -/
theorem warnings_in_document_order (s : Schema) :
    (∀ r, s.resolve.result = .ok r →
      s.resolve.events = shadowWarnings s.records ++ s.foreignUses.map ForeignUse.warning ∧
      r.foreignTypes = (s.foreignUses.map (·.typeName)).eraseDups) ∧
    ∀ e, s.resolve.result = .error e →
      s.resolve.events <+: shadowWarnings s.records ∧
      (s.checkNames.result = .ok () → s.resolve.events = shadowWarnings s.records) := by
  refine ⟨fun r h => ?_, fun e h => ⟨?_, fun hn => Schema.resolve_events_of_refused hn h⟩⟩
  · obtain ⟨hn, kinds, order, hkinds, horder, rfl⟩ := Schema.resolve_ok_iff.mp h
    exact ⟨Schema.resolve_events hn hkinds horder,
      Schema.foreignTypes_resolved (Schema.kinds_of_ok hkinds) order⟩
  · cases hn : s.checkNames.result with
    | ok u => rw [Schema.resolve_events_of_refused hn h]
    | error e' =>
      rw [Schema.resolve, Traced.events_bind_of_error hn]
      exact s.checkNames_events.1

namespace Sample

/-- A record named like a primitive, and one foreign type that is used twice. -/
def alarms : Schema :=
  (({ moduleName := "alarms" } : Schema).addRecord
    { name := "int8", fields := [{ name := "at", typeName := "QDateTime" },
      { name := "v", typeName := "int8" }] }).addRecord
    { name := "alarm", fields := [{ name := "stamps", typeName := "sequence< QDateTime >" },
      { name := "zones", typeName := "Zone", length := some 2 },
      { name := "level", typeName := "int8" }] }

def alarmsKinds : List (List FieldKind) :=
  [[.single (.foreign "QDateTime"), .single (.primitive .int8)],
  [.sequence (.foreign "QDateTime"), .array (.foreign "Zone") 2, .single (.primitive .int8)]]

def alarmsResolved : Resolved :=
  alarms.resolved alarmsKinds [0, 1]

theorem alarms_accepted : alarms.resolve.result = .ok alarmsResolved := by
  refine Schema.resolve_ok_iff.mpr ⟨?_, alarmsKinds, [0, 1], ?_, ?_, rfl⟩
  · decide +kernel
  · decide +kernel
  · decide +kernel

/-- A record named like a primitive and with a foreign type, and one that embeds itself. -/
def coils : Schema :=
  (({ moduleName := "coils" } : Schema).addRecord
    { name := "f64", fields := [{ name := "at", typeName := "QDateTime" }] }).addRecord
    { name := "coil", fields := [{ name := "inner", typeName := "coil" }] }

theorem coils_refused : coils.resolve.result = .error (.circularReference ["coil", "coil"]) := by
  refine Schema.resolve_error_iff.mpr (.inr ⟨?_, .inr
    ⟨[[.single (.foreign "QDateTime")], [.single (.record "coil")]], ?_, ?_⟩⟩)
  · decide +kernel
  · decide +kernel
  · decide +kernel

end Sample

/-- The foreign types of the alarms are warned about, in a single field, a sequence and an array.
Those of the coils are not, since a coil embeds itself. -/
theorem alarms_warned_coils_not :
    Sample.alarms.resolve.result = .ok Sample.alarmsResolved ∧
      Sample.alarms.resolve.events = [.shadowedPrimitive "int8",
        .foreignType "int8" "at" "QDateTime", .foreignType "alarm" "stamps" "QDateTime",
        .foreignType "alarm" "zones" "Zone"] ∧
      Sample.alarmsResolved.foreignTypes = ["QDateTime", "Zone"] ∧
      Sample.coils.resolve.result = .error (.circularReference ["coil", "coil"]) ∧
      Sample.coils.resolve.events = [.shadowedPrimitive "f64"] := by
  obtain ⟨hevents, htypes⟩ := (warnings_in_document_order _).1 _ Sample.alarms_accepted
  have hcoils := ((warnings_in_document_order _).2 _ Sample.coils_refused).2 (by decide +kernel)
  refine ⟨Sample.alarms_accepted, ?_, ?_, Sample.coils_refused, ?_⟩
  · rw [hevents]
    decide +kernel
  · rw [htypes]
    decide +kernel
  · rw [hcoils]
    decide +kernel

end RecordWire
