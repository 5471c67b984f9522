import RecordWire.Generate
import RecordWire.Proofs.ModuleText

/-!
Comments and the label of the source do not reach the generated code.  Erasing them before a module
is generated changes only lines that are comments, so two schemas that differ in comments alone give
the same code.
-/

namespace RecordWire

/-! ## Erasing comments -/

def FieldDef.bare (f : FieldDef) : FieldDef :=
  { f with comment := none }

def RecordDef.bare (r : RecordDef) : RecordDef :=
  { r with comment := none, fields := r.fields.map FieldDef.bare }

def Schema.bare (s : Schema) : Schema :=
  { s with records := s.records.map RecordDef.bare }

def ResolvedField.bare (f : ResolvedField) : ResolvedField :=
  { f with comment := none }

def ResolvedRecord.bare (r : ResolvedRecord) : ResolvedRecord :=
  { r with comment := none, fields := r.fields.map ResolvedField.bare }

def Resolved.bare (s : Resolved) : Resolved :=
  { s with records := s.records.map ResolvedRecord.bare }

def Slot.bare (slot : Slot) : Slot :=
  { slot with comment := none }

def RecordLayout.bare (l : RecordLayout) : RecordLayout :=
  { l with comment := none, slots := l.slots.map Slot.bare }

def Emit.Config.unlabelled (c : Emit.Config) : Emit.Config :=
  { c with source := none }

/-! ## Resolving -/

theorem checkFieldNames_bare (record : String) (seen : List (String × String))
    (fields : List FieldDef) :
    checkFieldNames record seen (fields.map FieldDef.bare) =
      checkFieldNames record seen fields := by
  induction fields generalizing seen with
  | nil => rfl
  | cons field rest ih => simp only [List.map_cons, checkFieldNames, FieldDef.bare, ih]

theorem checkRecordNames_bare (moduleName : String) (seen : List (String × String))
    (records : List RecordDef) :
    checkRecordNames moduleName seen (records.map RecordDef.bare) =
      checkRecordNames moduleName seen records := by
  induction records generalizing seen with
  | nil => rfl
  | cons record rest ih =>
    simp only [List.map_cons, checkRecordNames, RecordDef.bare, checkFieldNames_bare, ih]

theorem resolveFields_bare (previous : Option FieldKind) (position : Nat)
    (fields : List (FieldDef × FieldKind)) :
    resolveFields previous position (fields.map (Prod.map FieldDef.bare id)) =
      (resolveFields previous position fields).map ResolvedField.bare := by
  induction fields generalizing previous position with
  | nil => rfl
  | cons field rest ih =>
    rw [List.map_cons, resolveFields, resolveFields, List.map_cons, ← ih]
    rfl

theorem ResolvedRecord.ofDef_bare (record : RecordDef) (kinds : List FieldKind) :
    ResolvedRecord.ofDef record.bare kinds = (ResolvedRecord.ofDef record kinds).bare := by
  have hfields := resolveFields_bare none 0 (record.fields.zip kinds)
  rw [← List.zip_map_left] at hfields
  simp only [ofDef, ResolvedRecord.bare, RecordDef.bare, hfields]

theorem lastPositions_bare (records : List ResolvedRecord) :
    lastPositions (records.map ResolvedRecord.bare) = lastPositions records := by
  rw [lastPositions, List.zipIdx_map, List.map_map]
  rfl

theorem settleLayout_bare (positions : List (String × Nat)) (records : List ResolvedRecord)
    (i : Nat) :
    settleLayout positions (records.map ResolvedRecord.bare) i =
      (settleLayout positions records i).map ResolvedRecord.bare := by
  have hfixed : ∀ name, ((positions.lookup name).bind
      ((records.map ResolvedRecord.bare)[·]?)).any (·.fixedLayout) =
        ((positions.lookup name).bind (records[·]?)).any (·.fixedLayout) := by
    intro name
    cases positions.lookup name with
    | none => rfl
    | some j => simp [Option.any_map, ResolvedRecord.bare]
  refine List.ext_getElem? fun j => ?_
  rw [settleLayout, settleLayout, List.getElem?_map, List.getElem?_modify, List.getElem?_modify,
    List.getElem?_map]
  cases records[j]? with
  | none => rfl
  | some r =>
    by_cases hij : i = j
    · simp only [hij, if_true, Option.map_eq_map, Option.map_some, hfixed, ResolvedRecord.bare,
        List.all_map]
      rfl
    · simp [hij]

theorem foldl_settleLayout_bare (positions : List (String × Nat)) (records : List ResolvedRecord)
    (order : List Nat) :
    order.foldl (settleLayout positions) (records.map ResolvedRecord.bare) =
      (order.foldl (settleLayout positions) records).map ResolvedRecord.bare := by
  induction order generalizing records with
  | nil => rfl
  | cons i order ih => rw [List.foldl_cons, List.foldl_cons, settleLayout_bare, ih]

namespace Schema

variable (s : Schema)

theorem map_name_bare : s.bare.records.map (·.name) = s.records.map (·.name) := by
  rw [bare, List.map_map]
  rfl

theorem checkNames_bare : s.bare.checkNames = s.checkNames := by
  rw [checkNames, checkNames]
  simp only [bare, checkRecordNames_bare]

theorem kinds_bare : s.bare.kinds = s.kinds := by
  rw [kinds, kinds, map_name_bare, bare, List.mapM_map]
  refine congrArg (List.mapM · s.records) (funext fun record => ?_)
  simp only [Function.comp_apply, RecordDef.bare, List.mapM_map]
  rfl

theorem dependencyOrder_bare (kinds : List (List FieldKind)) :
    s.bare.dependencyOrder kinds = s.dependencyOrder kinds := by
  have hname : ∀ i : Nat, s.bare.records[i]?.map (·.name) = s.records[i]?.map (·.name) := by
    intro i
    rw [← List.getElem?_map, map_name_bare, List.getElem?_map]
  rw [dependencyOrder, dependencyOrder]
  simp only [hname]
  rfl

theorem resolved_bare (kinds : List (List FieldKind)) (order : List Nat) :
    s.bare.resolved kinds order = (s.resolved kinds order).bare := by
  have hunsettled : s.bare.unsettledRecords kinds =
      (s.unsettledRecords kinds).map ResolvedRecord.bare := by
    rw [unsettledRecords, unsettledRecords, bare, List.zip_map_left, List.map_map, List.map_map]
    exact List.map_congr_left fun p _ => ResolvedRecord.ofDef_bare p.1 p.2
  simp only [resolved, hunsettled, lastPositions_bare, foldl_settleLayout_bare]
  rfl

theorem resolve_bare : s.bare.resolve.result = s.resolve.result.map Resolved.bare := by
  rw [resolve_result, resolve_result, checkNames_bare, kinds_bare]
  cases s.checkNames.result with
  | error e => rfl
  | ok u =>
    cases s.kinds with
    | error e => rfl
    | ok kinds =>
      simp only [bind, Except.bind, dependencyOrder_bare, resolved_bare]
      cases s.dependencyOrder kinds <;> rfl

end Schema

/-! ## Layouts and plans -/

namespace ResolvedRecord

variable (r : ResolvedRecord)

theorem getElem?_bare (i : Nat) : r.bare.fields[i]? = r.fields[i]?.map ResolvedField.bare := by
  rw [bare, List.getElem?_map]

theorem layout_bare : r.bare.layout = r.layout.bare := by
  have hallocator : ∀ f : ResolvedField, r.bare.allocator? f.bare = r.allocator? f := by
    intro f
    simp only [allocator?, getElem?_bare]
    cases hc : f.countField with
    | none => simp [ResolvedField.bare, hc]
    | some i =>
      cases hi : r.fields[i]? <;> simp [ResolvedField.bare, hc, hi, ResolvedField.allocator?]
  have hallocators : r.bare.fields.filterMap r.bare.allocator? =
      r.fields.filterMap r.allocator? := by
    rw [bare, List.filterMap_map]
    exact List.filterMap_congr fun f _ => hallocator f
  have hslots : r.bare.fields.map (fun f => (⟨f.ident, f.kind, f.comment⟩ : Slot)) =
      (r.fields.map fun f => (⟨f.ident, f.kind, f.comment⟩ : Slot)).map Slot.bare := by
    rw [bare, List.map_map, List.map_map]
    rfl
  rw [layout, hallocators, hslots]
  rfl

theorem sizingStep_bare (f : ResolvedField) (e : Element) :
    r.bare.sizingStep f.bare e = r.sizingStep f e := by
  simp only [sizingStep, getElem?_bare]
  cases hc : f.countField with
  | none => simp [ResolvedField.bare, hc]
  | some i =>
    cases hi : r.fields[i]? <;> simp [ResolvedField.bare, hc, hi, ResolvedField.allocator?]

theorem plan_bare : r.bare.plan = r.plan := by
  have hencode : r.bare.fields.flatMap r.bare.encodeSteps = r.fields.flatMap r.encodeSteps := by
    rw [bare, List.flatMap_map]
    rfl
  have hdecode : r.bare.fields.flatMap r.bare.decodeSteps = r.fields.flatMap r.decodeSteps := by
    rw [show r.bare.fields = r.fields.map ResolvedField.bare from rfl, List.flatMap_map]
    refine List.flatMap_congr fun f _ => ?_
    simp only [decodeSteps, sizingStep_bare]
    rfl
  have hsize : r.bare.fields.foldl WireSize.addField {} = r.fields.foldl WireSize.addField {} := by
    rw [bare, List.foldl_map]
    rfl
  rw [plan, hencode, hdecode, hsize]
  rfl

end ResolvedRecord

/-! ## Code -/

namespace Emit

open Text

/-- The first characters that are no spaces are two slashes. -/
def isComment (line : String) : Bool :=
  ['/', '/'].isPrefixOf (line.toList.dropWhile (· == ' '))

/-- The lines of a text that are no comments. -/
def codeLines (text : String) : List String :=
  (rawLines text).filter fun line => !isComment line

/-- The lines of the body that are code when they stand in the module. -/
def shown (ls : List String) : List String :=
  (rendered ls).filter fun line => !isComment line

@[simp] theorem shown_append (ls ls' : List String) :
    shown (ls ++ ls') = shown ls ++ shown ls' := by
  simp [shown]

theorem shown_flatMap {α : Type} (f : α → List String) (as : List α) :
    shown (as.flatMap f) = as.flatMap fun a => shown (f a) := by
  rw [shown, rendered_flatMap, List.filter_flatMap]
  rfl

theorem IsDoc.isComment {line : String} (h : IsDoc line) : isComment line = true := by
  obtain ⟨margin, text, h⟩ := h
  have hdrop : line.toList.dropWhile (· == ' ') = '/' :: '/' :: text := by
    rw [h, List.dropWhile_append_of_pos (by simp)]
    rfl
  rw [Emit.isComment, hdrop]
  rfl

theorem IsDoc.dropReturn {line : String} (h : IsDoc line) :
    IsDoc (String.ofList (dropReturn line.toList)) := by
  obtain ⟨margin, text, h⟩ := h
  rcases List.eq_nil_or_concat text with rfl | ⟨text, c, rfl⟩
  · have hline : line.toList = (List.replicate margin ' ' ++ ['/']) ++ ['/'] := by
      rw [h, List.append_assoc]
      rfl
    rw [hline, dropReturn_concat, if_neg (by decide), ← hline]
    exact ⟨margin, [], by rw [String.toList_ofList, h]⟩
  · have hline : line.toList = (List.replicate margin ' ' ++ '/' :: '/' :: text) ++ [c] := by
      rw [h, List.append_assoc, List.concat_eq_append]
      rfl
    rw [hline, dropReturn_concat]
    split
    · exact ⟨margin, text, String.toList_ofList⟩
    · rw [← hline]
      exact ⟨margin, _, by rw [String.toList_ofList, h]⟩

theorem IsDoc.indent {line : String} (h : IsDoc line) : IsDoc (indent line) := by
  rw [Text.indent]
  split
  · exact h
  · obtain ⟨margin, text, h⟩ := h
    refine ⟨4 + margin, text, ?_⟩
    rw [String.toList_append, h, List.replicate_add, List.append_assoc]
    rfl

/-- Comments written in front of something leave no code. -/
theorem shown_of_isDoc {ls : List String} (h : ∀ l ∈ ls, IsDoc l ∧ OneLine l) : shown ls = [] := by
  induction ls with
  | nil => rfl
  | cons l ls ih =>
    obtain ⟨hdoc, hone⟩ := h l (List.mem_cons_self ..)
    have hl : shown [l] = [] := by
      rw [shown, rendered_of_oneLine hone]
      simp [hdoc.dropReturn.indent.isComment]
    rw [← List.singleton_append, shown_append, hl, ih fun l hl => h l (List.mem_cons_of_mem _ hl)]
    rfl

theorem shown_slotLines (slot : Slot) : shown (slotLines slot) = shown (slotLines slot.bare) := by
  have hbare : slotLines slot.bare = [s!"    pub {slot.ident}: {slot.kind.rustType},"] := rfl
  obtain ⟨docs, hdocs, hlines⟩ := exists_docs_slotLines slot
  rw [hlines, hbare, shown_append, shown_of_isDoc hdocs, List.nil_append]

theorem shown_structLines {l : RecordLayout} (h : OneLine l.typeName) :
    shown (structLines l) = shown (structLines l.bare) := by
  have hslots : shown (l.slots.flatMap slotLines) = shown (l.bare.slots.flatMap slotLines) := by
    rw [shown_flatMap, shown_flatMap, RecordLayout.bare, List.flatMap_map]
    exact List.flatMap_congr fun slot _ => shown_slotLines slot
  have hbare : OneLine l.bare.typeName := h
  have hhead : l.bare.repr = l.repr ∧ l.bare.derives = l.derives ∧ l.bare.typeName = l.typeName :=
    ⟨rfl, rfl, rfl⟩
  obtain ⟨docs, hdocs, hlines⟩ := exists_docs_structLines h
  obtain ⟨docs', hdocs', hlines'⟩ := exists_docs_structLines hbare
  simp only [hlines, hlines', hhead, shown_append, shown_of_isDoc hdocs, shown_of_isDoc hdocs',
    hslots]

theorem shown_recordLines {l : RecordLayout} (h : OneLine l.typeName) :
    shown (recordLines l) = shown (recordLines l.bare) := by
  have hdefault : defaultLines l.bare = defaultLines l := by
    simp only [defaultLines, RecordLayout.bare, List.isEmpty_map, List.map_map]
    rfl
  have hallocators : allocatorsLines l.bare = allocatorsLines l := by
    rfl
  simp only [recordLines, shown_append, shown_structLines h, hdefault, hallocators]

theorem shown_bodyLines {s : Resolved} (h : ∀ r ∈ s.records, OneLine r.typeName) (c : Config) :
    shown (bodyLines s c) = shown (bodyLines s.bare c.unlabelled) := by
  have hhead : headLines s.bare c.unlabelled = headLines s c := by
    simp only [headLines, Resolved.bare, Config.unlabelled]
  have hrecord : ∀ r ∈ s.records,
      shown (recordLines r.layout ++ codecLines r.layout.typeName r.plan) =
        shown (recordLines r.bare.layout ++ codecLines r.bare.layout.typeName r.bare.plan) := by
    intro r hr
    have hname : r.layout.bare.typeName = r.layout.typeName := rfl
    rw [shown_append, shown_append, r.layout_bare, r.plan_bare, hname,
      shown_recordLines (h r hr)]
  rw [bodyLines, bodyLines, hhead, shown_append, shown_append, shown_flatMap, shown_flatMap,
    Resolved.bare, List.flatMap_map, List.flatMap_congr hrecord]

theorem refusal_bare (s : Resolved) (c : Config) : refusal s.bare c.unlabelled = refusal s c := by
  simp only [refusal, Resolved.bare, List.find?_map, Option.map_map]
  rfl

theorem filter_banner (c : Config) : (banner c).filter (fun line => !isComment line) = [""] := by
  obtain ⟨label, hbanner⟩ := exists_banner c
  have hfirst : IsDoc ("//" ++ label) := ⟨0, label.toList, by simp⟩
  have hrest : (["// Do not edit by hand; edit the schema and regenerate.", ""].filter fun line =>
      !isComment line) = [""] := by
    decide
  rw [hbanner, List.filter_cons_of_neg (by simp [hfirst.isComment]), hrest]

theorem codeLines_code {s : Resolved} (h : ∀ r ∈ s.records, OneLine r.typeName) {c : Config}
    (hr : refusal s c = none) (hsource : ∀ label ∈ c.source, OneLine label) :
    codeLines (code s c) = codeLines (code s.bare c.unlabelled) := by
  have hr' : refusal s.bare c.unlabelled = none := (refusal_bare s c).trans hr
  obtain ⟨inside, hinside, hcode⟩ := rawLines_code hr hsource
  obtain ⟨inside', hinside', hcode'⟩ := rawLines_code hr' (by simp [Config.unlabelled])
  have hshown := shown_bodyLines h c
  rw [shown, shown, hinside, hinside', List.filter_append, List.filter_append] at hshown
  have hfilter := List.append_cancel_right hshown
  have hname : moduleName s.bare c.unlabelled = moduleName s c := rfl
  rw [codeLines, codeLines, hcode, hcode', hname]
  simp only [List.filter_append, filter_banner, hfilter]

theorem generate_bare {s : Resolved} (h : ∀ r ∈ s.records, OneLine r.typeName) {c : Config}
    (hsource : ∀ label ∈ c.source, OneLine label) :
    (generate s c).result.map codeLines =
      (generate s.bare c.unlabelled).result.map codeLines := by
  rw [generate_result, generate_result, refusal_bare]
  cases hr : refusal s c with
  | some e => rfl
  | none => exact congrArg Except.ok (codeLines_code h hr hsource)

end Emit

namespace Schema

theorem generate_result (s : Schema) (c : Emit.Config) :
    (s.generate c).result = (do
      let r ← s.resolve.result.mapError CodegenError.schema
      (Emit.generate r c).result.mapError CodegenError.generation) := by
  rw [generate, Traced.result_bind]
  rfl

theorem generate_of_accepted {s : Schema} {r : Resolved} (h : s.resolve.result = .ok r)
    (c : Emit.Config) :
    (s.generate c).result = (Emit.generate r c).result.mapError CodegenError.generation := by
  rw [generate_result, h]
  rfl

theorem generate_of_refused {s : Schema} {e : SchemaError} (h : s.resolve.result = .error e)
    (c : Emit.Config) : (s.generate c).result = .error (.schema e) := by
  rw [generate_result, h]
  rfl

theorem map_mapError {ε ε' α β : Type} (f : α → β) (g : ε → ε') (x : Except ε α) :
    (x.mapError g).map f = (x.map f).mapError g := by
  cases x <;> rfl

/-- What is generated for a schema has the same code as what is generated without comments. -/
theorem generate_bare (s : Schema) {c : Emit.Config}
    (hsource : ∀ label ∈ c.source, Text.OneLine label) :
    (s.generate c).result.map Emit.codeLines =
      (s.bare.generate c.unlabelled).result.map Emit.codeLines := by
  cases hs : s.resolve.result with
  | error e =>
    have hbare : s.bare.resolve.result = .error e := by
      rw [resolve_bare, hs]
      rfl
    rw [generate_of_refused hs, generate_of_refused hbare]
  | ok r =>
    have hbare : s.bare.resolve.result = .ok r.bare := by
      rw [resolve_bare, hs]
      rfl
    have h := Emit.generate_bare (fun record => oneLine_typeName hs) hsource
    rw [generate_of_accepted hs, generate_of_accepted hbare, map_mapError, map_mapError, h]

end Schema

/-- Schemas that differ only in comments, and configurations that differ only in the label of the
source, give the same error, or modules that are the same in all lines that are no comments. -/
theorem generate_ignores_comments {s t : Schema} {c d : Emit.Config} (schemas : s.bare = t.bare)
    (configs : c.unlabelled = d.unlabelled)
    (hc : ∀ label ∈ c.source, Text.OneLine label) (hd : ∀ label ∈ d.source, Text.OneLine label) :
    (s.generate c).result.map Emit.codeLines = (t.generate d).result.map Emit.codeLines := by
  rw [s.generate_bare hc, t.generate_bare hd, schemas, configs]

namespace Sample

/-- A record of a foreign type whose name has a line feed. -/
def pinDef (comment position : Option String) : RecordDef where
  name := "pin"
  comment := comment
  fields := [{ name := "at", typeName := "geo::\nPoint", comment := position }]

def pins (comment position : Option String) : Schema :=
  ({ moduleName := "pins" } : Schema).addRecord (pinDef comment position)

/-- Comments that would close the record and the module, if they were code. -/
def notedPins : Schema :=
  pins (some ("A pin.\r\n\n" ++ Text.closing ++ "\npub struct Evil;"))
    (some ("\r" ++ Text.closing ++ Text.opened " mod evil" ++ "\n\n"))

def pinsKinds : List (List FieldKind) :=
  [[.single (.foreign "geo::\nPoint")]]

def pinsConfig : Emit.Config where
  source := some "pins.json\r"

theorem notedPins_generated :
    ∃ text, (notedPins.generate pinsConfig).result = .ok text := by
  have haccepted : notedPins.resolve.result = .ok (notedPins.resolved pinsKinds [0]) := by
    refine Schema.resolve_ok_iff.mpr ⟨?_, pinsKinds, [0], ?_, ?_, rfl⟩
    · decide +kernel
    · decide +kernel
    · decide +kernel
  have hrefusal : Emit.refusal (notedPins.resolved pinsKinds [0]) pinsConfig = none := by
    decide +kernel
  refine ⟨Emit.code (notedPins.resolved pinsKinds [0]) pinsConfig, ?_⟩
  rw [Schema.generate_of_accepted haccepted, Emit.generate_result, hrefusal]
  rfl

end Sample

/-- Code is generated for the pins with comments, and it is the code of the pins without. -/
theorem notes_ignored :
    Sample.notedPins.bare = (Sample.pins none none).bare ∧
      ∃ noted plain, (Sample.notedPins.generate Sample.pinsConfig).result = .ok noted ∧
        ((Sample.pins none none).generate {}).result = .ok plain ∧
        Emit.codeLines noted = Emit.codeLines plain := by
  have hbare : Sample.notedPins.bare = (Sample.pins none none).bare := rfl
  obtain ⟨noted, hnoted⟩ := Sample.notedPins_generated
  have hcode := generate_ignores_comments (c := Sample.pinsConfig) (d := {}) hbare rfl (by decide)
    (by decide)
  rw [hnoted] at hcode
  cases hplain : ((Sample.pins none none).generate {}).result with
  | error e =>
    rw [hplain] at hcode
    cases hcode
  | ok plain =>
    rw [hplain] at hcode
    exact ⟨hbare, noted, plain, hnoted, rfl, Except.ok.inj hcode⟩

end RecordWire
