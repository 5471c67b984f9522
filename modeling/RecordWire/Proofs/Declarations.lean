import RecordWire.Proofs.CodecTable
import RecordWire.Proofs.ModuleText

/-!
What a generated module declares.  Every record has its struct and its three impls, each on a line
of its own and in the order of the records, and no other line looks like one of these.
-/

namespace RecordWire
namespace Emit

open Text

/-! ## Lines that declare a record -/

/-- What stands before the name of a type where it is declared or gets an impl of a trait. -/
def openings : List String :=
  ["pub struct ", "impl Default for ", "impl WireEncode for ", "impl WireDecode for "]

/-- The line that opens a declaration. -/
def declaration (opening typeName : String) : String :=
  opened (opening ++ typeName)

/-- A line of the body that opens no declaration. -/
def Quiet (l : String) : Prop :=
  OneLine l ∧ ∀ opening ∈ openings, ¬ opening.toList <+: l.toList

instance (l : String) : Decidable (Quiet l) :=
  inferInstanceAs (Decidable (_ ∧ ∀ opening ∈ openings, ¬ opening.toList <+: l.toList))

/-- Characters on one line, and the first is none that a declaration starts with. -/
def InnerChars (cs : List Char) : Prop :=
  '\n' ∉ cs ∧ cs.head?.any (fun c => c != 'p' && c != 'i') = true

instance (cs : List Char) : Decidable (InnerChars cs) :=
  inferInstanceAs (Decidable (_ ∧ _))

/-- A line that is told from a declaration by its first character. -/
def Inner (l : String) : Prop :=
  InnerChars l.toList

theorem Inner.ofList {cs : List Char} (h : InnerChars cs) : Inner (String.ofList cs) := by
  rwa [Inner, String.toList_ofList]

theorem Inner.append {s t : String} (hs : Inner s) (ht : OneLine t) : Inner (s ++ t) := by
  refine ⟨oneLine_append.mpr ⟨hs.1, ht⟩, ?_⟩
  have hhead := hs.2
  rw [String.toList_append, List.head?_append]
  cases h : s.toList.head? with
  | none => simp [h] at hhead
  | some c => rwa [h] at hhead

theorem head?_of_isPrefix {as bs : List Char} {c : Char} (h : as <+: bs) (hc : as.head? = some c) :
    bs.head? = some c := by
  obtain ⟨rest, rfl⟩ := h
  rw [List.head?_append, hc, Option.some_or]

theorem Inner.quiet {l : String} (h : Inner l) : Quiet l := by
  have hopenings : ∀ opening ∈ openings,
      opening.toList.head? = some 'p' ∨ opening.toList.head? = some 'i' := by decide
  refine ⟨h.1, fun opening ho hstart => ?_⟩
  have hhead := h.2
  rcases hopenings opening ho with hc | hc
  · rw [head?_of_isPrefix hstart hc] at hhead
    cases hhead
  · rw [head?_of_isPrefix hstart hc] at hhead
    cases hhead

theorem quiet_of_isDoc {l : String} (h : IsDoc l ∧ OneLine l) : Quiet l := by
  obtain ⟨⟨margin, text, hl⟩, hone⟩ := h
  refine Inner.quiet ⟨hone, ?_⟩
  rw [hl]
  cases margin with
  | zero => rfl
  | succ margin => rfl

/-- Nothing is declared by quiet lines. -/
theorem filter_rendered_of_quiet {ls : List String} (h : ∀ l ∈ ls, Quiet l) {opening : String}
    (ho : opening ∈ openings) :
    (rendered ls).filter (fun line => line.startsWith ("    " ++ opening)) = [] := by
  rw [List.filter_eq_nil_iff]
  intro line hline
  obtain ⟨piece, hpiece, rfl⟩ := List.mem_map.mp hline
  obtain ⟨l, hl, hpiece⟩ := List.mem_flatMap.mp hpiece
  obtain ⟨hone, hquiet⟩ := h l hl
  rw [pieces_of_oneLine hone, List.mem_singleton] at hpiece
  rw [String.startsWith_string_iff, String.toList_append, indent]
  split
  · rename_i hempty
    rw [String.isEmpty_iff.mp hempty]
    intro hstart
    simpa using hstart.length_le
  · rw [String.toList_append, List.prefix_append_right_inj]
    intro hstart
    -- A carriage return may have gone from the end of the line, but its start is the same.
    rw [hpiece, String.toList_ofList] at hstart
    exact hquiet opening ho (hstart.trans (dropReturn_isPrefix _))

/-- Lines that open one declaration. -/
def Declares (opening typeName : String) (ls : List String) : Prop :=
  ∃ before after, ls = before ++ [declaration opening typeName] ++ after ∧
    (∀ l ∈ before, Quiet l) ∧ ∀ l ∈ after, Quiet l

theorem declares_cons {opening typeName : String} {ls : List String} (h : ∀ l ∈ ls, Quiet l) :
    Declares opening typeName (declaration opening typeName :: ls) :=
  ⟨[], ls, rfl, by simp, h⟩

theorem rendered_declaration {opening typeName : String} (ho : opening ∈ openings)
    (ht : OneLine typeName) :
    rendered [declaration opening typeName] = ["    " ++ declaration opening typeName] := by
  have hopenings : ∀ opening ∈ openings, OneLine opening := by decide
  have hone : OneLine (declaration opening typeName) :=
    oneLine_opened.mpr (oneLine_append.mpr ⟨hopenings opening ho, ht⟩)
  have hclosed : Closed (declaration opening typeName) :=
    ⟨(opening ++ typeName ++ " ").toList, '{', by simp [declaration], by decide⟩
  have hne : ¬ (declaration opening typeName).isEmpty = true := by
    rw [String.isEmpty_iff, ← String.toList_inj]
    simp [declaration]
  rw [rendered_of_oneLine hone, dropReturn_of_closed hclosed, String.ofList_toList, indent,
    if_neg hne]

/-- No opening is the start of another. -/
theorem isPrefix_declaration_iff {opening opening' typeName : String} (ho : opening ∈ openings)
    (ho' : opening' ∈ openings) :
    opening'.toList <+: (declaration opening typeName).toList ↔ opening = opening' := by
  have hapart : ∀ a ∈ openings, ∀ b ∈ openings, a.toList <+: b.toList → a = b := by decide
  have hself : opening.toList <+: (declaration opening typeName).toList := by
    rw [declaration, toList_opened, String.toList_append, List.append_assoc]
    exact List.prefix_append ..
  constructor
  · intro h
    rcases List.prefix_or_prefix_of_prefix hself h with h | h
    · exact hapart _ ho _ ho' h
    · exact (hapart _ ho' _ ho h).symm
  · rintro rfl
    exact hself

theorem Declares.filter_rendered {opening opening' typeName : String} {ls : List String}
    (h : Declares opening typeName ls) (ho : opening ∈ openings) (ho' : opening' ∈ openings)
    (ht : OneLine typeName) :
    (rendered ls).filter (fun line => line.startsWith ("    " ++ opening')) =
      if opening = opening' then ["    " ++ declaration opening typeName] else [] := by
  obtain ⟨before, after, rfl, hbefore, hafter⟩ := h
  have hline : ("    " ++ declaration opening typeName).startsWith ("    " ++ opening') = true ↔
      opening = opening' := by
    rw [String.startsWith_string_iff, String.toList_append, String.toList_append,
      List.prefix_append_right_inj, isPrefix_declaration_iff ho ho']
  rw [rendered_append, rendered_append, List.filter_append, List.filter_append,
    filter_rendered_of_quiet hbefore ho', filter_rendered_of_quiet hafter ho',
    rendered_declaration ho ht, List.nil_append, List.append_nil, List.filter_cons, List.filter_nil]
  simp only [hline]

/-! ## Lines of a record -/

theorem Inner.around {a x : String} {cs : List Char} (ha : Inner a) (hx : OneLine x)
    (hcs : '\n' ∉ cs) : Inner (a ++ x ++ String.ofList cs) :=
  (ha.append hx).append (oneLine_ofList hcs)

/-- The usual line: a text of the record between two that are written out. -/
theorem Inner.between {x : String} {cs ds : List Char} (hx : OneLine x) (hcs : InnerChars cs)
    (hds : '\n' ∉ ds) : Inner (String.ofList cs ++ x ++ String.ofList ds) :=
  (Inner.ofList hcs).around hx hds

theorem Inner.opened {head : String} (h : Inner head) : Inner (opened head) :=
  h.append (oneLine_ofList (by decide))

theorem Inner.closing {cs : List Char} (h : InnerChars cs) : Inner (String.ofList cs ++ closing) :=
  (Inner.ofList h).append (oneLine_ofList (by decide))

end Emit

namespace ResolvedRecord

open Text

/-- Whatever a record puts into a line is on one line itself. -/
structure OnOneLine (r : ResolvedRecord) : Prop where
  isAsciiIdent : Name.IsAsciiIdent r.typeName
  ident : ∀ f ∈ r.fields, OneLine f.ident
  snakeName : ∀ f ∈ r.fields, OneLine f.snakeName
  rustType : ∀ f ∈ r.fields, OneLine f.kind.element.rustType

theorem OnOneLine.typeName {r : ResolvedRecord} (hr : r.OnOneLine) : OneLine r.typeName :=
  Emit.oneLine_of_isAsciiIdent hr.isAsciiIdent

end ResolvedRecord

theorem ResolvedRecord.field_of_mem_encodeSteps {r : ResolvedRecord} {f : ResolvedField}
    {step : EncodeStep} (h : step ∈ r.encodeSteps f) : step.field = f.ident := by
  have hall : ∀ step ∈ r.encodeSteps f, step.field = f.ident := by
    rw [encodeSteps]
    split
    · simp [EncodeStep.field]
    · split
      · split <;> simp [EncodeStep.field]
      · simp [EncodeStep.field]
    · split <;> simp [EncodeStep.field]
  exact hall step h

namespace Emit

open Text ResolvedRecord

variable {r : ResolvedRecord}

theorem oneLine_rustType {kind : FieldKind} (h : OneLine kind.element.rustType) :
    OneLine kind.rustType := by
  cases kind with
  | single e => exact h
  | array e n =>
    simp only [FieldKind.rustType, oneLine_append]
    exact ⟨⟨⟨⟨by decide, h⟩, by decide⟩, oneLine_toString n⟩, by decide⟩
  | sequence e =>
    simp only [FieldKind.rustType, oneLine_append]
    exact ⟨⟨by decide, h⟩, by decide⟩

theorem oneLine_zeroLiteral (p : Primitive) : OneLine p.zeroLiteral := by
  cases p <;> decide

theorem oneLine_zeroInit {kind : FieldKind} (h : OneLine kind.element.rustType) :
    OneLine kind.zeroInit.expression := by
  cases kind with
  | single e =>
    cases e with
    | primitive p => exact oneLine_zeroLiteral p
    | record name => exact oneLine_append.mpr ⟨h, by decide⟩
    | foreign name => exact (by decide : OneLine "Default::default()")
  | array e n =>
    cases e with
    | primitive p =>
      rw [FieldKind.zeroInit]
      split
      · simp only [ZeroInit.expression, oneLine_append]
        exact ⟨⟨by decide, oneLine_toString n⟩, by decide⟩
      · simp only [ZeroInit.expression, oneLine_append]
        exact ⟨⟨⟨⟨by decide, oneLine_zeroLiteral p⟩, by decide⟩, oneLine_toString n⟩, by decide⟩
    | record name => exact (by decide : OneLine "::core::array::from_fn(|_| Default::default())")
    | foreign name => exact (by decide : OneLine "::core::array::from_fn(|_| Default::default())")
  | sequence e => exact (by decide : OneLine "Vec::new()")

theorem oneLine_expression (hr : r.OnOneLine) : OneLine r.plan.minSize.expression := by
  rw [WireSize.expression]
  apply oneLine_intercalate (by decide)
  intro text htext
  rcases List.mem_append.mp htext with htext | htext
  · split at htext
    · rw [List.mem_singleton.mp htext]
      exact oneLine_toString _
    · cases htext
  · obtain ⟨⟨n, e⟩, hterm, rfl⟩ := List.mem_map.mp htext
    have he : OneLine e.rustType := by
      rcases WireSize.mem_terms_foldl hterm with hterm | ⟨f, hf, he⟩
      · cases hterm
      · obtain rfl : e = f.kind.element := he
        exact hr.rustType f hf
    have hsize : OneLine ("<" ++ e.rustType ++ " as WireDecode>::MIN_WIRE_SIZE") := by
      simp only [oneLine_append]
      exact ⟨⟨by decide, he⟩, by decide⟩
    dsimp only
    split
    · exact hsize
    · rw [oneLine_append, oneLine_append]
      exact ⟨⟨oneLine_toString n, by decide⟩, hsize⟩

/-! ## Steps -/

theorem inner_encodeStepLines {f : ResolvedField} (hident : OneLine f.ident) {step : EncodeStep}
    (h : step ∈ r.encodeSteps f) : ∀ l ∈ encodeStepLines step, Inner l := by
  have hfield : step.field = f.ident := field_of_mem_encodeSteps h
  rw [← hfield] at hident
  cases step with
  | writeValue field e access =>
    cases access with
    | reference => exact List.forall_mem_singleton.mpr (.between hident (by decide) (by decide))
    | copy =>
      have hvalue : OneLine (" self." ++ field ++ " ") :=
        oneLine_append.mpr ⟨oneLine_append.mpr ⟨by decide, hident⟩, by decide⟩
      exact List.forall_mem_singleton.mpr
        (.between (oneLine_braced.mpr hvalue) (by decide) (by decide))
  | writeBlock field =>
    exact List.forall_mem_singleton.mpr (.between hident (by decide) (by decide))
  | writeElements field e access =>
    cases access with
    | reference =>
      rw [encodeStepLines, List.forall_mem_cons, List.forall_mem_cons, List.forall_mem_singleton]
      exact ⟨.opened (.between hident (by decide) (by decide)), .ofList (by decide),
        .closing (by decide)⟩
    | copy =>
      rw [encodeStepLines, List.forall_mem_cons, List.forall_mem_cons, List.forall_mem_cons,
        List.forall_mem_singleton]
      exact ⟨.between hident (by decide) (by decide), .opened (.ofList (by decide)),
        .ofList (by decide), .closing (by decide)⟩
  | writeLengthPrefix field =>
    exact List.forall_mem_singleton.mpr (.between hident (by decide) (by decide))

theorem inner_sizingStep (hr : r.OnOneLine) {f : ResolvedField} (hf : f ∈ r.fields) {e : Element}
    (he : OneLine e.rustType) : ∀ l ∈ decodeStepLines (r.sizingStep f e), Inner l := by
  rw [sizingStep]
  split
  · rename_i count routine hcount hroutine
    obtain ⟨i, -, hi⟩ := Option.bind_eq_some_iff.mp hcount
    obtain ⟨-, -, rfl⟩ := Option.map_eq_some_iff.mp hroutine
    have hident := hr.ident count (List.mem_of_getElem? hi)
    have hroutine : OneLine ("allocate_" ++ f.snakeName) :=
      oneLine_append.mpr ⟨by decide, hr.snakeName f hf⟩
    rw [decodeStepLines, List.forall_mem_cons, List.forall_mem_singleton]
    exact ⟨.around (.between he (by decide) (by decide)) hident (by decide),
      .between hroutine (by decide) (by decide)⟩
  · rw [decodeStepLines, List.forall_mem_cons, List.forall_mem_cons, List.forall_mem_singleton]
    exact ⟨.ofList (by decide), .between he (by decide) (by decide),
      .between (hr.ident f hf) (by decide) (by decide)⟩

theorem inner_decodeStepLines (hr : r.OnOneLine) {f : ResolvedField} (hf : f ∈ r.fields)
    {step : DecodeStep} (h : r.DecodesBy f step) : ∀ l ∈ decodeStepLines step, Inner l := by
  have hident := hr.ident f hf
  cases h with
  | value access hk =>
    cases access with
    | reference => exact List.forall_mem_singleton.mpr (.between hident (by decide) (by decide))
    | copy => exact List.forall_mem_singleton.mpr (.between hident (by decide) (by decide))
  | block hk => exact List.forall_mem_singleton.mpr (.between hident (by decide) (by decide))
  | items access he hk =>
    cases access with
    | reference =>
      rw [decodeStepLines, List.forall_mem_cons, List.forall_mem_cons, List.forall_mem_singleton]
      exact ⟨.opened (.between hident (by decide) (by decide)), .ofList (by decide),
        .closing (by decide)⟩
    | copy =>
      rw [decodeStepLines, List.forall_mem_cons, List.forall_mem_cons, List.forall_mem_cons,
        List.forall_mem_cons, List.forall_mem_singleton]
      exact ⟨.between hident (by decide) (by decide), .opened (.ofList (by decide)),
        .ofList (by decide), .closing (by decide), .between hident (by decide) (by decide)⟩
  | @sizing e hk =>
    have he := hr.rustType f hf
    rw [hk] at he
    exact inner_sizingStep hr hf he

/-! ## Routines -/

theorem dropRaw_isSuffix (cs : List Char) : dropRaw cs <:+ cs := by
  fun_induction dropRaw cs with
  | case1 rest ih => exact ih.trans (List.suffix_append ['r', '#'] rest)
  | case2 cs hne => exact List.suffix_rfl

theorem oneLine_plainIdent {s : String} (h : OneLine s) : OneLine (plainIdent s) := by
  rw [OneLine, plainIdent, String.toList_ofList]
  exact fun hmem => h ((dropRaw_isSuffix _).subset hmem)

theorem inner_allocatorLines (hr : r.OnOneLine) {a : Allocator} (ha : a ∈ r.layout.allocators) :
    ∀ l ∈ allocatorLines a, Inner l := by
  obtain ⟨f, hf, ha⟩ := List.mem_filterMap.mp ha
  simp only [allocator?, Option.bind_eq_some_iff, Option.map_eq_some_iff] at ha
  obtain ⟨i, -, count, hcount, routine, hroutine, rfl⟩ := ha
  obtain ⟨-, -, rfl⟩ := Option.map_eq_some_iff.mp hroutine
  have hident := hr.ident f hf
  have hcount := hr.ident count (List.mem_of_getElem? hcount)
  have hroutine : OneLine ("allocate_" ++ f.snakeName) :=
    oneLine_append.mpr ⟨by decide, hr.snakeName f hf⟩
  rw [allocatorLines, List.forall_mem_cons, List.forall_mem_cons, List.forall_mem_cons,
    List.forall_mem_cons, List.forall_mem_singleton]
  refine ⟨?_, ?_, ?_, ?_, .closing (by decide)⟩
  · exact .around (.between (oneLine_plainIdent hident) (by decide) (by decide))
      (oneLine_plainIdent hcount) (by decide)
  · exact .opened (.between hroutine (by decide) (by decide))
  · exact .between hcount (by decide) (by decide)
  · exact .between hident (by decide) (by decide)

/-- An impl without a trait has one space less than an impl of one. -/
theorem quiet_impl {typeName : String} (h : Name.IsAsciiIdent typeName) :
    Quiet (opened ("impl " ++ typeName)) := by
  have htext : (opened ("impl " ++ typeName)).toList =
      "impl ".toList ++ (typeName.toList ++ [' ', '{']) := by
    rw [toList_opened, String.toList_append, List.append_assoc]
  have hspaces : (opened ("impl " ++ typeName)).toList.count ' ' = 2 := by
    rw [htext, List.count_append, List.count_append,
      List.count_eq_zero.mpr (h.not_mem (by decide))]
    rfl
  have hopenings : ∀ opening ∈ openings,
      opening = "pub struct " ∨ opening.toList.count ' ' = 3 := by decide
  constructor
  · exact oneLine_opened.mpr (oneLine_append.mpr ⟨by decide, oneLine_of_isAsciiIdent h⟩)
  · intro opening ho hstart
    rcases hopenings opening ho with rfl | hcount
    · have hhead := head?_of_isPrefix hstart rfl
      rw [htext] at hhead
      cases hhead
    · have hle := hstart.count_le ' '
      omega

theorem quiet_allocatorsLines (hr : r.OnOneLine) : ∀ l ∈ allocatorsLines r.layout, Quiet l := by
  rw [allocatorsLines]
  split
  · intro l hl
    cases hl
  · rw [List.forall_mem_append, List.forall_mem_append]
    refine ⟨⟨List.forall_mem_singleton.mpr (quiet_impl hr.isAsciiIdent), ?_⟩, by decide⟩
    intro l hl
    obtain ⟨ls, hls, hl⟩ := List.mem_flatten.mp hl
    rcases mem_intersperse hls with rfl | hls
    · rw [List.mem_singleton.mp hl]
      decide
    · obtain ⟨a, ha, rfl⟩ := List.mem_map.mp hls
      exact (inner_allocatorLines hr ha l hl).quiet

/-! ## Declarations of a record -/

theorem quiet_codecEnd : ∀ l ∈ ["        Ok(())", "    " ++ closing, closing, ""], Quiet l := by
  decide

theorem declares_structLines (hr : r.OnOneLine) :
    Declares "pub struct " r.typeName (structLines r.layout) := by
  obtain ⟨docs, hdocs, hlines⟩ := exists_docs_structLines (l := r.layout) hr.typeName
  have hrepr : OneLine r.layout.repr := by
    rw [RecordLayout.repr]
    split <;> decide
  have hderives : OneLine r.layout.derives := by
    rw [RecordLayout.derives]
    split <;> decide
  refine ⟨docs ++ [s!"#[repr({r.layout.repr})]", s!"#[derive({r.layout.derives})]"],
    r.layout.slots.flatMap slotLines ++ [closing, ""], ?_, ?_, ?_⟩
  · rw [hlines]
    simp only [List.append_assoc]
    rfl
  · rw [List.forall_mem_append, List.forall_mem_cons, List.forall_mem_singleton]
    exact ⟨fun l hl => quiet_of_isDoc (hdocs l hl),
      Inner.quiet (.between hrepr (by decide) (by decide)),
      Inner.quiet (.between hderives (by decide) (by decide))⟩
  · rw [List.forall_mem_append]
    refine ⟨fun l hl => ?_, by decide⟩
    obtain ⟨slot, hslot, hl⟩ := List.mem_flatMap.mp hl
    obtain ⟨f, hf, rfl⟩ := List.mem_map.mp hslot
    obtain ⟨docs, hdocs, hlines⟩ := exists_docs_slotLines ⟨f.ident, f.kind, f.comment⟩
    rw [hlines, List.mem_append, List.mem_singleton] at hl
    rcases hl with hl | rfl
    · exact quiet_of_isDoc (hdocs l hl)
    · exact Inner.quiet (.around (.between (hr.ident f hf) (by decide) (by decide))
        (oneLine_rustType (hr.rustType f hf)) (by decide))

theorem declares_defaultLines (hr : r.OnOneLine) :
    Declares "impl Default for " r.typeName (defaultLines r.layout) := by
  have hbody : ∀ l ∈ (if r.layout.slots.isEmpty then ["        Self {}"]
      else [opened "        Self"] ++ r.layout.slots.map (fun slot =>
        s!"            {slot.ident}: {slot.kind.zeroInit.expression},") ++
        ["        " ++ closing]), Quiet l := by
    split
    · decide
    · rw [List.forall_mem_append, List.forall_mem_append]
      refine ⟨⟨by decide, fun l hl => ?_⟩, by decide⟩
      obtain ⟨slot, hslot, rfl⟩ := List.mem_map.mp hl
      obtain ⟨f, hf, rfl⟩ := List.mem_map.mp hslot
      exact Inner.quiet (.around (.between (hr.ident f hf) (by decide) (by decide))
        (oneLine_zeroInit (hr.rustType f hf)) (by decide))
  refine declares_cons (List.forall_mem_cons.mpr ⟨by decide, ?_⟩)
  exact List.forall_mem_append.mpr ⟨hbody, by decide⟩

theorem declares_encodeLines (hr : r.OnOneLine) :
    Declares "impl WireEncode for " r.typeName (encodeLines r.typeName r.plan) := by
  have hwriter : OneLine (if r.plan.encode.isEmpty then "_writer" else "writer") := by
    split <;> decide
  have hsteps : ∀ l ∈ r.plan.encode.flatMap encodeStepLines, Quiet l := by
    intro l hl
    obtain ⟨step, hstep, hl⟩ := List.mem_flatMap.mp hl
    obtain ⟨f, hf, hstep⟩ := List.mem_flatMap.mp hstep
    exact (inner_encodeStepLines (hr.ident f hf) hstep l hl).quiet
  refine declares_cons (List.forall_mem_cons.mpr ⟨Inner.quiet ?_, ?_⟩)
  · exact .opened (.between hwriter (by decide) (by decide))
  · exact List.forall_mem_append.mpr ⟨hsteps, quiet_codecEnd⟩

theorem declares_decodeLines (hr : r.OnOneLine) :
    Declares "impl WireDecode for " r.typeName (decodeLines r.typeName r.plan) := by
  have hreader : OneLine (if r.plan.decode.isEmpty then "_reader" else "reader") := by
    split <;> decide
  have hsteps : ∀ l ∈ r.plan.decode.flatMap decodeStepLines, Quiet l := by
    intro l hl
    obtain ⟨step, hstep, hl⟩ := List.mem_flatMap.mp hl
    obtain ⟨f, hf, hstep⟩ := decodesBy_of_mem_plan hstep
    exact (inner_decodeStepLines hr hf hstep l hl).quiet
  refine declares_cons (List.forall_mem_cons.mpr ⟨Inner.quiet ?_, List.forall_mem_cons.mpr
    ⟨by decide, List.forall_mem_cons.mpr ⟨Inner.quiet ?_, ?_⟩⟩⟩)
  · exact .between (oneLine_expression hr) (by decide) (by decide)
  · exact .opened (.between hreader (by decide) (by decide))
  · exact List.forall_mem_append.mpr ⟨hsteps, quiet_codecEnd⟩

/-- Among the lines of a record each opening stands once, with the name of its type. -/
theorem filter_record (hr : r.OnOneLine) {opening : String} (ho : opening ∈ openings) :
    (rendered (recordLines r.layout ++ codecLines r.layout.typeName r.plan)).filter
        (fun line => line.startsWith ("    " ++ opening)) =
      ["    " ++ declaration opening r.typeName] := by
  have hstruct := (declares_structLines hr).filter_rendered (by decide) ho hr.typeName
  have hdefault := (declares_defaultLines hr).filter_rendered (by decide) ho hr.typeName
  have hencode := (declares_encodeLines hr).filter_rendered (by decide) ho hr.typeName
  have hdecode := (declares_decodeLines hr).filter_rendered (by decide) ho hr.typeName
  have hname : r.layout.typeName = r.typeName := rfl
  rw [recordLines, codecLines, hname]
  simp only [rendered_append, List.filter_append, hstruct, hdefault, hencode, hdecode,
    filter_rendered_of_quiet (quiet_allocatorsLines hr) ho]
  -- Each opening is that of one of the four parts, and the other three have none of it.
  simp only [openings, List.mem_cons, List.not_mem_nil, or_false] at ho
  rcases ho with rfl | rfl | rfl | rfl
  · simp
  · simp
  · simp
  · simp

/-! ## The head of the body -/

theorem exists_mem_splitPath {segment cs : List Char} {c : Char} (hc : c ≠ ':')
    (h : c ∈ segment ∨ c ∈ cs) : ∃ s ∈ splitPath segment cs, c ∈ s.toList := by
  fun_induction splitPath segment cs with
  | case1 segment rest ih =>
    rcases h with h | h
    · exact ⟨_, List.mem_cons_self .., by simpa using h⟩
    · have hrest : c ∈ rest := by simpa [hc] using h
      obtain ⟨s, hs, hmem⟩ := ih (.inr hrest)
      exact ⟨s, List.mem_cons_of_mem _ hs, hmem⟩
  | case2 segment d rest hne ih =>
    apply ih
    rcases h with h | h
    · exact .inl (List.mem_cons_of_mem _ h)
    · rcases List.mem_cons.mp h with rfl | h
      · exact .inl (List.mem_cons_self ..)
      · exact .inr h
  | case3 segment => exact ⟨_, List.mem_singleton.mpr rfl, by simpa using h⟩

theorem oneLine_of_isUsePath {first leading : Bool} {segments : List String}
    (h : isUsePath first leading segments = true) : ∀ s ∈ segments, OneLine s := by
  induction segments generalizing first leading with
  | nil => simp
  | cons segment rest ih =>
    rw [isUsePath, Bool.and_eq_true] at h
    refine List.forall_mem_cons.mpr ⟨?_, ih h.2⟩
    have hsegment := h.1
    split at hsegment
    · rename_i hword
      rw [Bool.or_eq_true, decide_eq_true_iff, decide_eq_true_iff] at hword
      rcases hword with rfl | rfl <;> decide
    · split at hsegment
      · rename_i hword
        rw [hword]
        decide
      · exact oneLine_of_isIdent (Bool.and_eq_true_iff.mp hsegment).1

theorem oneLine_of_isRuntimePath {path : String} (h : isRuntimePath path = true) :
    OneLine path := by
  intro hmem
  have hfeed : ∃ s ∈ splitPath [] path.toList, '\n' ∈ s.toList :=
    exists_mem_splitPath (by decide) (.inr hmem)
  obtain ⟨s, hs, hfeed⟩ := hfeed
  exact oneLine_of_isUsePath h s hs hfeed

theorem quiet_headLines (s : Resolved) {c : Config} (h : OneLine c.runtimePath) :
    ∀ l ∈ headLines s c, Quiet l := by
  refine List.forall_mem_cons.mpr ⟨Inner.quiet ?_, List.forall_mem_cons.mpr
    ⟨by decide, List.forall_mem_cons.mpr ⟨by decide, List.forall_mem_cons.mpr ⟨?_, by decide⟩⟩⟩⟩
  · have hnames : OneLine ("self as wire, " ++ ", ".intercalate imports) :=
      oneLine_append.mpr ⟨by decide, oneLine_intercalate (by decide) (by decide)⟩
    exact .around (.between h (by decide) (by decide)) (oneLine_braced.mpr hnames) (by decide)
  · cases s.byteOrder <;> decide

/-- The lines inside the module that declare something are those of the records, in their order. -/
theorem filter_bodyLines {s : Resolved} {c : Config} (hpath : OneLine c.runtimePath)
    (hrecords : ∀ r ∈ s.records, r.OnOneLine) {opening : String} (ho : opening ∈ openings) :
    (rendered (bodyLines s c)).filter (fun line => line.startsWith ("    " ++ opening)) =
      s.records.map fun r => "    " ++ declaration opening r.typeName := by
  rw [bodyLines, rendered_append, List.filter_append,
    filter_rendered_of_quiet (quiet_headLines s hpath) ho, List.nil_append, rendered_flatMap,
    List.filter_flatMap, List.map_eq_flatMap]
  exact List.flatMap_congr fun r hr => filter_record (hrecords r hr) ho

/-! ## The whole module -/

theorem filter_startsWith_eq_nil {ls : List String} {pattern : String} {c : Char}
    (hc : pattern.toList.head? = some c) (h : ∀ l ∈ ls, l.toList.head? ≠ some c) :
    ls.filter (fun line => line.startsWith pattern) = [] := by
  rw [List.filter_eq_nil_iff]
  intro l hl
  rw [String.startsWith_string_iff]
  exact fun hstart => h l hl (head?_of_isPrefix hstart hc)

/-- Inside the module every line is empty or starts with a space. -/
theorem head?_of_mem_rendered {ls : List String} {l : String} (h : l ∈ rendered ls) :
    l.toList.head? = none ∨ l.toList.head? = some ' ' := by
  obtain ⟨piece, -, rfl⟩ := List.mem_map.mp h
  rw [indent]
  split
  · rename_i hempty
    rw [String.isEmpty_iff.mp hempty]
    exact .inl rfl
  · rw [String.toList_append]
    exact .inr rfl

/-- What stands in front of the module starts with a slash or a hash sign. -/
theorem head?_of_mem_front {c : Config} {l : String}
    (h : l ∈ banner c ++ ["#[allow(dead_code, unused_imports, clippy::all)]"]) :
    l.toList.head? = none ∨ l.toList.head? = some '/' ∨ l.toList.head? = some '#' := by
  obtain ⟨label, hbanner⟩ := exists_banner c
  have hfirst : ("//" ++ label).toList.head? = some '/' := by
    rw [String.toList_append]
    rfl
  rw [hbanner, List.cons_append, List.mem_cons] at h
  rcases h with rfl | h
  · exact .inr (.inl hfirst)
  · have hall : ∀ l ∈ ["// Do not edit by hand; edit the schema and regenerate.", ""] ++
        ["#[allow(dead_code, unused_imports, clippy::all)]"],
        l.toList.head? = none ∨ l.toList.head? = some '/' ∨ l.toList.head? = some '#' := by decide
    exact hall l h

/-- The lines of the module, and where in it the declarations stand. -/
theorem rawLines_declarations {s : Resolved} {c : Config} (hrefusal : refusal s c = none)
    (hsource : ∀ label ∈ c.source, OneLine label) (hrecords : ∀ r ∈ s.records, r.OnOneLine) :
    ∃ before inside,
      rawLines (code s c) = before ++
        [opened ("pub mod " ++ Name.fieldIdent (moduleName s c))] ++ inside ++ [closing, ""] ∧
      (∀ l ∈ before, l.toList.head? ≠ some 'p' ∧ l.toList.head? ≠ some ' ') ∧
      (∀ l ∈ inside, l.toList.head? ≠ some 'p') ∧
      ∀ opening ∈ openings, inside.filter (fun line => line.startsWith ("    " ++ opening)) =
        s.records.map fun r => "    " ++ declaration opening r.typeName := by
  obtain ⟨inside, hinside, hlines⟩ := rawLines_code hrefusal hsource
  have hpath := oneLine_of_isRuntimePath (isRuntimePath_of_refusal hrefusal)
  refine ⟨banner c ++ ["#[allow(dead_code, unused_imports, clippy::all)]"], inside, ?_, ?_, ?_, ?_⟩
  · rw [hlines]
    simp only [List.append_assoc]
    rfl
  · intro l hl
    rcases head?_of_mem_front hl with h | h | h <;> simp [h]
  · intro l hl
    have hl : l ∈ rendered (bodyLines s c) := hinside ▸ List.mem_append_left _ hl
    rcases head?_of_mem_rendered hl with h | h <;> simp [h]
  · intro opening ho
    have hempty : [""].filter (fun line => line.startsWith ("    " ++ opening)) = [] := by
      apply filter_startsWith_eq_nil (c := ' ')
      · rw [String.toList_append]
        rfl
      · decide
    rw [← filter_bodyLines hpath hrecords ho, hinside, List.filter_append, hempty, List.append_nil]

end Emit

theorem Schema.onOneLine {schema : Schema} {s : Resolved}
    (accepted : schema.resolve.result = .ok s)
    (hforeign : ∀ name ∈ s.foreignTypes, Text.OneLine name) {r : ResolvedRecord}
    (hr : r ∈ s.records) : r.OnOneLine := by
  have hsnake : ∀ f ∈ r.fields, Text.OneLine f.snakeName := by
    intro f hf
    have hplain := (ident_of_accepted accepted hr hf).1
    exact Emit.oneLine_of_isAsciiIdent (Name.isPlain_iff.mp hplain).1
  refine ⟨isAsciiIdent_typeName accepted hr, fun f hf => ?_, hsnake, fun f hf => ?_⟩
  · rw [(ident_of_accepted accepted hr hf).2]
    exact Emit.oneLine_fieldIdent (hsnake f hf)
  · cases he : f.kind.element with
    | primitive p => cases p <;> decide
    | record name =>
      obtain ⟨hnames, kinds, order, hkinds, -, rfl⟩ := resolve_ok_iff.mp accepted
      obtain ⟨i, hi⟩ := List.mem_iff_getElem?.mp hr
      obtain ⟨-, field, record, hkind⟩ := (kinds_of_ok hkinds).exists_field hi hf
      have hname : f.kind.recordName? = some name := Element.recordName?_eq_some.mpr he
      have hmem := ((FieldDef.recordName?_of_kind hkind).mp hname).2.2
      obtain ⟨declared, hdeclared, rfl⟩ := List.mem_map.mp hmem
      have hpascal := (schema.checkNames_ok_iff.mp hnames).isPlain_pascal declared hdeclared
      exact Emit.oneLine_of_isAsciiIdent (Name.isTypeIdent_typeIdent hpascal).isAsciiIdent
    | foreign name =>
      have hname : f.kind.foreignName? = some name := Element.foreignName?_eq_some.mpr he
      exact hforeign name (Resolved.mem_foreignTypes.mpr ⟨r, hr, f, hf, hname⟩)

/-- The generated code is a single module.  It declares every record once, in the order of the
records, and gives each its three impls in the same order.  All this stands inside the module, and
no comment and no name of a type looks like it. -/
theorem declares_records_in_order {schema : Schema} {s : Resolved} {c : Emit.Config} {text : String}
    (accepted : schema.resolve.result = .ok s)
    (foreign : ∀ name ∈ s.foreignTypes, Text.OneLine name)
    (source : ∀ label ∈ c.source, Text.OneLine label)
    (generated : (Emit.generate s c).result = .ok text) :
    ∃ name before inside, name = Name.fieldIdent (Emit.moduleName s c) ∧
      Text.rawLines text =
        before ++ [Text.opened ("pub mod " ++ name)] ++ inside ++ [Text.closing, ""] ∧
      (Text.rawLines text).filter (fun line => line.startsWith "pub mod ") =
        [Text.opened ("pub mod " ++ name)] ∧
      ∀ opening ∈ Emit.openings,
        (Text.rawLines text).filter (fun line => line.startsWith ("    " ++ opening)) =
          s.records.map (fun r => "    " ++ Emit.declaration opening r.typeName) ∧
        inside.filter (fun line => line.startsWith ("    " ++ opening)) =
          s.records.map (fun r => "    " ++ Emit.declaration opening r.typeName) := by
  obtain ⟨hrefusal, htext⟩ := Emit.generate_eq_ok generated
  obtain ⟨before, inside, hlines, hbefore, hinside, hdeclared⟩ :=
    Emit.rawLines_declarations hrefusal source fun r => Schema.onOneLine accepted foreign
  rw [← htext] at hlines
  have hmodule : (Text.opened ("pub mod " ++ Name.fieldIdent (Emit.moduleName s c))).toList =
      "pub mod ".toList ++ ((Name.fieldIdent (Emit.moduleName s c)).toList ++ [' ', '{']) := by
    rw [Text.toList_opened, String.toList_append, List.append_assoc]
  refine ⟨_, before, inside, rfl, hlines, ?_, fun opening ho => ⟨?_, hdeclared opening ho⟩⟩
  · have hp : "pub mod ".toList.head? = some 'p' := rfl
    have hend : ∀ l ∈ [Text.closing, ""], l.toList.head? ≠ some 'p' := by decide
    have hline : (Text.opened ("pub mod " ++ Name.fieldIdent (Emit.moduleName s c))).startsWith
        "pub mod " = true := by
      rw [String.startsWith_string_iff, hmodule]
      exact List.prefix_append ..
    rw [hlines, List.filter_append, List.filter_append, List.filter_append, List.filter_singleton,
      hline, Emit.filter_startsWith_eq_nil hp fun l hl => (hbefore l hl).1,
      Emit.filter_startsWith_eq_nil hp hinside, Emit.filter_startsWith_eq_nil hp hend]
    rfl
  · have hspace : ("    " ++ opening).toList.head? = some ' ' := by
      rw [String.toList_append]
      rfl
    have hend : ∀ l ∈ [Text.closing, ""], l.toList.head? ≠ some ' ' := by decide
    have hline : ∀ l ∈ [Text.opened ("pub mod " ++ Name.fieldIdent (Emit.moduleName s c))],
        l.toList.head? ≠ some ' ' := by
      rw [List.forall_mem_singleton, hmodule]
      exact (by decide : some 'p' ≠ some ' ')
    rw [hlines, List.filter_append, List.filter_append, List.filter_append, hdeclared opening ho,
      Emit.filter_startsWith_eq_nil hspace fun l hl => (hbefore l hl).2,
      Emit.filter_startsWith_eq_nil hspace hline, Emit.filter_startsWith_eq_nil hspace hend,
      List.append_nil, List.nil_append, List.nil_append]

namespace Sample

/-- A record whose comments and foreign type look like declarations. -/
def maskDef : RecordDef where
  name := "self"
  comment := some ("A mask.\n" ++ Text.closing ++ "\n" ++ Text.opened "pub struct Evil" ++ "\r\n" ++
    Text.opened "impl Default for Evil")
  fields := [
    { name := "pub", typeName := "u16"
      comment := some ("\n" ++ Text.opened "    impl WireEncode for Evil") },
    { name := "faces", typeName := "sequence<" ++ Text.opened "impl Default for Evil" ++ ">" }]

def stageDef : RecordDef where
  name := "stage"
  fields := [{ name := "struct", typeName := "self", length := some 2 }]

def masks : Schema :=
  (({ moduleName := "type" } : Schema).addRecord maskDef).addRecord stageDef

def masksKinds : List (List FieldKind) :=
  [[.single (.primitive .uint16), .sequence (.foreign (Text.opened "impl Default for Evil"))],
  [.array (.record "self") 2]]

def masksResolved : Resolved :=
  masks.resolved masksKinds [0, 1]

def masksConfig : Emit.Config where
  runtimePath := "crate::wire"
  source := some (Text.opened "pub mod evil")

theorem masks_accepted : masks.resolve.result = .ok masksResolved := by
  refine Schema.resolve_ok_iff.mpr ⟨?_, masksKinds, [0, 1], ?_, ?_, rfl⟩
  · decide +kernel
  · decide +kernel
  · decide +kernel

theorem masks_generated :
    (Emit.generate masksResolved masksConfig).result =
      .ok (Emit.code masksResolved masksConfig) := by
  have hrefusal : Emit.refusal masksResolved masksConfig = none := by decide +kernel
  rw [Emit.generate_result, hrefusal]

end Sample

/-- Comments, a label and a foreign type that look like declarations are none. -/
theorem masks_declared :
    Sample.masks.resolve.result = .ok Sample.masksResolved ∧
      Sample.masksResolved.foreignTypes = [Text.opened "impl Default for Evil"] ∧
      ∃ text, (Emit.generate Sample.masksResolved Sample.masksConfig).result = .ok text ∧
        (Text.rawLines text).filter (fun line => line.startsWith "pub mod ") =
          [Text.opened "pub mod r#type"] ∧
        (Text.rawLines text).filter (fun line => line.startsWith "    impl Default for ") =
          [Text.opened "    impl Default for Self_", Text.opened "    impl Default for Stage"] := by
  have hforeign : Sample.masksResolved.foreignTypes = [Text.opened "impl Default for Evil"] := by
    decide +kernel
  refine ⟨Sample.masks_accepted, hforeign, _, Sample.masks_generated, ?_⟩
  obtain ⟨name, before, inside, hname, -, hmodule, hdeclared⟩ :=
    declares_records_in_order Sample.masks_accepted (by rw [hforeign]; decide) (by decide)
      Sample.masks_generated
  have hname : name = "r#type" := hname.trans (by decide +kernel)
  have hopening : "    " ++ "impl Default for " = "    impl Default for " := by decide
  have hrecords : (Sample.masksResolved.records.map fun r =>
      "    " ++ Emit.declaration "impl Default for " r.typeName) =
      [Text.opened "    impl Default for Self_", Text.opened "    impl Default for Stage"] := by
    decide +kernel
  have hlines := (hdeclared "impl Default for " (by decide)).1
  rw [hname] at hmodule
  rw [hopening, hrecords] at hlines
  exact ⟨hmodule, hlines⟩

end RecordWire
