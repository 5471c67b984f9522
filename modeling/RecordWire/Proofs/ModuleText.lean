import RecordWire.Emit.Module
import RecordWire.Proofs.Identifiers
import RecordWire.Proofs.TextLines

/-!
The lines of a generated module.  The body is written line by line, split again and indented, and
what comes out is the lines of its parts one after the other.
-/

namespace RecordWire
namespace Emit

open Text

/-! ## Names and paths are on one line -/

theorem oneLine_of_isPart {cs : List Char} (h : ∀ c ∈ cs, Name.isPart c = true) : '\n' ∉ cs := by
  intro hmem
  exact absurd (h '\n' hmem) (by decide)

theorem mem_rawRest {cs : List Char} (h : '\n' ∈ cs) : '\n' ∈ (rawRest? cs).getD cs := by
  unfold rawRest?
  split
  · simpa using h
  · exact h

theorem oneLine_of_isIdent {s : String} (h : isIdent s = true) : OneLine s := by
  have hrest : '\n' ∉ (rawRest? s.toList).getD s.toList := by
    rw [isIdent] at h
    split at h
    · cases h
    · rename_i c rest heq
      rw [Bool.and_eq_true, Bool.and_eq_true, List.all_eq_true] at h
      rw [heq, List.mem_cons, not_or]
      refine ⟨?_, oneLine_of_isPart h.2⟩
      rintro rfl
      exact absurd h.1.1 (by decide)
  exact fun hmem => hrest (mem_rawRest hmem)

theorem oneLine_of_isAsciiIdent {s : String} (h : Name.IsAsciiIdent s) : OneLine s :=
  h.not_mem (by decide)

theorem oneLine_fieldIdent {s : String} (h : OneLine s) : OneLine (Name.fieldIdent s) := by
  rcases Name.fieldIdent_cases s with ⟨-, heq⟩ | heq | heq
  · rw [heq, oneLine_append]
    exact ⟨h, by decide⟩
  · rw [heq, oneLine_append]
    exact ⟨by decide, h⟩
  · rwa [heq]

/-! ## The body -/

/-- What lines of the body become inside the module. -/
def rendered (ls : List String) : List String :=
  (ls.flatMap pieces).map indent

@[simp] theorem rendered_append (ls ls' : List String) :
    rendered (ls ++ ls') = rendered ls ++ rendered ls' := by
  rw [rendered, List.flatMap_append, List.map_append]
  rfl

theorem rendered_flatMap {α : Type} (f : α → List String) (as : List α) :
    rendered (as.flatMap f) = as.flatMap fun a => rendered (f a) := by
  rw [rendered, List.flatMap_assoc, List.map_flatMap]
  rfl

theorem rendered_of_oneLine {l : String} (h : OneLine l) :
    rendered [l] = [indent (String.ofList (dropReturn l.toList))] := by
  rw [rendered, List.flatMap_singleton, pieces_of_oneLine h]
  rfl

theorem oneLine_of_mem_rendered {ls : List String} {l : String} (h : l ∈ rendered ls) :
    OneLine l := by
  obtain ⟨piece, hpiece, rfl⟩ := List.mem_map.mp h
  obtain ⟨line, -, hline⟩ := List.mem_flatMap.mp hpiece
  have hone : OneLine piece := oneLine_of_mem_lines hline
  rw [indent]
  split
  · exact hone
  · exact oneLine_append.mpr ⟨by decide, hone⟩

/-- The lines end in one that has something at its end, and an empty one. -/
def EndsClosed (ls : List String) : Prop :=
  ∃ init last, ls = init ++ [last, ""] ∧ OneLine last ∧ Closed last

theorem EndsClosed.append {ls : List String} (h : EndsClosed ls) (before : List String) :
    EndsClosed (before ++ ls) := by
  obtain ⟨init, last, rfl, hlast⟩ := h
  exact ⟨before ++ init, last, (List.append_assoc ..).symm, hlast⟩

theorem endsClosed_headLines (s : Resolved) (c : Config) : EndsClosed (headLines s c) := by
  refine ⟨[_, _, _], s!"pub const BYTE_ORDER: ByteOrder = ByteOrder::{s.byteOrder.name};", rfl,
    ?_, ?_⟩
  · cases s.byteOrder <;> decide
  · refine ⟨("pub const BYTE_ORDER: ByteOrder = ByteOrder::" ++ s.byteOrder.name).toList, ';', ?_,
      by decide⟩
    cases s.byteOrder <;> decide

theorem endsClosed_codecLines (typeName : String) (plan : CodecPlan) :
    EndsClosed (codecLines typeName plan) := by
  have hclosed : EndsClosed ["        Ok(())", "    " ++ closing, closing, ""] :=
    ⟨["        Ok(())", "    " ++ closing], closing, rfl, by decide, [], '}', rfl, by decide⟩
  exact (hclosed.append _).append _

theorem endsClosed_bodyLines (s : Resolved) (c : Config) : EndsClosed (bodyLines s c) := by
  rw [bodyLines]
  rcases List.eq_nil_or_concat s.records with h | ⟨rs, r, h⟩
  · rw [h, List.flatMap_nil, List.append_nil]
    exact endsClosed_headLines s c
  · rw [h, List.concat_eq_append, List.flatMap_append, List.flatMap_singleton]
    exact (((endsClosed_codecLines ..).append _).append _).append _

theorem oneLine_of_mem_banner {c : Config} (hsource : ∀ source ∈ c.source, OneLine source)
    {l : String} (h : l ∈ banner c) : OneLine l := by
  rw [banner, List.mem_cons] at h
  rcases h with rfl | h
  · cases hc : c.source with
    | none => exact (by decide)
    | some source =>
      have hone := hsource source hc
      simp only [oneLine_append]
      exact ⟨⟨by decide, hone⟩, by decide⟩
  · rcases List.mem_pair.mp h with rfl | rfl
    · exact oneLine_ofList (by decide)
    · decide

/-- The output: the banner, the two lines that open the module, the body inside and the line that
closes it. -/
theorem exists_inside (s : Resolved) (c : Config) :
    ∃ inside, rendered (bodyLines s c) = inside ++ [""] ∧ ∀ name,
      output s c name = unlines (banner c ++
        ["#[allow(dead_code, unused_imports, clippy::all)]", opened s!"pub mod {name}"] ++ inside ++
        [closing]) := by
  obtain ⟨init, last, hbody, hone, hclosed⟩ := endsClosed_bodyLines s c
  refine ⟨rendered (init ++ [last]), ?_, fun name => ?_⟩
  · rw [hbody, List.append_cons, rendered_append]
    rfl
  · rw [output, hbody, lines_trimEnd_unlines hone hclosed]
    rfl

theorem rawLines_output (s : Resolved) {c : Config} {name : String}
    (hsource : ∀ source ∈ c.source, OneLine source) (hname : OneLine name) :
    ∃ inside, rendered (bodyLines s c) = inside ++ [""] ∧
      rawLines (output s c name) = banner c ++
        ["#[allow(dead_code, unused_imports, clippy::all)]", opened s!"pub mod {name}"] ++ inside ++
        [closing, ""] := by
  obtain ⟨inside, hbody, houtput⟩ := exists_inside s c
  refine ⟨inside, hbody, ?_⟩
  rw [houtput, rawLines_unlines, List.append_assoc]
  · rfl
  · intro l hl
    rw [List.mem_append, List.mem_append, List.mem_append] at hl
    rcases hl with ((hl | hl) | hl) | hl
    · exact oneLine_of_mem_banner hsource hl
    · simp only [List.mem_cons, List.not_mem_nil, or_false] at hl
      rcases hl with rfl | rfl
      · decide
      · exact oneLine_opened.mpr (oneLine_append.mpr ⟨by decide, hname⟩)
    · exact oneLine_of_mem_rendered (hbody ▸ List.mem_append_left [""] hl)
    · rw [List.mem_singleton.mp hl]
      decide

/-! ## Comments -/

/-- A line that starts with a margin of spaces and two slashes. -/
def IsDoc (line : String) : Prop :=
  ∃ margin text, line.toList = List.replicate margin ' ' ++ '/' :: '/' :: text

theorem isDoc_of_mem_docLines {margin comment l : String} (n : Nat)
    (hm : margin.toList = List.replicate n ' ') (hl : l ∈ docLines margin comment) :
    IsDoc l ∧ OneLine l := by
  obtain ⟨line, hline, rfl⟩ := List.mem_map.mp hl
  have hmargin : OneLine margin := by simp [OneLine, hm]
  have hone : OneLine (trimEnd line) := oneLine_trimEnd (oneLine_of_mem_lines hline)
  by_cases hempty : (trimEnd line).isEmpty = true
  · simp only [if_pos hempty]
    refine ⟨⟨n, ['/'], ?_⟩, oneLine_append.mpr ⟨hmargin, by decide⟩⟩
    rw [String.toList_append, hm]
    rfl
  · simp only [if_neg hempty]
    refine ⟨⟨n, '/' :: ' ' :: (trimEnd line).toList, ?_⟩, ?_⟩
    · rw [String.toList_append, String.toList_append, hm, List.append_assoc]
      rfl
    · simp only [oneLine_append]
      exact ⟨⟨hmargin, by decide⟩, hone⟩

theorem exists_banner (c : Config) :
    ∃ label, banner c =
      ["//" ++ label, "// Do not edit by hand; edit the schema and regenerate.", ""] := by
  rw [banner]
  cases c.source with
  | none => exact ⟨" @generated by ironrec-codegen.", rfl⟩
  | some source =>
    refine ⟨" @generated by ironrec-codegen from " ++ source ++ ".", congrArg (· :: _) ?_⟩
    show "// @generated by ironrec-codegen from " ++ source ++ "." = _
    rw [← String.toList_inj]
    simp

theorem exists_docs_slotLines (slot : Slot) :
    ∃ docs, (∀ l ∈ docs, IsDoc l ∧ OneLine l) ∧
      slotLines slot = docs ++ [s!"    pub {slot.ident}: {slot.kind.rustType},"] := by
  obtain ⟨ident, kind, comment⟩ := slot
  cases comment with
  | none => exact ⟨[], by simp, rfl⟩
  | some comment => exact ⟨docLines "    " comment, fun l => isDoc_of_mem_docLines 4 rfl, rfl⟩

theorem exists_docs_structLines {l : RecordLayout} (h : OneLine l.typeName) :
    ∃ docs, (∀ l ∈ docs, IsDoc l ∧ OneLine l) ∧
      structLines l = docs ++ [s!"#[repr({l.repr})]", s!"#[derive({l.derives})]",
        opened s!"pub struct {l.typeName}"] ++ l.slots.flatMap slotLines ++
      [closing, ""] := by
  obtain ⟨typeName, comment, packed, slots, allocators⟩ := l
  cases comment with
  | none =>
    refine ⟨[s!"/// {typeName} record."], fun line hline => ?_, rfl⟩
    rw [List.mem_singleton.mp hline]
    constructor
    · refine ⟨0, ("/ " ++ typeName ++ " record.").toList, ?_⟩
      show ("/// " ++ typeName ++ " record.").toList = _
      simp
    · simp only [oneLine_append]
      exact ⟨⟨by decide, h⟩, by decide⟩
  | some comment => exact ⟨docLines "" comment, fun l => isDoc_of_mem_docLines 0 rfl, rfl⟩

/-! ## Generating -/

/-- Why a module is not generated, if it is not. -/
def refusal (s : Resolved) (c : Config) : Option GenerationError :=
  if !isIdent (moduleName s c) then some (.moduleName (moduleName s c))
  else if !isRuntimePath c.runtimePath then some (.runtimePath c.runtimePath)
  else
    (s.records.find? fun r => usedNames.contains r.typeName).map fun r => .clash r.name r.typeName

def code (s : Resolved) (c : Config) : String :=
  output s c (Name.fieldIdent (moduleName s c))

theorem generate_result (s : Resolved) (c : Config) :
    (generate s c).result = match refusal s c with
      | some e => .error e
      | none => .ok (code s c) := by
  rw [refusal, generate]
  by_cases hname : (!isIdent (moduleName s c)) = true
  · simp only [if_pos hname]
    rfl
  by_cases hpath : (!isRuntimePath c.runtimePath) = true
  · simp only [if_neg hname, if_pos hpath]
    rfl
  simp only [if_neg hname, if_neg hpath]
  cases s.records.find? fun r => usedNames.contains r.typeName <;> rfl

theorem generate_eq_ok {s : Resolved} {c : Config} {text : String}
    (h : (generate s c).result = .ok text) : refusal s c = none ∧ text = code s c := by
  rw [generate_result] at h
  cases hr : refusal s c with
  | some e => simp [hr] at h
  | none =>
    rw [hr] at h
    exact ⟨rfl, (Except.ok.inj h).symm⟩

theorem isIdent_of_refusal {s : Resolved} {c : Config} (h : refusal s c = none) :
    isIdent (moduleName s c) = true := by
  cases hname : isIdent (moduleName s c) with
  | true => rfl
  | false => simp [refusal, hname] at h

theorem isRuntimePath_of_refusal {s : Resolved} {c : Config} (h : refusal s c = none) :
    isRuntimePath c.runtimePath = true := by
  have hname := isIdent_of_refusal h
  cases hpath : isRuntimePath c.runtimePath with
  | true => rfl
  | false => simp [refusal, hname, hpath] at h

/-- The lines of the module that is generated. -/
theorem rawLines_code {s : Resolved} {c : Config} (h : refusal s c = none)
    (hsource : ∀ source ∈ c.source, OneLine source) :
    ∃ inside, rendered (bodyLines s c) = inside ++ [""] ∧
      rawLines (code s c) = banner c ++
        ["#[allow(dead_code, unused_imports, clippy::all)]",
          opened s!"pub mod {Name.fieldIdent (moduleName s c)}"] ++ inside ++
        [closing, ""] :=
  rawLines_output s hsource (oneLine_fieldIdent (oneLine_of_isIdent (isIdent_of_refusal h)))

end Emit

namespace Schema

variable {s : Schema} {r : Resolved} {record : ResolvedRecord}

theorem isAsciiIdent_typeName (accepted : s.resolve.result = .ok r) (h : record ∈ r.records) :
    Name.IsAsciiIdent record.typeName := by
  obtain ⟨declared, kinds, -, hpascal, hname, -⟩ := exists_def_of_accepted accepted h
  rw [(named accepted).typeName_eq record h, hname]
  exact (Name.isTypeIdent_typeIdent hpascal).isAsciiIdent

theorem oneLine_typeName (accepted : s.resolve.result = .ok r) (h : record ∈ r.records) :
    Text.OneLine record.typeName :=
  Emit.oneLine_of_isAsciiIdent (isAsciiIdent_typeName accepted h)

end Schema
end RecordWire
