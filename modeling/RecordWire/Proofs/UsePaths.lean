import RecordWire.Proofs.Declarations

/-!
The name of the generated module and the path of its runtime.  Both are checked before anything is
generated, and what passes can be written in front of a module and in a `use`, except that a
keyword that cannot be a raw identifier passes as one.
-/

namespace RecordWire
namespace Name

/-! ## Identifiers that can be written -/

/-- An ASCII identifier that is no keyword, or any made raw, which four keywords cannot be.  A low
bar alone is neither. -/
inductive IsWritable : String → Prop
  | plain {s : String} : IsAsciiIdent s → s ≠ "_" → ¬ IsWord s → IsWritable s
  | raw {s : String} : IsAsciiIdent s → s ∉ ["_", "crate", "self", "Self", "super"] →
    IsWritable ("r#" ++ s)

/-- The keywords that cannot be raw identifiers, written as raw identifiers. -/
def rawReserved : List String :=
  ["r#crate", "r#self", "r#Self", "r#super"]

theorem mem_rawReserved_iff {s : String} :
    s ∈ rawReserved ↔ ∃ word ∈ reserved, s = "r#" ++ word := by
  have hmap : rawReserved = reserved.map ("r#" ++ ·) := by decide
  rw [hmap, List.mem_map]
  simp only [eq_comm]

theorem not_isWritable_of_mem {s : String} (h : s ∈ rawReserved) : ¬ IsWritable s := by
  obtain ⟨word, hword, rfl⟩ := mem_rawReserved_iff.mp h
  intro hs
  generalize hraw : "r#" ++ word = s at hs
  cases hs with
  | plain hascii => exact hascii.ne_raw word hraw.symm
  | @raw t hascii ht =>
    rw [String.append_right_inj] at hraw
    exact ht (hraw ▸ List.mem_cons_of_mem _ hword)

/-- A raw identifier can be written unless its word is reserved. -/
theorem isWritable_raw_iff {word : String} (h : isPlain word = true) :
    IsWritable ("r#" ++ word) ↔ "r#" ++ word ∉ rawReserved := by
  refine ⟨fun hw hmem => not_isWritable_of_mem hmem hw, fun hnot => ?_⟩
  obtain ⟨hascii, hbar⟩ := isPlain_iff.mp h
  refine .raw hascii ?_
  rw [List.mem_cons, not_or]
  exact ⟨hbar, fun hword => hnot (mem_rawReserved_iff.mpr ⟨word, hword, rfl⟩)⟩

theorem IsWord.isPlain {s : String} (h : IsWord s) : isPlain s = true := by
  have hall : ∀ word ∈ strictWords ++ futureWords, Name.isPlain word = true := by decide +kernel
  exact hall s h

theorem IsFieldIdent.isWritable {s : String} (h : IsFieldIdent s) : IsWritable s := by
  cases h with
  | plain hascii hbar hword => exact .plain hascii hbar hword
  | @raw word hword hreserved =>
    refine (isWritable_raw_iff hword.isPlain).mpr fun hmem => ?_
    obtain ⟨word', hword', heq⟩ := mem_rawReserved_iff.mp hmem
    rw [String.append_right_inj] at heq
    exact hreserved (heq ▸ hword')

end Name

namespace Emit

open Name

/-! ## Identifiers -/

theorem rawRest?_toList {s : String} {cs : List Char} :
    rawRest? s.toList = some cs ↔ s = "r#" ++ String.ofList cs := by
  have hraw : s = "r#" ++ String.ofList cs ↔ s.toList = 'r' :: '#' :: cs := by
    rw [← String.toList_inj, String.toList_append, String.toList_ofList (l := cs)]
    rfl
  rw [hraw]
  unfold rawRest?
  split
  · rename_i rest hrest
    rw [hrest, Option.some.injEq, List.cons.injEq, List.cons.injEq]
    exact ⟨fun h => ⟨rfl, rfl, h⟩, fun h => h.2.2⟩
  · rename_i hne
    exact iff_of_false (by simp) (hne cs)

/-- What is left of an identifier without the mark of a raw one is an identifier. -/
theorem isIdent_eq (s : String) :
    isIdent s = isPlain (String.ofList ((rawRest? s.toList).getD s.toList)) := by
  rw [Bool.eq_iff_iff, isPlain_iff, IsAsciiIdent, isIdent, String.toList_ofList]
  generalize (rawRest? s.toList).getD s.toList = cs
  cases cs with
  | nil => simp
  | cons c rest =>
    have hbar : String.ofList (c :: rest) = "_" ↔ c :: rest = ['_'] := by
      rw [← String.toList_inj, String.toList_ofList]
      rfl
    simp only [isStart, isPart, Bool.and_eq_true, Bool.or_eq_true, beq_iff_eq, bne_iff_ne,
      List.all_eq_true, List.cons.injEq, ne_eq, hbar]
    constructor
    · rintro ⟨⟨hc, hne⟩, hrest⟩
      exact ⟨⟨c, rest, ⟨rfl, rfl⟩, hc, hrest⟩, hne⟩
    · rintro ⟨⟨_, _, ⟨rfl, rfl⟩, hc, hrest⟩, hne⟩
      exact ⟨⟨hc, hne⟩, hrest⟩

theorem isIdent_cases {s : String} (h : isIdent s = true) :
    isPlain s = true ∨ ∃ word, s = "r#" ++ word ∧ isPlain word = true := by
  rw [isIdent_eq] at h
  cases hraw : rawRest? s.toList with
  | none =>
    rw [hraw, Option.getD_none, String.ofList_toList] at h
    exact .inl h
  | some cs =>
    rw [hraw, Option.getD_some] at h
    exact .inr ⟨_, rawRest?_toList.mp hraw, h⟩

theorem not_isWord_raw (word : String) : ¬ IsWord ("r#" ++ word) :=
  fun h => (isPlain_iff.mp h.isPlain).1.ne_raw word rfl

/-- The name of the module that is generated can be written unless it is a raw reserved word. -/
theorem isWritable_fieldIdent_iff {s : String} (h : isIdent s = true) :
    IsWritable (fieldIdent s) ↔ fieldIdent s ∉ rawReserved := by
  rcases isIdent_cases h with hplain | ⟨word, rfl, hword⟩
  · have hw := (isFieldIdent_fieldIdent hplain).isWritable
    exact iff_of_true hw fun hmem => not_isWritable_of_mem hmem hw
  · rw [fieldIdent_of_not_isWord (not_isWord_raw word)]
    exact isWritable_raw_iff hword

/-- A segment that passes can be written unless it is a raw reserved word. -/
theorem isWritable_segment_iff {s : String} (h : isIdent s = true) (hk : isKeyword s = false) :
    IsWritable s ↔ s ∉ rawReserved := by
  rcases isIdent_cases h with hplain | ⟨word, rfl, hword⟩
  · obtain ⟨hascii, hbar⟩ := isPlain_iff.mp hplain
    have hw : IsWritable s := .plain hascii hbar fun hword => by
      rw [isKeyword_iff.mpr hword] at hk
      cases hk
    exact iff_of_true hw fun hmem => not_isWritable_of_mem hmem hw
  · exact isWritable_raw_iff hword

/-! ## Paths -/

/-- The segments of a path that can stand in front of the names of a `use`: `crate` and `self` are
the first, `super` is the first or follows only `self` and `super`, and all others are legal. -/
structure IsUsePrefix (legal : String → Prop) (segments : List String) : Prop where
  ne_nil : segments ≠ []
  first : ∀ word ∈ ["crate", "self"], ∀ before after, segments = before ++ word :: after →
    before = []
  leading : ∀ before after, segments = before ++ "super" :: after →
    ∀ s ∈ before, s = "self" ∨ s = "super"
  others : ∀ s ∈ segments, s ∉ ["crate", "self", "super"] → legal s

theorem splitPath_ne_nil (segment cs : List Char) : splitPath segment cs ≠ [] := by
  fun_induction splitPath segment cs with
  | case1 => exact List.cons_ne_nil _ _
  | case2 segment c rest hne ih => exact ih
  | case3 => exact List.cons_ne_nil _ _

theorem intercalate_splitPath (segment cs : List Char) :
    "::".intercalate (splitPath segment cs) = String.ofList (segment.reverse ++ cs) := by
  fun_induction splitPath segment cs with
  | case1 segment rest ih =>
    rw [String.intercalate_cons_of_ne_nil (splitPath_ne_nil _ _), ih, ← String.toList_inj]
    simp
  | case2 segment c rest hne ih => rw [ih, List.reverse_cons, List.append_assoc]; rfl
  | case3 segment => rw [String.intercalate_singleton, List.append_nil]

/-- What the check of the segments from here on ensures, where `first` holds of the first of all
and `leading` while only `self` and `super` came before. -/
theorem segments_of_isUsePath {first leading : Bool} {segments : List String}
    (h : isUsePath first leading segments = true) :
    (∀ word ∈ ["crate", "self"], ∀ before after, segments = before ++ word :: after →
      before = [] ∧ first = true) ∧
    (∀ before after, segments = before ++ "super" :: after →
      leading = true ∧ ∀ s ∈ before, s = "self" ∨ s = "super") ∧
    ∀ s ∈ segments, s ∉ ["crate", "self", "super"] → isIdent s = true ∧ isKeyword s = false := by
  induction segments generalizing first leading with
  | nil => simp
  | cons segment rest ih =>
    rw [isUsePath, Bool.and_eq_true] at h
    obtain ⟨hsegment, hrest⟩ := h
    obtain ⟨hfirst, hleading, hothers⟩ := ih hrest
    refine ⟨fun word hword before after heq => ?_, fun before after heq => ?_, ?_⟩
    · cases before with
      | nil =>
        obtain ⟨rfl, -⟩ := List.cons.inj heq
        have hlead : segment = "crate" ∨ segment = "self" := by simpa using hword
        rw [if_pos (by simpa using hlead)] at hsegment
        exact ⟨rfl, hsegment⟩
      -- Behind the first segment `first` is false, so neither word is left there.
      | cons s before => cases (hfirst word hword before after (List.cons.inj heq).2).2
    · cases before with
      | nil =>
        obtain ⟨rfl, -⟩ := List.cons.inj heq
        rw [if_neg (by decide), if_pos rfl] at hsegment
        exact ⟨hsegment, by simp⟩
      | cons s before =>
        obtain ⟨rfl, htail⟩ := List.cons.inj heq
        obtain ⟨hlead, hbefore⟩ := hleading before after htail
        rw [Bool.and_eq_true, Bool.or_eq_true, decide_eq_true_iff, decide_eq_true_iff] at hlead
        exact ⟨hlead.1, List.forall_mem_cons.mpr ⟨hlead.2, hbefore⟩⟩
    · refine List.forall_mem_cons.mpr ⟨fun hword => ?_, hothers⟩
      simp only [List.mem_cons, List.not_mem_nil, or_false, not_or] at hword
      rw [if_neg (by simpa using ⟨hword.1, hword.2.1⟩), if_neg hword.2.2, Bool.and_eq_true,
        Bool.not_eq_true'] at hsegment
      exact hsegment

/-- A runtime path that passes is a legal path but for raw reserved words. -/
theorem exists_segments_of_isRuntimePath {path : String} (h : isRuntimePath path = true) :
    ∃ segments, path = "::".intercalate segments ∧
      IsUsePrefix (fun s => IsWritable s ↔ s ∉ rawReserved) segments := by
  obtain ⟨hfirst, hleading, hothers⟩ := segments_of_isUsePath h
  refine ⟨splitPath [] path.toList, ?_, splitPath_ne_nil _ _, fun word hword before after heq => ?_,
    fun before after heq => ?_, fun s hs hword => ?_⟩
  · rw [intercalate_splitPath, List.reverse_nil, List.nil_append, String.ofList_toList]
  · exact (hfirst word hword before after heq).1
  · exact (hleading before after heq).2
  · obtain ⟨hident, hkeyword⟩ := hothers s hs hword
    exact isWritable_segment_iff hident hkeyword

end Emit

/-- Whenever a module is generated, the name in the line that opens it and the path of its runtime
are legal, but for segments and names that are raw reserved words. -/
theorem generated_paths_writable_iff {s : Resolved} {c : Emit.Config} {text : String}
    (generated : (Emit.generate s c).result = .ok text) :
    ∃ name inside segments, name = Name.fieldIdent (Emit.moduleName s c) ∧
      text = Text.unlines (Emit.banner c ++
        ["#[allow(dead_code, unused_imports, clippy::all)]", Text.opened ("pub mod " ++ name)] ++
        inside ++ [Text.closing]) ∧
      (Name.IsWritable name ↔ name ∉ Name.rawReserved) ∧
      c.runtimePath = "::".intercalate segments ∧
      Emit.IsUsePrefix (fun segment => Name.IsWritable segment ↔ segment ∉ Name.rawReserved)
        segments := by
  obtain ⟨hrefusal, hcode⟩ := Emit.generate_eq_ok generated
  obtain ⟨inside, -, houtput⟩ := Emit.exists_inside s c
  obtain ⟨segments, hpath, hsegments⟩ :=
    Emit.exists_segments_of_isRuntimePath (Emit.isRuntimePath_of_refusal hrefusal)
  exact ⟨_, inside, segments, rfl, hcode.trans (houtput _),
    Emit.isWritable_fieldIdent_iff (Emit.isIdent_of_refusal hrefusal), hpath, hsegments⟩

namespace Sample

/-- A module named by a keyword that is made raw, and a runtime that is looked for further out. -/
def rawConfig : Emit.Config where
  moduleName := some "r#match"
  runtimePath := "self::super::r#type"

/-- A name and a path with words that cannot be made raw. -/
def rawSelfConfig : Emit.Config where
  moduleName := some "r#self"
  runtimePath := "super::r#crate"

theorem raw_generated :
    (Emit.generate masksResolved rawConfig).result = .ok (Emit.code masksResolved rawConfig) := by
  have hrefusal : Emit.refusal masksResolved rawConfig = none := by decide +kernel
  rw [Emit.generate_result, hrefusal]

theorem rawSelf_generated :
    (Emit.generate masksResolved rawSelfConfig).result =
      .ok (Emit.code masksResolved rawSelfConfig) := by
  have hrefusal : Emit.refusal masksResolved rawSelfConfig = none := by decide +kernel
  rw [Emit.generate_result, hrefusal]

end Sample

/-- A module may be named `r#match` and take its runtime from `self::super::r#type`. -/
theorem raw_names_writable :
    ∃ text inside segments,
      (Emit.generate Sample.masksResolved Sample.rawConfig).result = .ok text ∧
      text = Text.unlines (Emit.banner Sample.rawConfig ++
        ["#[allow(dead_code, unused_imports, clippy::all)]", Text.opened "pub mod r#match"] ++
        inside ++ [Text.closing]) ∧
      Name.IsWritable "r#match" ∧ "self::super::r#type" = "::".intercalate segments ∧
      Emit.IsUsePrefix (fun segment => Name.IsWritable segment ↔ segment ∉ Name.rawReserved)
        segments := by
  obtain ⟨name, inside, segments, hname, htext, hwritable, hpath, hsegments⟩ :=
    generated_paths_writable_iff Sample.raw_generated
  have hname : name = "r#match" := hname.trans (by decide +kernel)
  subst hname
  exact ⟨_, inside, segments, Sample.raw_generated, htext, hwritable.mpr (by decide), hpath,
    hsegments⟩

/-- A module is generated that is named `r#self`, and one that takes its runtime from
`super::r#crate`, although neither word can be a raw identifier. -/
theorem raw_self_generated :
    ∃ text inside,
      (Emit.generate Sample.masksResolved Sample.rawSelfConfig).result = .ok text ∧
      text = Text.unlines (Emit.banner Sample.rawSelfConfig ++
        ["#[allow(dead_code, unused_imports, clippy::all)]", Text.opened "pub mod r#self"] ++
        inside ++ [Text.closing]) ∧
      ¬ Name.IsWritable "r#self" ∧
      Sample.rawSelfConfig.runtimePath = "::".intercalate ["super", "r#crate"] ∧
      ¬ Emit.IsUsePrefix Name.IsWritable ["super", "r#crate"] := by
  obtain ⟨inside, -, houtput⟩ := Emit.exists_inside Sample.masksResolved Sample.rawSelfConfig
  have hname : Name.fieldIdent (Emit.moduleName Sample.masksResolved Sample.rawSelfConfig) =
      "r#self" := by
    decide +kernel
  refine ⟨_, inside, Sample.rawSelf_generated, ?_, Name.not_isWritable_of_mem (by decide),
    by decide, fun h => ?_⟩
  · rw [Emit.code, hname]
    exact houtput "r#self"
  · exact Name.not_isWritable_of_mem (by decide) (h.others "r#crate" (by decide) (by decide))

end RecordWire
