import RecordWire.Proofs.Kinds

/-!
How the type of a field is spelled.  Blanks around a type make no difference to what it is, nor do
blanks around the element of a sequence or the choice between the two ways to write one.  However a
type is spelled, the names that are left in its kind are bare ones: trimmed, and neither a sequence
nor a primitive in disguise.
-/

namespace RecordWire

namespace Text

theorem dropBlankEnd_blanks {cs blanks : List Char} (h : ∀ c ∈ blanks, isBlank c = true) :
    dropBlankEnd (cs ++ blanks) = dropBlankEnd cs := by
  have h' : ∀ c ∈ blanks.reverse, isBlank c = true := fun c hc => h c (List.mem_reverse.mp hc)
  rw [dropBlankEnd, List.reverse_append, List.dropWhile_append_of_pos h']
  rfl

/-- Blanks on either side of a text are cut off, and nothing else of it. -/
theorem trim_padded {before after : String} (hb : allBlank before = true)
    (ha : allBlank after = true) (s : String) : trim (before ++ s ++ after) = trim s := by
  have hb' : ∀ c ∈ before.toList, isBlank c = true := List.all_eq_true.mp hb
  have ha' : ∀ c ∈ after.toList, isBlank c = true := List.all_eq_true.mp ha
  have hend : dropBlankEnd (dropBlankStart (s.toList ++ after.toList)) =
      dropBlankEnd (dropBlankStart s.toList) := by
    rw [dropBlankStart, List.dropWhile_append]
    by_cases hs : (s.toList.dropWhile isBlank).isEmpty = true
    · rw [if_pos hs, List.dropWhile_eq_nil_iff.mpr ha', dropBlankStart, List.isEmpty_iff.mp hs]
    · rw [if_neg hs]
      exact dropBlankEnd_blanks ha'
  have hstart : dropBlankStart (before.toList ++ (s.toList ++ after.toList)) =
      dropBlankStart (s.toList ++ after.toList) :=
    List.dropWhile_append_of_pos hb'
  rw [trim, String.toList_append, String.toList_append, List.append_assoc, hstart, hend]
  rfl

/-- A text that has a character at either end that is not blank stays as it is. -/
theorem trim_of_ends {s : String} {c d : Char} {cs ds : List Char} (hc : isBlank c = false)
    (hd : isBlank d = false) (hstart : s.toList = c :: cs) (hend : s.toList = ds ++ [d]) :
    trim s = s := by
  have hs : dropBlankStart s.toList = s.toList := by
    rw [hstart]
    exact List.dropWhile_cons_of_neg (by simp [hc])
  have he : dropBlankEnd s.toList = s.toList := by
    rw [hend, dropBlankEnd_eq]
    exact List.rdropWhile_concat_neg _ _ _ (by simp [hd])
  rw [trim, hs, he, String.ofList_toList]

end Text

/-! ## Sequences -/

theorem between?_eq_some_iff {opening cs inner : List Char} {closing : Char} :
    between? opening closing cs = some inner ↔ cs = opening ++ inner ++ [closing] := by
  constructor
  · intro h
    rw [between?] at h
    by_cases hp : opening.isPrefixOf cs = true
    · rw [if_pos hp] at h
      have hcs := List.prefix_iff_eq_append.mp (List.isPrefixOf_iff_prefix.mp hp)
      cases hr : (cs.drop opening.length).reverse with
      | nil =>
        rw [hr] at h
        cases h
      | cons c rest =>
        rw [hr] at h
        dsimp only at h
        by_cases hc : c = closing
        · rw [if_pos hc] at h
          cases h
          rw [List.reverse_eq_cons_iff.mp hr, hc] at hcs
          rw [← hcs, List.append_assoc]
        · rw [if_neg hc] at h
          cases h
    · rw [if_neg hp] at h
      cases h
  · rintro rfl
    have hp : opening.isPrefixOf (opening ++ inner ++ [closing]) = true := by
      rw [List.isPrefixOf_iff_prefix, List.append_assoc]
      exact List.prefix_append ..
    have hr : ((opening ++ inner ++ [closing]).drop opening.length).reverse =
        closing :: inner.reverse := by
      rw [List.append_assoc, List.drop_left, List.reverse_append, List.reverse_singleton,
        List.singleton_append]
    rw [between?, if_pos hp, hr]
    dsimp only
    rw [if_pos rfl, List.reverse_reverse]

/-- A type is in sequence syntax if it starts with an opening and ends with a bracket once it is
trimmed, and its element is what stands between the two, trimmed. -/
theorem sequenceElement?_eq_some_iff {typeName inner : String} :
    sequenceElement? typeName = some inner ↔ ∃ opening ∈ sequenceOpenings, ∃ content,
      Text.trim typeName = opening ++ content ++ ">" ∧ Text.trim content = inner := by
  have hbetween : ∀ {opening : String} {cs : List Char},
      between? opening.toList '>' (Text.trim typeName).toList = some cs ↔
        Text.trim typeName = opening ++ String.ofList cs ++ ">" := by
    intro opening cs
    rw [between?_eq_some_iff, ← String.toList_inj, String.toList_append, String.toList_append,
      String.toList_ofList]
    rfl
  constructor
  · intro h
    rw [sequenceElement?, List.findSome?_eq_some_iff] at h
    obtain ⟨before, opening, after, hopenings, h, -⟩ := h
    obtain ⟨cs, hcs, rfl⟩ := Option.map_eq_some_iff.mp h
    refine ⟨opening, ?_, String.ofList cs, hbetween.mp hcs, rfl⟩
    rw [hopenings]
    simp
  · rintro ⟨opening, hopening, content, htrim, rfl⟩
    have hcs : between? opening.toList '>' (Text.trim typeName).toList = some content.toList := by
      rw [hbetween, htrim, String.ofList_toList]
    simp only [sequenceOpenings, List.mem_cons, List.not_mem_nil, or_false] at hopening
    rw [sequenceElement?, sequenceOpenings, List.findSome?_cons]
    rcases hopening with rfl | rfl
    · rw [hcs, Option.map_some, String.ofList_toList]
    · -- The two openings have different first characters.
      have hother : between? "sequence<".toList '>' (Text.trim typeName).toList = none := by
        rw [Option.eq_none_iff_forall_ne_some]
        intro cs hs
        have heq := (hbetween.mp hs).symm.trans htrim
        rw [← String.toList_inj] at heq
        simp at heq
      rw [hother, List.findSome?_cons, hcs, Option.map_none, Option.map_some, String.ofList_toList]

/-- `typeName` is one of the ways to write the type of the sequences of `element`, with blanks
wherever they may stand. -/
def SpellsSequence (element typeName : String) : Prop :=
  ∃ before left right after,
    Text.allBlank before = true ∧ Text.allBlank left = true ∧
    Text.allBlank right = true ∧ Text.allBlank after = true ∧
    ∃ opening ∈ sequenceOpenings,
      typeName = before ++ (opening ++ (left ++ element ++ right) ++ ">") ++ after

theorem trim_bracketed {opening : String} (h : opening ∈ sequenceOpenings) (content : String) :
    Text.trim (opening ++ content ++ ">") = opening ++ content ++ ">" := by
  have hend : (opening ++ content ++ ">").toList = (opening ++ content).toList ++ ['>'] :=
    String.toList_append
  have hstart : ∃ c cs, Text.isBlank c = false ∧ opening.toList = c :: cs := by
    simp only [sequenceOpenings, List.mem_cons, List.not_mem_nil, or_false] at h
    rcases h with rfl | rfl
    · exact ⟨'s', "equence<".toList, by decide, rfl⟩
    · exact ⟨'Q', "Vector<".toList, by decide, rfl⟩
  obtain ⟨c, cs, hc, hcs⟩ := hstart
  have hcons : (opening ++ content ++ ">").toList = c :: (cs ++ (content ++ ">").toList) := by
    rw [String.append_assoc, String.toList_append, hcs, List.cons_append]
  exact Text.trim_of_ends hc (by decide) hcons hend

theorem SpellsSequence.sequenceElement?_eq {element typeName : String}
    (h : SpellsSequence element typeName) :
    sequenceElement? typeName = some (Text.trim element) := by
  obtain ⟨before, left, right, after, hb, hl, hr, ha, opening, hopening, rfl⟩ := h
  rw [sequenceElement?_eq_some_iff]
  refine ⟨opening, hopening, left ++ element ++ right, ?_, Text.trim_padded hl hr element⟩
  rw [Text.trim_padded hb ha, trim_bracketed hopening]

/-! ## Kinds -/

/-- A name that is neither a sequence nor a primitive, and that no blanks surround. -/
structure IsBareName (name : String) : Prop where
  trimmed : Text.trim name = name
  not_sequence : sequenceElement? name = none
  not_primitive : Primitive.ofName? name = none

/-- Nothing is left to read off the names in a kind, and its length is the declared one. -/
structure FieldKind.Flat (kind : FieldKind) (records : List String) (length : Option Nat) :
    Prop where
  record : ∀ name, kind.recordName? = some name → IsBareName name ∧ name ∈ records
  foreign : ∀ name, kind.foreignName? = some name → IsBareName name ∧ name ∉ records
  array : ∀ e n, kind = .array e n → length = some n ∧ 0 < n

namespace FieldDef

variable {field : FieldDef} {records : List String} {record : String} {kind : FieldKind}

theorem Admissible.sequenceElement?_elementName (h : field.Admissible) :
    sequenceElement? field.elementName = none := by
  rw [elementName]
  cases hs : sequenceElement? field.typeName with
  | none => rw [Option.getD_none, sequenceElement?_trim, hs]
  | some inner => exact h.not_nested inner hs

theorem length_of_kind {e : Element} {n : Nat}
    (h : field.kind records record = .ok (.array e n)) : field.length = some n ∧ 0 < n := by
  have hne : field.length ≠ some 0 := (admissible_of_kind h).length_ne
  rw [kind] at h
  split at h
  · cases h
  · cases h
  · rename_i hl _
    simp only [Except.ok.injEq, FieldKind.array.injEq] at h
    obtain ⟨-, rfl⟩ := h
    exact ⟨hl, Nat.pos_of_ne_zero fun h0 => hne (h0 ▸ hl)⟩
  · split at h <;> cases h
  · cases h

theorem flat_of_kind (h : field.kind records record = .ok kind) :
    kind.Flat records field.length := by
  have hbare : Primitive.ofName? field.elementName = none → IsBareName field.elementName :=
    fun hp => ⟨field.trim_elementName, (admissible_of_kind h).sequenceElement?_elementName, hp⟩
  refine ⟨?_, ?_, ?_⟩
  · intro name hname
    obtain ⟨rfl, hp, hmem⟩ := (recordName?_of_kind h).mp hname
    exact ⟨hbare hp, hmem⟩
  · intro name hname
    obtain ⟨rfl, hp, hmem⟩ := (foreignName?_of_kind h).mp hname
    exact ⟨hbare hp, hmem⟩
  · rintro e n rfl
    exact length_of_kind h

/-- What the spelling of a sequence leaves to decide is whether its element is a sequence again. -/
theorem kind_of_spellsSequence {element : String} (hl : field.length = none)
    (hs : SpellsSequence element field.typeName) :
    field.kind records record =
      if (sequenceElement? element).isSome then
        .error (.unsupportedElement record field.name (Text.trim field.typeName))
      else
        .ok (.sequence (.ofName records element)) := by
  have hname : Element.ofName records (Text.trim element) = .ofName records element := by
    rw [Element.ofName, Element.ofName, Text.trim_trim]
  rw [kind]
  simp only [sequenceElement?_trim, hl, hs.sequenceElement?_eq, hname]

end FieldDef

/-- The names in a kind are bare, and a sequence has the same kind under all its spellings, or is
refused under all of them because its element is a sequence. -/
theorem kind_flat_under_every_spelling (records : List String) (record : String) :
    (∀ (field : FieldDef) (kind : FieldKind), field.kind records record = .ok kind →
      kind.Flat records field.length) ∧
    ∀ element : String,
      (sequenceElement? element = none ∧ ∀ field : FieldDef, field.length = none →
        SpellsSequence element field.typeName →
        field.kind records record = .ok (.sequence (.ofName records element))) ∨
      ((sequenceElement? element).isSome = true ∧ ∀ field : FieldDef, field.length = none →
        SpellsSequence element field.typeName →
        field.kind records record =
          .error (.unsupportedElement record field.name (Text.trim field.typeName))) := by
  refine ⟨fun field kind h => FieldDef.flat_of_kind h, fun element => ?_⟩
  cases hn : sequenceElement? element with
  | none =>
    refine .inl ⟨rfl, fun field hl hs => ?_⟩
    rw [FieldDef.kind_of_spellsSequence hl hs, hn]
    rfl
  | some inner =>
    refine .inr ⟨rfl, fun field hl hs => ?_⟩
    rw [FieldDef.kind_of_spellsSequence hl hs, hn]
    rfl

/-- A record under two spellings, each with blanks of its own, and a sequence of it. -/
theorem kind_of_spelled_fix :
    (∀ typeName ∈ ["sequence<Fix>", "\u3000QVector<\u00a0Fix\t>\n"],
      FieldDef.kind ⟨"items", typeName, none, none⟩ ["Fix"] "Log" =
        .ok (.sequence (.record "Fix"))) ∧
    FieldDef.kind ⟨"items", "QVector< sequence<Fix>>", none, none⟩ ["Fix"] "Log" =
      .error (.unsupportedElement "Log" "items" "QVector< sequence<Fix>>") ∧
    FieldKind.Flat (.sequence (.record "Fix")) ["Fix"] none := by
  obtain ⟨hflat, hspell⟩ := kind_flat_under_every_spelling ["Fix"] "Log"
  have hplain : SpellsSequence "Fix" "sequence<Fix>" :=
    ⟨"", "", "", "", rfl, rfl, rfl, rfl, "sequence<", by decide, by decide +kernel⟩
  have hpadded : SpellsSequence "Fix" "\u3000QVector<\u00a0Fix\t>\n" :=
    ⟨"\u3000", "\u00a0", "\t", "\n", by decide, by decide, by decide, by decide, "QVector<",
      by decide, by decide +kernel⟩
  have hnested : SpellsSequence "sequence<Fix>" "QVector< sequence<Fix>>" :=
    ⟨"", " ", "", "", rfl, by decide, rfl, rfl, "QVector<", by decide, by decide +kernel⟩
  have hfix : sequenceElement? "Fix" = none := by decide +kernel
  have hname : Element.ofName ["Fix"] "Fix" = .record "Fix" := by decide +kernel
  have htrim : Text.trim "QVector< sequence<Fix>>" = "QVector< sequence<Fix>>" := by
    decide +kernel
  have hitems : ∀ typeName, SpellsSequence "Fix" typeName →
      FieldDef.kind ⟨"items", typeName, none, none⟩ ["Fix"] "Log" =
        .ok (.sequence (.record "Fix")) := by
    intro typeName hs
    rcases hspell "Fix" with ⟨-, hok⟩ | ⟨hsome, -⟩
    · rw [hok _ rfl hs, hname]
    · rw [hfix] at hsome
      cases hsome
  refine ⟨?_, ?_, hflat _ _ (hitems _ hpadded)⟩
  · simpa using ⟨hitems _ hplain, hitems _ hpadded⟩
  · rcases hspell "sequence<Fix>" with ⟨hnone, -⟩ | ⟨-, herror⟩
    · rw [hplain.sequenceElement?_eq] at hnone
      cases hnone
    · rw [herror _ rfl hnested, htrim]

end RecordWire
