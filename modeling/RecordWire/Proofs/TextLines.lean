import Mathlib.Data.List.Basic
import RecordWire.Text.Lines

/-!
Lines of texts that are put together from lines.  A text made of lines without line feeds has just
these lines.  When a line has line feeds of its own, it becomes several.
-/

namespace RecordWire
namespace Text

/-- The lines of a text as they stand, with what follows the last line feed. -/
def rawLines (text : String) : List String :=
  (text.toList.splitOn '\n').map String.ofList

def OneLine (s : String) : Prop :=
  '\n' ∉ s.toList

instance (s : String) : Decidable (OneLine s) :=
  inferInstanceAs (Decidable ('\n' ∉ s.toList))

/-- For texts that are written out, whose characters are faster to look at than the text. -/
theorem oneLine_ofList {cs : List Char} (h : '\n' ∉ cs) : OneLine (String.ofList cs) := by
  rwa [OneLine, String.toList_ofList]

@[simp] theorem oneLine_append {s t : String} : OneLine (s ++ t) ↔ OneLine s ∧ OneLine t := by
  simp [OneLine, not_or]

@[simp] theorem toList_opened (head : String) :
    (opened head).toList = head.toList ++ [' ', '{'] := by
  rw [opened, String.toList_append, String.toList_ofList]

@[simp] theorem oneLine_opened {head : String} : OneLine (opened head) ↔ OneLine head := by
  simp [OneLine]

@[simp] theorem oneLine_braced {inner : String} : OneLine (braced inner) ↔ OneLine inner := by
  simp [OneLine, braced]

theorem mem_intersperse {α : Type} {sep a : α} {as : List α} (h : a ∈ as.intersperse sep) :
    a = sep ∨ a ∈ as := by
  fun_induction List.intersperse sep as with
  | case1 => exact .inr h
  | case2 b => exact .inr h
  | case3 b bs hne ih =>
    rcases List.mem_cons.mp h with rfl | h
    · exact .inr (List.mem_cons_self ..)
    · rcases List.mem_cons.mp h with rfl | h
      · exact .inl rfl
      · exact (ih h).imp_right (List.mem_cons_of_mem _)

theorem oneLine_intercalate {sep : String} {texts : List String} (hsep : OneLine sep)
    (h : ∀ t ∈ texts, OneLine t) : OneLine (sep.intercalate texts) := by
  rw [OneLine, String.toList_intercalate]
  intro hmem
  obtain ⟨cs, hcs, hc⟩ := List.mem_flatten.mp hmem
  rcases mem_intersperse hcs with rfl | hcs
  · exact hsep hc
  · obtain ⟨t, ht, rfl⟩ := List.mem_map.mp hcs
    exact h t ht hc

theorem oneLine_toString (n : Nat) : OneLine (toString n) := by
  intro hmem
  have hdigit : '\n'.isDigit = true :=
    Nat.isDigit_of_mem_toDigits (b := 10) (n := n) (by decide) (by decide) (Nat.toList_repr ▸ hmem)
  cases hdigit

theorem toList_unlines_cons (l : String) (ls : List String) :
    (unlines (l :: ls)).toList = l.toList ++ '\n' :: (unlines ls).toList := by
  simp [unlines, String.toList_join]

theorem toList_unlines_append (ls ls' : List String) :
    (unlines (ls ++ ls')).toList = (unlines ls).toList ++ (unlines ls').toList := by
  simp [unlines, String.toList_join]

theorem rawLines_unlines {ls : List String} (h : ∀ l ∈ ls, OneLine l) :
    rawLines (unlines ls) = ls ++ [""] := by
  induction ls with
  | nil => rfl
  | cons l ls ih =>
    have hl : '\n' ∉ l.toList := h l (List.mem_cons_self ..)
    have hls := ih fun l hl => h l (List.mem_cons_of_mem _ hl)
    rw [rawLines] at hls ⊢
    rw [toList_unlines_cons, List.splitOn_append_cons_self_of_not_mem hl, List.map_cons, hls,
      String.ofList_toList, List.cons_append]

/-! ## Splitting again -/

theorem splitLines_append (line cs rest : List Char) :
    splitLines line (cs ++ '\n' :: rest) =
      splitLines line (cs ++ ['\n']) ++ splitLines [] rest := by
  induction cs generalizing line with
  | nil => simp [splitLines]
  | cons c cs ih =>
    rw [List.cons_append, List.cons_append, splitLines, splitLines]
    by_cases hc : c = '\n'
    · rw [if_pos hc, if_pos hc, ih, List.cons_append]
    · rw [if_neg hc, if_neg hc, ih]

theorem splitLines_append_of_not_mem {cs : List Char} (h : '\n' ∉ cs) (line rest : List Char) :
    splitLines line (cs ++ rest) = splitLines (cs.reverse ++ line) rest := by
  induction cs generalizing line with
  | nil => rfl
  | cons c cs ih =>
    rw [List.mem_cons, not_or] at h
    rw [List.cons_append, splitLines, if_neg (Ne.symm h.1), ih h.2, List.reverse_cons,
      List.append_assoc]
    rfl

/-- The lines that a line becomes. -/
def pieces (l : String) : List String :=
  lines (l ++ "\n")

theorem pieces_eq (l : String) :
    pieces l = (splitLines [] (l.toList ++ ['\n'])).map String.ofList := by
  rw [pieces, lines, String.toList_append]
  rfl

theorem pieces_of_oneLine {l : String} (h : OneLine l) :
    pieces l = [String.ofList (dropReturn l.toList)] := by
  rw [pieces_eq, splitLines_append_of_not_mem h, List.append_nil, splitLines, if_pos rfl,
    List.reverse_reverse]
  rfl

theorem splitLines_unlines_append (ls : List String) (rest : List Char) :
    (splitLines [] ((unlines ls).toList ++ rest)).map String.ofList =
      ls.flatMap pieces ++ (splitLines [] rest).map String.ofList := by
  induction ls with
  | nil => rfl
  | cons l ls ih =>
    rw [toList_unlines_cons, List.append_assoc, List.cons_append, splitLines_append,
      List.map_append, ih, List.flatMap_cons, pieces_eq, List.append_assoc]

/-! ## Lines have no line feed -/

theorem dropReturn_concat (cs : List Char) (c : Char) :
    dropReturn (cs ++ [c]) = if c = '\r' then cs else cs ++ [c] := by
  rw [dropReturn, List.reverse_append, List.reverse_singleton, List.singleton_append]
  split
  · rename_i heq
    obtain ⟨rfl, rfl⟩ := List.cons.inj heq
    rw [if_pos rfl, List.reverse_reverse]
  · rename_i hne
    rw [if_neg fun hc => hne cs.reverse (by rw [hc])]

theorem dropReturn_isPrefix (line : List Char) : dropReturn line <+: line := by
  rcases List.eq_nil_or_concat line with rfl | ⟨cs, c, rfl⟩
  · exact List.prefix_rfl
  · rw [List.concat_eq_append, dropReturn_concat]
    split
    · exact List.prefix_append ..
    · exact List.prefix_rfl

theorem not_mem_of_mem_splitLines {line cs : List Char} (hline : '\n' ∉ line) :
    ∀ l ∈ splitLines line cs, '\n' ∉ l := by
  induction cs generalizing line with
  | nil =>
    rw [splitLines]
    by_cases h : line.isEmpty = true
    · simp [h]
    · simpa [h] using hline
  | cons c cs ih =>
    rw [splitLines]
    by_cases hc : c = '\n'
    · rw [if_pos hc, List.forall_mem_cons]
      refine ⟨fun h => hline ?_, ih List.not_mem_nil⟩
      exact List.mem_reverse.mp ((dropReturn_isPrefix _).subset h)
    · rw [if_neg hc]
      exact ih (List.not_mem_cons_of_ne_of_not_mem (Ne.symm hc) hline)

theorem oneLine_of_mem_lines {s l : String} (h : l ∈ lines s) : OneLine l := by
  obtain ⟨cs, hcs, rfl⟩ := List.mem_map.mp h
  rw [OneLine, String.toList_ofList]
  exact not_mem_of_mem_splitLines List.not_mem_nil cs hcs

/-! ## Trimming -/

/-- The line ends in a character that is seen. -/
def Closed (l : String) : Prop :=
  ∃ cs c, l.toList = cs ++ [c] ∧ isBlank c = false

theorem dropReturn_of_closed {l : String} (h : Closed l) : dropReturn l.toList = l.toList := by
  obtain ⟨cs, c, hl, hc⟩ := h
  rw [hl, dropReturn_concat, if_neg]
  rintro rfl
  exact absurd hc (by decide)

theorem dropBlankEnd_append {cs blanks : List Char} {c : Char} (hc : isBlank c = false)
    (hb : ∀ b ∈ blanks, isBlank b = true) : dropBlankEnd (cs ++ [c] ++ blanks) = cs ++ [c] := by
  rw [dropBlankEnd, List.reverse_append, List.dropWhile_append_of_pos
    (fun b hb' => hb b (List.mem_reverse.mp hb')), List.reverse_append, List.reverse_singleton,
    List.singleton_append, List.dropWhile_cons_of_neg (by simp [hc]), List.reverse_cons,
    List.reverse_reverse]

theorem oneLine_trimEnd {s : String} (h : OneLine s) : OneLine (trimEnd s) := by
  rw [OneLine, trimEnd, String.toList_ofList, dropBlankEnd, List.mem_reverse]
  exact fun hmem => h (List.mem_reverse.mp ((List.dropWhile_sublist _).subset hmem))

/-- A text whose last line is empty loses it, and nothing else, when its end is trimmed. -/
theorem lines_trimEnd_unlines {ls : List String} {last : String} (hone : OneLine last)
    (hlast : Closed last) :
    lines (trimEnd (unlines (ls ++ [last, ""]))) = (ls ++ [last]).flatMap pieces := by
  have htrim : (trimEnd (unlines (ls ++ [last, ""]))).toList =
      (unlines ls).toList ++ last.toList := by
    obtain ⟨cs, c, hl, hc⟩ := hlast
    have htext : (unlines (ls ++ [last, ""])).toList =
        ((unlines ls).toList ++ cs) ++ [c] ++ ['\n', '\n'] := by
      rw [toList_unlines_append, toList_unlines_cons, hl]
      simp [unlines]
    have hfeeds : ∀ b ∈ ['\n', '\n'], isBlank b = true :=
      List.forall_mem_cons.mpr ⟨by decide, List.forall_mem_singleton.mpr (by decide)⟩
    rw [trimEnd, String.toList_ofList, htext, dropBlankEnd_append hc hfeeds, hl, List.append_assoc]
  have hne : last.toList ≠ [] := by
    obtain ⟨cs, c, hl, -⟩ := hlast
    simp [hl]
  have hsplit : splitLines [] last.toList = [last.toList] := by
    have h := splitLines_append_of_not_mem hone [] []
    rw [List.append_nil] at h
    rw [h, splitLines, if_neg (by simpa using hne), List.append_nil, List.reverse_reverse]
  rw [lines, htrim, splitLines_unlines_append, hsplit, List.flatMap_append, List.flatMap_singleton,
    pieces_of_oneLine hone, dropReturn_of_closed hlast]
  rfl

end Text
end RecordWire
