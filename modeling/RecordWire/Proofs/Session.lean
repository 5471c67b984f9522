import Mathlib.Data.List.Basic
import RecordWire.Proofs.Host
import RecordWire.Session

/-!
The machine in memory keeps its word.  Files matter to a path only at its end, so a new file moves
no other path.
-/

namespace RecordWire

namespace FileStore

variable {s s' : FileStore} {path other : String} {place : List String} {content : ByteArray}

/-- The path names a file, or a place where a file can be put. -/
def LeadsTo (s : FileStore) (path : String) (place : List String) : Prop :=
  ∃ location name, s.locate path = .ok (location, some name) ∧ location ++ [name] = place ∧
    place ∉ s.directories ∧ (Path.ofText path).trailingSlash = false

/-- Two ways to write the path of one file. -/
def SameFile (s : FileStore) (path other : String) : Prop :=
  ∃ place, s.LeadsTo path place ∧ s.LeadsTo other place

theorem read_eq_ok_iff :
    s.read path = .ok content ↔
      ∃ place, s.LeadsTo path place ∧ s.files.lookup place = some content := by
  constructor
  · intro h
    unfold read at h
    split at h
    · cases h
    · cases h
    · rename_i location name hlocate
      dsimp only at h
      split at h
      · cases h
      · rename_i hdirectory
        split at h
        · rename_i found hfound
          split at h
          · cases h
          · rename_i hslash
            cases h
            exact ⟨_, ⟨location, name, hlocate, rfl, by simpa using hdirectory,
              by simpa using hslash⟩, hfound⟩
        · cases h
  · rintro ⟨_, ⟨location, name, hlocate, rfl, hdirectory, hslash⟩, hfound⟩
    simp [read, hlocate, hdirectory, hslash, hfound]

theorem write_eq_ok_iff :
    s.write path content = .ok s' ↔
      ∃ place, s.LeadsTo path place ∧ s.setFile place content = s' := by
  constructor
  · intro h
    unfold write at h
    split at h
    · cases h
    · cases h
    · rename_i location name hlocate
      dsimp only at h
      split at h
      · cases h
      · rename_i hfree
        cases h
        simp only [Bool.or_eq_true, List.contains_iff_mem, not_or] at hfree
        exact ⟨_, ⟨location, name, hlocate, rfl, hfree.2, by simpa using hfree.1⟩, rfl⟩
  · rintro ⟨_, ⟨location, name, hlocate, rfl, hdirectory, hslash⟩, rfl⟩
    simp [write, hlocate, hdirectory, hslash]

theorem lookup_filter_ne {p : List String} (hp : p ≠ place)
    (files : List (List String × ByteArray)) :
    (files.filter (·.1 ≠ place)).lookup p = files.lookup p := by
  induction files with
  | nil => rfl
  | cons file files ih =>
    obtain ⟨q, old⟩ := file
    rw [List.filter_cons]
    by_cases hq : q = place
    · subst hq
      simpa [List.lookup_cons, beq_false_of_ne hp] using ih
    · rw [if_pos (by simpa using hq), List.lookup_cons, List.lookup_cons, ih]

theorem lookup_setFile (p : List String) :
    (s.setFile place content).files.lookup p =
      if p = place then some content else s.files.lookup p := by
  show ((place, content) :: s.files.filter (·.1 ≠ place)).lookup p = _
  rw [List.lookup_cons]
  by_cases hp : p = place
  · simp [hp]
  · rw [beq_false_of_ne hp, if_neg hp]
    exact lookup_filter_ne hp s.files

/-! ## Walks -/

section Walks

variable {location next last : List String} {component : String} {components : List String}

/-- Files tell only how a step fails. -/
theorem enter_eq_ok_iff :
    s.enter location component = .ok next ↔
      if component = "." then next = location
      else if component = ".." then next = location.dropLast
      else component.utf8ByteSize ≤ 255 ∧ next = location ++ [component] ∧
        next ∈ s.directories := by
  rw [enter]
  split
  · rw [Except.ok.injEq, eq_comm]
  split
  · rw [Except.ok.injEq, eq_comm]
  split
  · rename_i hlong
    simp [Nat.not_le.mpr hlong]
  rename_i hlong
  dsimp only
  split
  · rename_i hdirectory
    rw [List.contains_iff_mem] at hdirectory
    grind
  · rename_i hdirectory
    rw [List.contains_iff_mem] at hdirectory
    split <;> grind

theorem walk_cons_eq_ok_iff :
    s.walk location (component :: components) = .ok last ↔
      ∃ next, s.enter location component = .ok next ∧ s.walk next components = .ok last := by
  rw [walk]
  cases s.enter location component <;> simp

theorem walk_setFile_eq_ok_iff :
    (s.setFile place content).walk location components = .ok last ↔
      s.walk location components = .ok last := by
  induction components generalizing location with
  | nil => exact Iff.rfl
  | cons component rest ih =>
    have henter (next : List String) : (s.setFile place content).enter location component =
        .ok next ↔ s.enter location component = .ok next := by
      rw [enter_eq_ok_iff, enter_eq_ok_iff]
      exact Iff.rfl
    simp only [walk_cons_eq_ok_iff, henter, ih]

end Walks

theorem locate_setFile_eq_ok_iff {found : List String × Option String} :
    (s.setFile place content).locate path = .ok found ↔ s.locate path = .ok found := by
  unfold locate
  dsimp only
  split
  · exact Iff.rfl
  split
  · exact Iff.rfl
  split
  · exact Iff.rfl
  have hwalk (last : List String) :
      (s.setFile place content).walk
          (if (Path.ofText path).absolute then [] else (s.setFile place content).base)
          (Path.ofText path).components.dropLast = .ok last ↔
        s.walk (if (Path.ofText path).absolute then [] else s.base)
          (Path.ofText path).components.dropLast = .ok last := walk_setFile_eq_ok_iff
  cases hold : s.walk (if (Path.ofText path).absolute then [] else s.base)
      (Path.ofText path).components.dropLast with
  | ok location => rw [(hwalk location).mpr hold]
  | error e =>
    split
    · simp
    · rename_i location hnew
      rw [hold] at hwalk
      cases (hwalk location).mp hnew

theorem leadsTo_setFile_iff {place' : List String} :
    (s.setFile place content).LeadsTo path place' ↔ s.LeadsTo path place' := by
  simp only [LeadsTo, locate_setFile_eq_ok_iff]
  exact Iff.rfl

theorem read_write (h : s.write path content = .ok s') : s'.read path = .ok content := by
  obtain ⟨place, hpath, rfl⟩ := write_eq_ok_iff.mp h
  refine read_eq_ok_iff.mpr ⟨place, leadsTo_setFile_iff.mpr hpath, ?_⟩
  rw [lookup_setFile, if_pos rfl]

theorem read_write_of_not_sameFile {kept : ByteArray} (h : s.write path content = .ok s')
    (hother : ¬ s.SameFile path other) : s'.read other = .ok kept ↔ s.read other = .ok kept := by
  obtain ⟨place, hpath, rfl⟩ := write_eq_ok_iff.mp h
  simp only [read_eq_ok_iff, leadsTo_setFile_iff]
  refine exists_congr fun place' => and_congr_right fun hpath' => ?_
  have hne : place' ≠ place := by
    rintro rfl
    exact hother ⟨place', hpath, hpath'⟩
  rw [lookup_setFile, if_neg hne]

end FileStore

theorem toOption_eq_some_iff {ε α : Type} {x : Except ε α} {a : α} :
    x.toOption = some a ↔ x = .ok a := by
  cases x <;> simp [Except.toOption]

namespace Session

/-- A file holds what can be read from it. -/
def view : View Session where
  printed := Session.printed
  content s path := (s.store.read path).toOption
  Detached _ := True
  SameFile s := s.store.SameFile
  Heard s := s.messages.isSome

variable {path : String} {bytes : ByteArray} {s : Session}

theorem run_write :
    (host.write path bytes).run s = match s.store.write path bytes with
      | .ok store => (.ok (), { s with store })
      | .error e => (.error e, s) := by
  show (onStore (FileStore.calls.write path bytes)).run s = _
  simp only [onStore, FileStore.calls, StateT.run_modifyGet]
  cases s.store.write path bytes <;> rfl

theorem run_print_of_lt {n : Nat} (hroom : s.room = some n) (hn : n < bytes.size) :
    (host.print bytes).run s = (.error (.other "No space left on device (os error 28)"),
      { s with printed := s.printed ++ bytes.extract 0 n, room := some 0 }) := by
  show s.print bytes = _
  rw [print, hroom]
  exact if_neg (Nat.not_le.mpr hn)

theorem print_cases (s : Session) (bytes : ByteArray) :
    (∃ room, (host.print bytes).run s =
        (.ok (), { s with printed := s.printed ++ bytes, room })) ∨
      ∃ n room e, n < bytes.size ∧ (host.print bytes).run s =
        (.error e, { s with printed := s.printed ++ bytes.extract 0 n, room }) := by
  cases hroom : s.room with
  | none =>
    refine .inl ⟨none, ?_⟩
    show s.print bytes = _
    rw [print, hroom]
  | some n =>
    by_cases hn : bytes.size ≤ n
    · refine .inl ⟨some (n - bytes.size), ?_⟩
      show s.print bytes = _
      rw [print, hroom]
      exact if_pos hn
    · have hn : n < bytes.size := Nat.lt_of_not_le hn
      exact .inr ⟨n, _, _, hn, run_print_of_lt hroom hn⟩

theorem lawful : host.Lawful view where
  read path s := .refl view s
  readInput s := .refl view s
  write path bytes s _ := by
    rw [run_write]
    cases hwrite : s.store.write path bytes with
    | error e => exact ⟨ByteArray.append_empty.symm, fun _ _ _ => rfl, id⟩
    | ok store =>
      refine ⟨ByteArray.append_empty.symm, fun other _ hother => Option.ext fun kept => ?_, id⟩
      show (store.read other).toOption = some kept ↔ (s.store.read other).toOption = some kept
      rw [toOption_eq_some_iff, toOption_eq_some_iff]
      exact FileStore.read_write_of_not_sameFile hwrite hother
  write_ok path bytes s _ hok := by
    rw [run_write] at hok ⊢
    cases hwrite : s.store.write path bytes with
    | error e =>
      rw [hwrite] at hok
      cases hok
    | ok store => exact toOption_eq_some_iff.mpr (FileStore.read_write hwrite)
  print bytes s := by
    rcases print_cases s bytes with ⟨room, hrun⟩ | ⟨n, room, e, hn, hrun⟩
    · rw [hrun]
      exact ⟨bytes, .empty, ByteArray.append_empty.symm, rfl, fun _ _ _ => rfl, id⟩
    · rw [hrun]
      refine ⟨bytes.extract 0 n, bytes.extract n bytes.size, ?_, rfl, fun _ _ _ => rfl, id⟩
      rw [ByteArray.extract_append_extract, Nat.zero_min, Nat.max_eq_right (Nat.le_of_lt hn),
        ByteArray.extract_zero_size]
  print_ok bytes s hok := by
    rcases print_cases s bytes with ⟨room, hrun⟩ | ⟨n, room, e, -, hrun⟩
    · rw [hrun]
      exact ⟨rfl, fun _ _ _ => rfl, id⟩
    · rw [hrun] at hok
      cases hok
  report message s :=
    ⟨⟨ByteArray.append_empty.symm, fun _ _ _ => rfl, fun h => Option.isSome_map.trans h⟩, rfl⟩
  report_heard message s h := h
  log event s := ⟨⟨ByteArray.append_empty.symm, fun _ _ _ => rfl, id⟩, rfl⟩
  log_heard event s _ := rfl

end Session
end RecordWire
