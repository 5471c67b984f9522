import RecordWire.Proofs.Names

/-!
What case conversion keeps of a name.  Snake case puts in low bars and makes low bars of dashes and
blanks, Pascal case drops low bars and dashes, and both change the case of ASCII letters.  Every
other character comes out once and in its place, so two names that become one do not differ in
anything else.
-/

namespace RecordWire

namespace Text

theorem inRanges_eq_false {ranges : List (Nat × Nat)} {n : Nat} (h : ∀ r ∈ ranges, n < r.1) :
    inRanges ranges n = false := by
  rw [inRanges, List.any_eq_false]
  intro r hr
  simp [h r hr]

theorem inAlternating_eq_false {ranges : List (Nat × Nat)} {n : Nat} (h : ∀ r ∈ ranges, n < r.1) :
    inAlternating ranges n = false := by
  rw [inAlternating, List.any_eq_false]
  intro r hr
  simp [h r hr]

/-- Among the ASCII characters only the capital letters are upper case. -/
theorem isUpper_of_ascii {c : Char} (h : c.toNat < 128) : isUpper c = c.isUpper := by
  -- The first range of the table is the only one that starts below 128.
  have hranges : ∀ r ∈ upperRanges.tail, 128 ≤ r.1 := by decide
  have halternating : ∀ r ∈ upperAlternating, 128 ≤ r.1 := by decide
  have hsplit : inRanges upperRanges c.toNat =
      ((decide (65 ≤ c.toNat) && decide (c.toNat ≤ 90)) ||
        inRanges upperRanges.tail c.toNat) := rfl
  rw [isUpper, hsplit, inRanges_eq_false fun r hr => Nat.lt_of_lt_of_le h (hranges r hr),
    inAlternating_eq_false fun r hr => Nat.lt_of_lt_of_le h (halternating r hr), Bool.or_false,
    Bool.or_false, Bool.eq_iff_iff, Name.isUpper_iff]
  simp

end Text

namespace Name

/-- `s` without the characters `marks`. -/
def without (marks : List Char) (s : String) : String :=
  String.ofList (s.toList.filter (· ∉ marks))

def IsAscii (s : String) : Prop :=
  ∀ c ∈ s.toList, c.toNat < 128

instance (s : String) : Decidable (IsAscii s) :=
  List.decidableBAll _ s.toList

/-- Only a letter can be the lower case of another character. -/
theorem toLower_eq_iff {c d : Char} (hd : d.isAlpha = false) : c.toLower = d ↔ c = d := by
  by_cases hc : c.isUpper = true
  · have halpha : c.isAlpha = true := by rw [Char.isAlpha, hc, Bool.true_or]
    constructor
    · rintro rfl
      rw [Char.isAlpha_toLower_eq_isAlpha, halpha] at hd
      cases hd
    · rintro rfl
      rw [halpha] at hd
      cases hd
  · rw [Char.toLower_eq_of_not_isUpper hc]

/-! ## What is kept -/

/-- Snake case is the lower case of a name, up to separators. -/
theorem filter_snakeChars (before : Option Char) (barred : Bool) (cs : List Char) :
    (snakeChars before barred cs).filter (· ∉ ['_']) =
      (cs.filter (· ∉ ['_', '-', ' '])).map Char.toLower := by
  induction cs generalizing before barred with
  | nil => rfl
  | cons c rest ih =>
    rw [snakeChars]
    by_cases hsep : c = '-' ∨ c = ' '
    · have hdropped : c ∈ ['_', '-', ' '] := by simp [hsep]
      rw [if_pos hsep, List.filter_cons_of_neg (by decide), ih,
        List.filter_cons_of_neg (by simp [hdropped])]
    · have hkept : c.toLower ∉ ['_'] ↔ c ∉ ['_', '-', ' '] := by
        have hbar : c.toLower = '_' ↔ c = '_' := toLower_eq_iff (by decide)
        simp [hbar, hsep]
      have htail : (c.toLower :: snakeChars (some c) (c.toLower == '_') rest).filter (· ∉ ['_']) =
          ((c :: rest).filter (· ∉ ['_', '-', ' '])).map Char.toLower := by
        rw [List.filter_cons, List.filter_cons, ih]
        simp only [hkept]
        split <;> rfl
      rw [if_neg hsep]
      dsimp only
      split
      · rw [List.filter_cons_of_neg (by decide), htail]
      · exact htail

theorem map_toLower_pascalChars (capital : Bool) (cs : List Char) :
    (pascalChars capital cs).map Char.toLower =
      (cs.filter (· ∉ ['_', '-'])).map Char.toLower := by
  induction cs generalizing capital with
  | nil => rfl
  | cons c rest ih =>
    rw [pascalChars]
    by_cases hsep : c = '_' ∨ c = '-'
    · have hdropped : c ∈ ['_', '-'] := by simp [hsep]
      rw [if_pos hsep, ih, List.filter_cons_of_neg (by simp [hdropped])]
    · have hlow : (if capital = true then c.toUpper else c).toLower = c.toLower := by
        cases capital with
        | false => rfl
        | true => exact Char.toLower_toUpper_eq_toLower c
      rw [if_neg hsep, List.map_cons, hlow, ih, List.filter_cons_of_pos (by simpa using hsep),
        List.map_cons]

theorem without_snake (s : String) :
    without ['_'] (snake s) = (without ['_', '-', ' '] s).toLower := by
  rw [← String.toList_inj, String.toLower, String.toList_map]
  simp only [without, snake, String.toList_ofList]
  exact filter_snakeChars none false s.toList

theorem toLower_pascal (s : String) : (pascal s).toLower = (without ['_', '-'] s).toLower := by
  rw [← String.toList_inj, String.toLower, String.toLower, String.toList_map, String.toList_map]
  simp only [without, pascal, String.toList_ofList]
  exact map_toLower_pascalChars true s.toList

/-! ## What snake case looks like -/

/-- No capital letter and no separator but the low bar. -/
def IsLowered (c : Char) : Prop :=
  c.isUpper = false ∧ c ≠ '-' ∧ c ≠ ' '

theorem isLowered_toLower {c : Char} (hdash : c ≠ '-') (hblank : c ≠ ' ') :
    IsLowered c.toLower := by
  refine ⟨Char.isUpper_toLower_eq_false c, ?_, ?_⟩
  · rwa [Ne, toLower_eq_iff (by decide)]
  · rwa [Ne, toLower_eq_iff (by decide)]

theorem isLowered_of_mem_snake (s : String) : ∀ c ∈ (snake s).toList, IsLowered c := by
  rw [snake, String.toList_ofList]
  exact forall_mem_snakeChars ⟨rfl, by decide, by decide⟩ fun c _ => isLowered_toLower

theorem IsAscii.snake {s : String} (h : IsAscii s) : IsAscii (snake s) := by
  rw [IsAscii, Name.snake, String.toList_ofList]
  refine forall_mem_snakeChars (by decide) fun c hc _ _ => ?_
  have hlt := h c hc
  rw [toNat_toLower]
  split <;> omega

/-- Without capitals there is no word to set off. -/
theorem snakeChars_eq_self {before : Option Char} {barred : Bool} {cs : List Char}
    (h : ∀ c ∈ cs, IsLowered c ∧ Text.isUpper c = false) : snakeChars before barred cs = cs := by
  induction cs generalizing before barred with
  | nil => rfl
  | cons c rest ih =>
    rw [List.forall_mem_cons] at h
    obtain ⟨⟨⟨hcapital, hdash, hblank⟩, hupper⟩, hrest⟩ := h
    have hlow : c.toLower = c := Char.toLower_eq_of_not_isUpper (by simp [hcapital])
    have hopens : opensWord before c rest = false := by simp [opensWord, hupper]
    rw [snakeChars, if_neg (not_or.mpr ⟨hdash, hblank⟩)]
    simp only [hlow, hopens, Bool.false_and, Bool.false_eq_true, if_false, ih hrest]

theorem IsAscii.snake_snake {s : String} (h : IsAscii s) :
    Name.snake (Name.snake s) = Name.snake s := by
  have hself : snakeChars none false (Name.snake s).toList = (Name.snake s).toList := by
    refine snakeChars_eq_self fun c hc => ?_
    have hlowered := isLowered_of_mem_snake s c hc
    exact ⟨hlowered, (Text.isUpper_of_ascii (h.snake c hc)).trans hlowered.1⟩
  rw [Name.snake, hself, String.ofList_toList]

/-- Up to the case of ASCII letters and up to separators both conversions keep a name as it is, so
names that collide are the same up to these.  Snake case has neither capital letters of ASCII nor
separators other than low bars, and a second conversion changes nothing in an ASCII name. -/
theorem conversions_keep_content (s : String) :
    without ['_'] (snake s) = (without ['_', '-', ' '] s).toLower ∧
      (pascal s).toLower = (without ['_', '-'] s).toLower ∧
      (∀ t, snake s = snake t →
        (without ['_', '-', ' '] s).toLower = (without ['_', '-', ' '] t).toLower) ∧
      (∀ t, pascal s = pascal t →
        (without ['_', '-'] s).toLower = (without ['_', '-'] t).toLower) ∧
      (∀ c ∈ (snake s).toList, c.isUpper = false ∧ c ≠ '-' ∧ c ≠ ' ') ∧
      (IsAscii s → snake (snake s) = snake s) := by
  refine ⟨without_snake s, toLower_pascal s, fun t h => ?_, fun t h => ?_, isLowered_of_mem_snake s,
    IsAscii.snake_snake⟩
  · rw [← without_snake, ← without_snake, h]
  · rw [← toLower_pascal, ← toLower_pascal, h]

/-- Names that collide in snake case, and in Pascal case. -/
theorem sensor_names_collide :
    snake "sensorID" = snake "Sensor ID" ∧
      (without ['_', '-', ' '] "sensorID").toLower = (without ['_', '-', ' '] "Sensor ID").toLower ∧
      pascal "sensor-id" = pascal "_sensor_Id" ∧
      (without ['_', '-'] "sensor-id").toLower = (without ['_', '-'] "_sensor_Id").toLower ∧
      IsAscii "HTTPCode" ∧ snake (snake "HTTPCode") = snake "HTTPCode" := by
  have hsnake : snake "sensorID" = snake "Sensor ID" := by decide +kernel
  have hpascal : pascal "sensor-id" = pascal "_sensor_Id" := by decide +kernel
  have hascii : IsAscii "HTTPCode" := by decide +kernel
  obtain ⟨-, -, hcollide, -⟩ := conversions_keep_content "sensorID"
  obtain ⟨-, -, -, hcollide', -⟩ := conversions_keep_content "sensor-id"
  obtain ⟨-, -, -, -, -, hagain⟩ := conversions_keep_content "HTTPCode"
  exact ⟨hsnake, hcollide _ hsnake, hpascal, hcollide' _ hpascal, hascii, hagain hascii⟩

/-- Outside ASCII a capital stays, and it opens a word once the capital before it is lowered. -/
example : snake "XÀB" = "xÀb" ∧ snake "xÀb" = "x_Àb" := by decide +kernel

end Name
end RecordWire
