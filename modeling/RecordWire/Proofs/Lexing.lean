import RecordWire.Json.Token
import RecordWire.Proofs.JsonGrammar

/-!
Tokens of a written text.  Each word of the grammar is one token, whatever follows it; only a
numeral asks that what follows does not continue it.
-/

namespace RecordWire
namespace Json

theorem isSpace_iff {c : Char} : isSpace c = true ↔ c ∈ spaces := by
  simp [isSpace, spaces, or_assoc]

theorem tokens_spaces {cs : List Char} (h : Spaces cs) (rest : List Char) :
    tokens (cs ++ rest) = tokens rest := by
  induction cs with
  | nil => rfl
  | cons c cs ih =>
    have hc : isSpace c = true := isSpace_iff.mpr (h c (List.mem_cons_self ..))
    rw [List.cons_append, tokens, if_pos hc]
    exact ih fun d hd => h d (List.mem_cons_of_mem _ hd)

theorem tokens_of_spaces {cs : List Char} (h : Spaces cs) : tokens cs = [] := by
  have htokens := tokens_spaces h []
  rw [List.append_nil] at htokens
  rw [htokens, tokens]

theorem tokens_cons {c : Char} (h : c ∉ spaces) (rest : List Char) :
    tokens (c :: rest) = (scanToken c rest).1 :: tokens (scanToken c rest).2 := by
  rw [tokens, if_neg fun hc => h (isSpace_iff.mp hc)]

theorem tokens_punctuation {c : Char} {t : Token} (h : punctuation? c = some t)
    (hc : c ∉ spaces) (rest : List Char) :
    tokens (c :: rest) = t :: tokens rest := by
  have hscan : scanToken c rest = (t, rest) := by rw [scanToken, h]
  rw [tokens_cons hc, hscan]

/-! ## Strings -/

theorem hexDigit?_of_spells {n : Nat} {c : Char} (h : SpellsDigit n c) : hexDigit? c = some n := by
  have hlower : ∀ p ∈ "0123456789abcdef".toList.zipIdx, hexDigit? p.1 = some p.2 := by decide
  have hupper : ∀ p ∈ "0123456789ABCDEF".toList.zipIdx, hexDigit? p.1 = some p.2 := by decide
  rcases h with h | h
  · exact hlower (c, n) (List.mem_zipIdx_iff_getElem?.mpr h)
  · exact hupper (c, n) (List.mem_zipIdx_iff_getElem?.mpr h)

theorem scanText_unit {n : Nat} {ds : List Char} (h : SpellsUnit n ds) (s : TextScan)
    (rest : List Char) :
    scanText s ('\\' :: 'u' :: ds ++ rest) = scanText (s.pushUnit n) rest := by
  obtain ⟨hw, hx, hy, hz⟩ := h
  rename_i a b c d w x y z
  have hvalue : hexValue? w x y z = some (((a * 16 + b) * 16 + c) * 16 + d) := by
    rw [hexValue?, hexDigit?_of_spells hw, hexDigit?_of_spells hx, hexDigit?_of_spells hy,
      hexDigit?_of_spells hz]
    rfl
  simp [scanText, hvalue]

theorem scanText_short {e c : Char} (h : (e, c) ∈ shortEscapes) (s : TextScan)
    (rest : List Char) : scanText s ('\\' :: e :: rest) = scanText (s.push c) rest := by
  have hescape : ∀ p ∈ shortEscapes, p.1 ≠ 'u' ∧ simpleEscape? p.1 = some p.2 := by decide
  obtain ⟨hu, hc⟩ := hescape (e, c) h
  simp [scanText, hu, hc]

theorem scanText_plain {c : Char} (h : Unescaped c) (s : TextScan) (rest : List Char) :
    scanText s (c :: rest) = scanText (s.push c) rest := by
  obtain ⟨hlow, hquote, hslash⟩ := h
  rw [scanText.eq_def]
  simp [hquote, hslash, Nat.not_lt.mpr hlow]

theorem scanText_quote (s : TextScan) (rest : List Char) :
    scanText s ('"' :: rest) = s.close rest := by
  rw [scanText.eq_def]
  rfl

theorem toNat_lt_lead_or_gt_trail (c : Char) : c.toNat < 0xd800 ∨ 0xdfff < c.toNat := by
  rcases c.valid with h | h
  · exact .inl h
  · exact .inr h.1

theorem pushUnit_char (s : TextScan) (hs : s.lead = none) (c : Char) :
    s.pushUnit c.toNat = { s with chars := c :: s.chars } := by
  have hc := toNat_lt_lead_or_gt_trail c
  have hlead : isLeadSurrogate c.toNat = false := by
    simp only [isLeadSurrogate, Bool.and_eq_false_iff, decide_eq_false_iff_not]
    omega
  have htrail : isTrailSurrogate c.toNat = false := by
    simp only [isTrailSurrogate, Bool.and_eq_false_iff, decide_eq_false_iff_not]
    omega
  simp [TextScan.pushUnit, hs, hlead, htrail]

theorem pushUnit_pair (s : TextScan) (hs : s.lead = none) {c : Char} (hc : 0x10000 ≤ c.toNat) :
    (s.pushUnit (0xd800 + (c.toNat - 0x10000) / 0x400)).pushUnit
        (0xdc00 + (c.toNat - 0x10000) % 0x400) = { s with chars := c :: s.chars } := by
  have hmax : c.toNat < 0x110000 := by
    rcases c.valid with h | h
    · exact Nat.lt_trans h (by decide)
    · exact h.2
  have hlead : isLeadSurrogate (0xd800 + (c.toNat - 0x10000) / 0x400) = true := by
    simp only [isLeadSurrogate, Bool.and_eq_true, decide_eq_true_eq]
    omega
  have htrail : isTrailSurrogate (0xdc00 + (c.toNat - 0x10000) % 0x400) = true := by
    simp only [isTrailSurrogate, Bool.and_eq_true, decide_eq_true_eq]
    omega
  have hjoin : joinSurrogates (0xd800 + (c.toNat - 0x10000) / 0x400)
      (0xdc00 + (c.toNat - 0x10000) % 0x400) = c := by
    have hsum : 0x10000 + (0xd800 + (c.toNat - 0x10000) / 0x400 - 0xd800) * 0x400 +
        (0xdc00 + (c.toNat - 0x10000) % 0x400 - 0xdc00) = c.toNat := by omega
    rw [joinSurrogates, hsum, Char.ofNat_toNat]
  simp [TextScan.pushUnit, hs, hlead, htrail, hjoin]

theorem push_char (s : TextScan) (hs : s.lead = none) (c : Char) :
    s.push c = { s with chars := c :: s.chars } := by
  simp [TextScan.push, hs]

theorem scanText_char {c : Char} {cs : List Char} (h : SpellsChar c cs) {s : TextScan}
    (hs : s.lead = none) (rest : List Char) :
    scanText s (cs ++ rest) = scanText { s with chars := c :: s.chars } rest := by
  cases h with
  | plain h => rw [List.singleton_append, scanText_plain h, push_char s hs]
  | short h => rw [List.cons_append, List.singleton_append, scanText_short h, push_char s hs]
  | unit h => rw [scanText_unit h, pushUnit_char s hs]
  | pair hc lead trail =>
    rw [List.append_assoc, scanText_unit lead, scanText_unit trail, pushUnit_pair s hs hc]

theorem scanText_chars {cs : List Char} {pieces : List (List Char)}
    (h : List.Forall₂ SpellsChar cs pieces) {s : TextScan} (hs : s.lead = none)
    (rest : List Char) :
    scanText s (pieces.flatten ++ rest) =
      scanText { s with chars := cs.reverse ++ s.chars } rest := by
  induction h generalizing s with
  | nil => rfl
  | @cons c _ cs _ hc _ ih =>
    have hstep : ({ s with chars := c :: s.chars } : TextScan).lead = none := hs
    rw [List.flatten_cons, List.append_assoc, scanText_char hc hs, ih hstep]
    simp

theorem tokens_quote {cs rest : List Char} {reading : Except Fault String}
    (h : scanText {} cs = .closed reading rest) :
    tokens ('"' :: cs) = .text reading :: tokens rest := by
  have hscan : scanToken '"' cs = (.text reading, rest) := by simp [scanToken, punctuation?, h]
  rw [tokens_cons (by decide), hscan]

/-- A string that is read is one token, with the text it spells. -/
theorem tokens_text {s : String} {cs : List Char} (h : SpellsText s cs) (rest : List Char) :
    tokens (cs ++ rest) = .text (.ok s) :: tokens rest := by
  obtain ⟨pieces, hpieces, rfl⟩ := h
  rw [List.cons_append, List.cons_append, List.append_assoc, List.singleton_append]
  apply tokens_quote
  rw [scanText_chars hpieces rfl, scanText_quote]
  simp [TextScan.close]

theorem scanText_piece {p : List Char} (h : IsPiece p) (s : TextScan) :
    ∃ s', ∀ rest, scanText s (p ++ rest) = scanText s' rest := by
  cases h with
  | plain h => exact ⟨_, fun rest => scanText_plain h s rest⟩
  | short h => exact ⟨_, fun rest => scanText_short h s rest⟩
  | unit h => exact ⟨_, fun rest => scanText_unit h s rest⟩

theorem scanText_pieces {pieces : List (List Char)} (h : ∀ p ∈ pieces, IsPiece p) (s : TextScan) :
    ∃ s', ∀ rest, scanText s (pieces.flatten ++ rest) = scanText s' rest := by
  induction pieces generalizing s with
  | nil => exact ⟨s, fun rest => rfl⟩
  | cons p pieces ih =>
    obtain ⟨s₁, h₁⟩ := scanText_piece (h p (List.mem_cons_self ..)) s
    obtain ⟨s₂, h₂⟩ := ih (fun q hq => h q (List.mem_cons_of_mem _ hq)) s₁
    refine ⟨s₂, fun rest => ?_⟩
    rw [List.flatten_cons, List.append_assoc, h₁, h₂]

theorem exists_close_eq (s : TextScan) (rest : List Char) :
    ∃ reading, s.close rest = .closed reading rest := by
  unfold TextScan.close
  split <;> exact ⟨_, rfl⟩

/-- A string that nobody reads is one token, whether or not it has a reading. -/
theorem tokens_string {cs : List Char} (h : IsString cs) (rest : List Char) :
    ∃ reading, tokens (cs ++ rest) = .text reading :: tokens rest := by
  obtain ⟨pieces, hpieces, rfl⟩ := h
  obtain ⟨s, hs⟩ := scanText_pieces hpieces {}
  obtain ⟨reading, hclose⟩ := exists_close_eq s rest
  refine ⟨reading, ?_⟩
  rw [List.cons_append, List.cons_append, List.append_assoc, List.singleton_append]
  apply tokens_quote
  rw [hs, scanText_quote, hclose]

/-! ## Numerals -/

/-- Nothing that could continue a numeral. -/
def Ends (rest : List Char) : Prop :=
  ∀ c ∈ rest.head?, c.isDigit = false ∧ c ∉ ['.', 'e', 'E']

theorem ends_nil : Ends [] := by
  intro c hc
  cases hc

theorem ends_cons {c : Char} (h : c.isDigit = false ∧ c ∉ ['.', 'e', 'E']) (rest : List Char) :
    Ends (c :: rest) := by
  intro d hd
  cases hd
  exact h

theorem Ends.after_spaces {cs rest : List Char} (hcs : Spaces cs) (h : Ends rest) :
    Ends (cs ++ rest) := by
  cases cs with
  | nil => exact h
  | cons c cs =>
    refine ends_cons ?_ _
    have hc := hcs c (List.mem_cons_self ..)
    simp only [spaces, List.mem_cons, List.not_mem_nil, or_false] at hc
    rcases hc with rfl | rfl | rfl | rfl <;> decide

/-- Digits are taken up to the first character that is none. -/
theorem takeDigits_append {ds rest : List Char} (h : IsDigits ds)
    (hrest : ∀ c ∈ rest.head?, c.isDigit = false) : takeDigits (ds ++ rest) = .ok (ds, rest) := by
  obtain ⟨hne, hds⟩ := h
  have htake : rest.takeWhile Char.isDigit = [] := by
    cases rest with
    | nil => rfl
    | cons c rest => rw [List.takeWhile_cons_of_neg (by simp [hrest c rfl])]
  have hdrop : rest.dropWhile Char.isDigit = rest := by
    cases rest with
    | nil => rfl
    | cons c rest => rw [List.dropWhile_cons_of_neg (by simp [hrest c rfl])]
  rw [takeDigits, List.takeWhile_append_of_pos hds, List.dropWhile_append_of_pos hds, htake, hdrop,
    List.append_nil]
  cases ds with
  | nil => exact absurd rfl hne
  | cons d ds => rfl

theorem takeWhole_append {ds rest : List Char} (h : IsWhole ds)
    (hrest : ∀ c ∈ rest.head?, c.isDigit = false) : takeWhole (ds ++ rest) = .ok (ds, rest) := by
  obtain ⟨hdigits, hzero⟩ := h
  rw [takeWhole, takeDigits_append hdigits hrest]
  split
  · rename_i hds
    cases hds
    simp at hzero
  · rfl

theorem takeFraction_of_ne {rest : List Char} (h : ∀ c ∈ rest.head?, c ≠ '.') :
    takeFraction rest = .ok (none, rest) := by
  unfold takeFraction
  split
  · exact absurd rfl (h '.' rfl)
  · rfl

theorem takeExponent_of_ends {rest : List Char} (h : Ends rest) :
    takeExponent rest = .ok (none, rest) := by
  cases rest with
  | nil => rfl
  | cons c rest =>
    have hc := (h c rfl).2
    simp only [List.mem_cons, List.not_mem_nil, or_false, not_or] at hc
    simp [takeExponent, hc.2.1, hc.2.2]

theorem takeFraction_append {fraction rest : List Char} (h : IsFraction fraction)
    (hrest : ∀ c ∈ rest.head?, c.isDigit = false ∧ c ≠ '.') :
    ∃ digits, takeFraction (fraction ++ rest) = .ok (digits, rest) := by
  cases h with
  | none => exact ⟨_, takeFraction_of_ne fun c hc => (hrest c hc).2⟩
  | @point ds h =>
    refine ⟨some ds, ?_⟩
    rw [List.cons_append, takeFraction, takeDigits_append h fun c hc => (hrest c hc).1]

theorem takeSign_append {sign ds : List Char} (hsign : sign = [] ∨ sign = ['+'] ∨ sign = ['-'])
    (h : IsDigits ds) (rest : List Char) : (takeSign (sign ++ (ds ++ rest))).2 = ds ++ rest := by
  obtain ⟨hne, hds⟩ := h
  rcases hsign with rfl | rfl | rfl
  · cases ds with
    | nil => exact absurd rfl hne
    | cons d ds =>
      have hd := hds d (List.mem_cons_self ..)
      rw [List.nil_append, List.cons_append]
      unfold takeSign
      split
      case h_1 heq =>
        cases heq
        exact absurd hd (by decide)
      case h_2 heq =>
        cases heq
        exact absurd hd (by decide)
      case h_3 => rfl
  · rfl
  · rfl

theorem takeExponent_append {exponent rest : List Char} (h : IsExponent exponent)
    (hrest : Ends rest) : ∃ digits, takeExponent (exponent ++ rest) = .ok (digits, rest) := by
  cases h with
  | none => exact ⟨_, takeExponent_of_ends hrest⟩
  | @mark e sign ds he hsign h =>
    have hdigits : takeDigits (takeSign (sign ++ ds ++ rest)).2 = .ok (ds, rest) := by
      rw [List.append_assoc, takeSign_append hsign h]
      exact takeDigits_append h fun c hc => (hrest c hc).1
    refine ⟨some ((takeSign (sign ++ ds ++ rest)).1, ds), ?_⟩
    rw [List.cons_append, takeExponent, if_pos (by simpa using he), hdigits]

theorem IsExponent.head {exponent rest : List Char} (h : IsExponent exponent) (hrest : Ends rest) :
    ∀ c ∈ (exponent ++ rest).head?, c.isDigit = false ∧ c ≠ '.' := by
  intro c hc
  cases h with
  | none =>
    obtain ⟨hdigit, hmark⟩ := hrest c hc
    exact ⟨hdigit, fun heq => hmark (heq ▸ List.mem_cons_self ..)⟩
  | mark he hsign h =>
    cases hc
    rcases he with rfl | rfl <;> decide

theorem IsFraction.head {fraction rest : List Char} (h : IsFraction fraction)
    (hrest : ∀ c ∈ rest.head?, c.isDigit = false) :
    ∀ c ∈ (fraction ++ rest).head?, c.isDigit = false := by
  intro c hc
  cases h with
  | none => exact hrest c hc
  | point h =>
    cases hc
    decide

theorem scanNumeral_of_parts {cs cs₁ cs₂ rest whole : List Char} {fraction : Option (List Char)}
    {exponent : Option (Bool × List Char)} (hwhole : takeWhole cs = .ok (whole, cs₁))
    (hfraction : takeFraction cs₁ = .ok (fraction, cs₂))
    (hexponent : takeExponent cs₂ = .ok (exponent, rest)) (negative : Bool) :
    scanNumeral negative cs = .ok (⟨negative, whole, fraction, exponent⟩, rest) := by
  rw [scanNumeral, hwhole]
  change (takeFraction cs₁ >>= _) = _
  rw [hfraction]
  change (takeExponent cs₂ >>= _) = _
  rw [hexponent]
  rfl

theorem scanNumeral_append {cs rest : List Char} (h : IsUnsigned cs) (hrest : Ends rest)
    (negative : Bool) : ∃ x, scanNumeral negative (cs ++ rest) = .ok (x, rest) := by
  obtain ⟨hw, hf, he⟩ := h
  have hwhole := takeWhole_append hw (hf.head fun c hc => (he.head hrest c hc).1)
  obtain ⟨digits, hfraction⟩ := takeFraction_append hf (he.head hrest)
  obtain ⟨power, hexponent⟩ := takeExponent_append he hrest
  rw [List.append_assoc, List.append_assoc]
  exact ⟨_, scanNumeral_of_parts hwhole hfraction hexponent negative⟩

theorem punctuation?_of_isDigit {c : Char} (h : c.isDigit = true) : punctuation? c = none := by
  unfold punctuation?
  split
  case h_7 => rfl
  all_goals exact absurd h (by decide)

/-- Characters that no value starts with. -/
def marks : List Char :=
  spaces ++ [',', ':', ']', '}']

theorem not_space_of_not_mark {c : Char} (h : c ∉ marks) : c ∉ spaces :=
  fun hc => h (List.mem_append_left _ hc)

theorem not_mark_of_isDigit {c : Char} (h : c.isDigit = true) : c ∉ marks := by
  intro hc
  have hmarks : marks.all (fun d => !d.isDigit) = true := by decide
  have hnot := List.all_eq_true.mp hmarks c hc
  rw [h] at hnot
  cases hnot

/-- A numeral that starts with a digit. -/
theorem tokens_digits {cs rest : List Char} {x : Numeral}
    (hdigits : ∃ c ∈ cs.head?, c.isDigit = true) (h : scanNumeral false cs = .ok (x, rest)) :
    tokens cs = .number x.number :: tokens rest := by
  obtain ⟨c, hc, hdigit⟩ := hdigits
  obtain ⟨tail, rfl⟩ := List.head?_eq_some_iff.mp hc
  have hquote : c ≠ '"' := by
    rintro rfl
    exact absurd hdigit (by decide)
  have hminus : c ≠ '-' := by
    rintro rfl
    exact absurd hdigit (by decide)
  have hscan : scanToken c tail = (.number x.number, rest) := by
    simp [scanToken, punctuation?_of_isDigit hdigit, hquote, hminus, hdigit, h]
  rw [tokens_cons (not_space_of_not_mark (not_mark_of_isDigit hdigit)), hscan]

theorem IsDigits.head {ds : List Char} (h : IsDigits ds) (rest : List Char) :
    ∃ c ∈ (ds ++ rest).head?, c.isDigit = true := by
  obtain ⟨hne, hds⟩ := h
  cases ds with
  | nil => exact absurd rfl hne
  | cons d ds => exact ⟨d, rfl, hds d (List.mem_cons_self ..)⟩

theorem IsUnsigned.head {cs : List Char} (h : IsUnsigned cs) (rest : List Char) :
    ∃ c ∈ (cs ++ rest).head?, c.isDigit = true := by
  obtain ⟨hw, -, -⟩ := h
  rw [List.append_assoc]
  exact hw.1.head _

theorem tokens_unsigned {cs rest : List Char} (h : IsUnsigned cs) (hrest : Ends rest) :
    ∃ n, tokens (cs ++ rest) = .number n :: tokens rest := by
  obtain ⟨x, hx⟩ := scanNumeral_append h hrest false
  exact ⟨x.number, tokens_digits (h.head rest) hx⟩

theorem tokens_minus {cs rest : List Char} (h : IsUnsigned cs) (hrest : Ends rest) :
    ∃ n, tokens ('-' :: (cs ++ rest)) = .number n :: tokens rest := by
  obtain ⟨x, hx⟩ := scanNumeral_append h hrest true
  have hscan : scanToken '-' (cs ++ rest) = (.number x.number, rest) := by
    simp [scanToken, punctuation?, hx]
  refine ⟨x.number, ?_⟩
  rw [tokens_cons (by decide), hscan]

theorem digitsValue_toDigits (n : Nat) : digitsValue (Nat.toDigits 10 n) = n := by
  have hstep : (fun n d => n * 10 + digitValue d) =
      fun (sofar : Nat) (c : Char) => 10 * sofar + (c.toNat - '0'.toNat) := by
    funext sofar c
    rw [Nat.mul_comm, digitValue]
  rw [digitsValue, hstep, ← Nat.ofDigitChars_eq_foldl]
  exact Nat.ofDigitChars_toDigits (by decide) (by decide)

/-- Only zero starts with the digit zero. -/
theorem toDigits_of_head_zero (n : Nat) (h : (Nat.toDigits 10 n).head? = some '0') :
    Nat.toDigits 10 n = ['0'] := by
  induction n using Nat.strongRecOn with
  | ind n ih =>
    rcases Nat.lt_or_ge n 10 with hlt | hge
    · rw [Nat.toDigits_of_lt_base hlt] at h ⊢
      simpa using h
    · have hpos : 0 < n / 10 := Nat.div_pos hge (by decide)
      rw [Nat.toDigits_of_base_le (by decide) hge,
        List.head?_append_of_ne_nil _ Nat.toDigits_ne_nil] at h
      have hvalue := digitsValue_toDigits (n / 10)
      rw [ih (n / 10) (by omega) h] at hvalue
      exact absurd hvalue (Nat.ne_of_lt hpos)

theorem isWhole_toDigits (n : Nat) : IsWhole (Nat.toDigits 10 n) :=
  ⟨⟨Nat.toDigits_ne_nil, fun _ => Nat.isDigit_of_mem_toDigits (by decide) (by decide)⟩,
    toDigits_of_head_zero n⟩

/-- A size is one token, and its number is that size. -/
theorem tokens_size {n : Nat} {cs rest : List Char} (h : SpellsSize n cs) (hrest : Ends rest) :
    tokens (cs ++ rest) = .number (.natural n) :: tokens rest := by
  obtain ⟨hn, rfl⟩ := h
  have hpoint : ∀ c ∈ rest.head?, c ≠ '.' := fun c hc => (IsExponent.none.head hrest c hc).2
  have hscan := scanNumeral_of_parts
    (takeWhole_append (isWhole_toDigits n) fun c hc => (hrest c hc).1)
    (takeFraction_of_ne hpoint) (takeExponent_of_ends hrest) false
  have hnumber : Numeral.number ⟨false, Nat.toDigits 10 n, none, none⟩ = .natural n := by
    simp only [Numeral.number, digitsValue_toDigits, Option.isNone_none, Bool.not_false,
      Bool.and_self, Bool.true_and, decide_eq_true_eq, if_pos hn]
  rw [tokens_digits ((isWhole_toDigits n).1.head rest) hscan, hnumber]

/-! ## Words -/

theorem tokens_word {c : Char} {w : List Char} {t : Token} (h : word? c = some (w, t))
    (rest : List Char) : tokens (c :: (w ++ rest)) = t :: tokens rest := by
  unfold word? at h
  split at h
  case h_4 => cases h
  all_goals
    cases h
    rw [tokens_cons (by decide)]
    simp [scanToken, punctuation?, word?, scanWord]

/-! ## The start of a value -/

def StartsValue (cs : List Char) : Prop :=
  ∃ c ∈ cs.head?, c ∉ marks

/-- The tokens of those characters. -/
def Token.IsMark (t : Token) : Prop :=
  t = .comma ∨ t = .colon ∨ t = .closeBracket ∨ t = .closeBrace

theorem not_isMark_punctuation {c : Char} {t : Token} (hc : c ∉ marks)
    (h : punctuation? c = some t) : ¬ t.IsMark := by
  unfold punctuation? at h
  split at h <;> cases h <;> simp [marks, Token.IsMark] at hc ⊢

theorem not_isMark_word {c : Char} {w : List Char} {t : Token} (h : word? c = some (w, t)) :
    ¬ t.IsMark := by
  unfold word? at h
  split at h <;> cases h <;> simp [Token.IsMark]

theorem not_isMark_scanToken {c : Char} (h : c ∉ marks) (rest : List Char) :
    ¬ (scanToken c rest).1.IsMark := by
  unfold scanToken
  split
  · rename_i ht
    exact not_isMark_punctuation h ht
  · split
    · split <;> simp [Token.IsMark]
    · split
      · split <;> simp [Token.IsMark]
      · split
        · split <;> simp [Token.IsMark]
        · split
          · rename_i hword
            split
            · exact not_isMark_word hword
            · simp [Token.IsMark]
          · simp [Token.IsMark]

theorem StartsValue.exists_token {cs : List Char} (h : StartsValue cs) (rest : List Char) :
    ∃ t ts, tokens (cs ++ rest) = t :: ts ∧ ¬ t.IsMark := by
  obtain ⟨c, hc, hmark⟩ := h
  obtain ⟨tail, rfl⟩ := List.head?_eq_some_iff.mp hc
  exact ⟨_, _, tokens_cons (not_space_of_not_mark hmark) _, not_isMark_scanToken hmark _⟩

theorem IsDigits.startsValue {ds : List Char} (h : IsDigits ds) (rest : List Char) :
    StartsValue (ds ++ rest) := by
  obtain ⟨c, hc, hdigit⟩ := h.head rest
  exact ⟨c, hc, not_mark_of_isDigit hdigit⟩

theorem Enclosed.head {opening closing : Char} {items : List (List Char)} {cs : List Char}
    (h : Enclosed opening closing items cs) : cs.head? = some opening := by
  cases h <;> rfl

theorem Enclosed.startsValue {opening closing : Char} {items : List (List Char)} {cs : List Char}
    (h : Enclosed opening closing items cs) (hopening : opening ∉ marks) : StartsValue cs :=
  ⟨opening, h.head, hopening⟩

theorem SpellsText.startsValue {s : String} {cs : List Char} (h : SpellsText s cs) :
    StartsValue cs := by
  obtain ⟨pieces, -, rfl⟩ := h
  exact ⟨'"', rfl, by decide⟩

theorem SpellsSize.startsValue {n : Nat} {cs : List Char} (h : SpellsSize n cs) :
    StartsValue cs := by
  obtain ⟨-, rfl⟩ := h
  have hstart := (isWhole_toDigits n).1.startsValue []
  rwa [List.append_nil] at hstart

theorem IsValue.startsValue {cs : List Char} (h : IsValue cs) : StartsValue cs := by
  cases h with
  | word h =>
    simp only [words, List.mem_cons, List.not_mem_nil, or_false] at h
    rcases h with rfl | rfl | rfl
    · exact ⟨'n', rfl, by decide⟩
    · exact ⟨'t', rfl, by decide⟩
    · exact ⟨'f', rfl, by decide⟩
  | unsigned h =>
    obtain ⟨hw, -, -⟩ := h
    exact hw.1.startsValue _
  | minus h => exact ⟨'-', rfl, by decide⟩
  | string h =>
    obtain ⟨pieces, -, rfl⟩ := h
    exact ⟨'"', rfl, by decide⟩
  | list h _ => exact h.startsValue (by decide)
  | object h _ _ => exact h.startsValue (by decide)

end Json
end RecordWire
