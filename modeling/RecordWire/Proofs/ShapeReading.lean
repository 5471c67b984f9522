import RecordWire.Json.Shape
import RecordWire.Proofs.Lexing

/-!
Reading what the grammar allows.  A value that nobody reads is skipped to its end, however deep it
is nested.  A scalar or a list is read from every text that spells it, and just that text is taken
up.
-/

namespace RecordWire
namespace Json

theorem Tail.ends {items : List (List Char)} {cs : List Char} (h : Tail items cs) {closing : Char}
    (hclosing : closing.isDigit = false ∧ closing ∉ ['.', 'e', 'E']) (rest : List Char) :
    Ends (cs ++ closing :: rest) := by
  cases h with
  | nil => exact ends_cons hclosing rest
  | cons _ _ _ => exact ends_cons (by decide) _

/-! ## Skipping -/

namespace Bracket

def opening : Bracket → Char
  | list => '['
  | object => '{'

def closing : Bracket → Char
  | list => ']'
  | object => '}'

/-- What may come after the opening bracket. -/
def first : Bracket → Expecting
  | list => .firstElement
  | object => .firstMember

/-- What must come after a comma. -/
def next : Bracket → Expecting
  | list => .value
  | object => .key

theorem closing_ends (b : Bracket) :
    b.closing.isDigit = false ∧ b.closing ∉ ['.', 'e', 'E'] := by
  cases b <;> decide

end Bracket

/-- Where `e` is expected the text is skipped to its end, whatever brackets are open around it. -/
def Skips (e : Expecting) (cs : List Char) : Prop :=
  ∀ brackets rest, Ends rest →
    skipFrom ⟨e, brackets⟩ (tokens (cs ++ rest)) =
      skipFrom ⟨.separator, brackets⟩ (tokens rest)

theorem skipFrom_cons {s s' : Skipping} {t : Token} (hs : s.isDone = false)
    (hstep : s.step t = .ok s') (ts : List Token) : skipFrom s (t :: ts) = skipFrom s' ts := by
  rw [skipFrom, hs, hstep]
  rfl

theorem skipFrom_opening (b : Bracket) (brackets : List Bracket) (cs : List Char) :
    skipFrom ⟨.value, brackets⟩ (tokens (b.opening :: cs)) =
      skipFrom ⟨b.first, b :: brackets⟩ (tokens cs) := by
  cases b with
  | list =>
    rw [Bracket.opening, tokens_punctuation rfl (by decide)]
    exact skipFrom_cons rfl rfl _
  | object =>
    rw [Bracket.opening, tokens_punctuation rfl (by decide)]
    exact skipFrom_cons rfl rfl _

theorem skipFrom_comma (b : Bracket) (brackets : List Bracket) (cs : List Char) :
    skipFrom ⟨.separator, b :: brackets⟩ (tokens (',' :: cs)) =
      skipFrom ⟨b.next, b :: brackets⟩ (tokens cs) := by
  rw [tokens_punctuation rfl (by decide)]
  cases b with
  | list => exact skipFrom_cons rfl rfl _
  | object => exact skipFrom_cons rfl rfl _

theorem skipFrom_closing (b : Bracket) {e : Expecting} (he : e = .separator ∨ e = b.first)
    (brackets : List Bracket) (cs : List Char) :
    skipFrom ⟨e, b :: brackets⟩ (tokens (b.closing :: cs)) =
      skipFrom ⟨.separator, brackets⟩ (tokens cs) := by
  cases b with
  | list =>
    rw [Bracket.closing, tokens_punctuation rfl (by decide)]
    rcases he with rfl | rfl
    · exact skipFrom_cons rfl rfl _
    · exact skipFrom_cons rfl rfl _
  | object =>
    rw [Bracket.closing, tokens_punctuation rfl (by decide)]
    rcases he with rfl | rfl
    · exact skipFrom_cons rfl rfl _
    · exact skipFrom_cons rfl rfl _

/-- The first item needs no comma. -/
theorem skipFrom_first (b : Bracket) (brackets : List Bracket) {t : Token} (ht : ¬ t.IsMark)
    (ts : List Token) :
    skipFrom ⟨b.first, brackets⟩ (t :: ts) = skipFrom ⟨b.next, brackets⟩ (t :: ts) := by
  have hstep : Skipping.step ⟨b.first, brackets⟩ t = Skipping.step ⟨b.next, brackets⟩ t := by
    cases b <;> cases t <;>
      simp [Token.IsMark, Skipping.step, Bracket.first, Bracket.next] at ht ⊢
  have hdone : ∀ e, e = b.first ∨ e = b.next → Skipping.isDone ⟨e, brackets⟩ = false := by
    rintro e (rfl | rfl) <;> cases b <;> rfl
  rw [skipFrom, skipFrom, hdone _ (.inl rfl), hdone _ (.inr rfl), hstep]

theorem skipFrom_tail (b : Bracket) {items : List (List Char)} {cs : List Char}
    (h : Tail items cs) (hitems : ∀ item ∈ items, Skips b.next item) (brackets : List Bracket)
    (rest : List Char) :
    skipFrom ⟨.separator, b :: brackets⟩ (tokens (cs ++ b.closing :: rest)) =
      skipFrom ⟨.separator, brackets⟩ (tokens rest) := by
  induction h with
  | nil => exact skipFrom_closing b (.inl rfl) brackets rest
  | @cons item items before after cs hbefore hafter hrest ih =>
    have hends := Ends.after_spaces hafter (hrest.ends b.closing_ends rest)
    simp only [List.cons_append, List.append_assoc]
    rw [skipFrom_comma, tokens_spaces hbefore, hitems item (List.mem_cons_self ..) _ _ hends,
      tokens_spaces hafter]
    exact ih fun i hi => hitems i (List.mem_cons_of_mem _ hi)

theorem skipFrom_enclosed (b : Bracket) {items : List (List Char)} {cs : List Char}
    (h : Enclosed b.opening b.closing items cs) (hstart : ∀ item ∈ items, StartsValue item)
    (hitems : ∀ item ∈ items, Skips b.next item) : Skips .value cs := by
  intro brackets rest _
  cases h with
  | empty hblank =>
    simp only [List.cons_append, List.append_assoc, List.nil_append]
    rw [skipFrom_opening, tokens_spaces hblank, skipFrom_closing b (.inr rfl)]
  | @items item items before after cs hbefore hafter hrest =>
    have hends := Ends.after_spaces hafter (hrest.ends b.closing_ends rest)
    simp only [List.cons_append, List.append_assoc, List.nil_append]
    rw [skipFrom_opening, tokens_spaces hbefore]
    obtain ⟨t, ts, htokens, ht⟩ := (hstart item (List.mem_cons_self ..)).exists_token
      (after ++ (cs ++ b.closing :: rest))
    rw [htokens, skipFrom_first b _ ht, ← htokens, hitems item (List.mem_cons_self ..) _ _ hends,
      tokens_spaces hafter]
    exact skipFrom_tail b hrest (fun i hi => hitems i (List.mem_cons_of_mem _ hi)) brackets rest

/-- A value that is a single token. -/
theorem skips_of_token {cs : List Char}
    (h : ∀ rest, Ends rest → ∃ t, tokens (cs ++ rest) = t :: tokens rest ∧
      ∀ brackets, Skipping.startValue brackets t = .ok ⟨.separator, brackets⟩) :
    Skips .value cs := by
  intro brackets rest hrest
  obtain ⟨t, htokens, ht⟩ := h rest hrest
  have hstep : Skipping.step ⟨.value, brackets⟩ t = .ok ⟨.separator, brackets⟩ := by
    simp only [Skipping.step, ht brackets]
  rw [htokens, skipFrom_cons rfl hstep]

theorem skips_word {cs : List Char} (h : cs ∈ words) : Skips .value cs := by
  refine skips_of_token fun rest _ => ?_
  simp only [words, List.mem_cons, List.not_mem_nil, or_false] at h
  rcases h with rfl | rfl | rfl
  · exact ⟨_, tokens_word rfl rest, fun _ => rfl⟩
  · exact ⟨_, tokens_word rfl rest, fun _ => rfl⟩
  · exact ⟨_, tokens_word rfl rest, fun _ => rfl⟩

theorem skips_entry {e : Entry} (hkey : IsString e.key) (hvalue : Skips .value e.value) :
    Skips .key e.text := by
  intro brackets rest hrest
  obtain ⟨reading, hreading⟩ :=
    tokens_string hkey (e.before ++ ':' :: (e.after ++ (e.value ++ rest)))
  simp only [Entry.text, List.append_assoc, List.cons_append]
  rw [hreading, skipFrom_cons rfl rfl, tokens_spaces e.spaces_before,
    tokens_punctuation rfl (by decide), skipFrom_cons rfl rfl, tokens_spaces e.spaces_after]
  exact hvalue brackets rest hrest

theorem IsString.startsValue {cs : List Char} (h : IsString cs) (rest : List Char) :
    StartsValue (cs ++ rest) := by
  obtain ⟨pieces, -, rfl⟩ := h
  exact ⟨'"', rfl, by decide⟩

/-- What is well formed is skipped, to any depth. -/
theorem IsValue.skips {cs : List Char} (h : IsValue cs) : Skips .value cs := by
  induction h with
  | word h => exact skips_word h
  | unsigned h =>
    refine skips_of_token fun rest hrest => ?_
    obtain ⟨n, hn⟩ := tokens_unsigned h hrest
    exact ⟨_, hn, fun _ => rfl⟩
  | minus h =>
    refine skips_of_token fun rest hrest => ?_
    obtain ⟨n, hn⟩ := tokens_minus h hrest
    exact ⟨_, hn, fun _ => rfl⟩
  | string h =>
    refine skips_of_token fun rest _ => ?_
    obtain ⟨reading, hreading⟩ := tokens_string h rest
    exact ⟨_, hreading, fun _ => rfl⟩
  | list h values ih =>
    exact skipFrom_enclosed .list h (fun item hi => (values item hi).startsValue) ih
  | object h keys values ih =>
    refine skipFrom_enclosed .object h (fun item hi => ?_) (fun item hi => ?_)
    · obtain ⟨e, he, rfl⟩ := List.mem_map.mp hi
      exact (keys e he).startsValue _
    · obtain ⟨e, he, rfl⟩ := List.mem_map.mp hi
      exact skips_entry (keys e he) (ih e he)

theorem skip_value {cs rest : List Char} (h : IsValue cs) (hrest : Ends rest) :
    skip (tokens (cs ++ rest)) = .ok (tokens rest) := by
  have hdone : skipFrom ⟨.separator, []⟩ (tokens rest) = .ok (tokens rest) := by
    cases tokens rest <;> rfl
  rw [skip, Skipping.start, h.skips [] rest hrest, hdone]

/-! ## Shapes -/

theorem SpellsList.map {α β : Type} {P : α → List Char → Prop} {Q : β → List Char → Prop}
    {f : α → β} (hf : ∀ a cs, P a cs → Q (f a) cs) {as : List α} {cs : List Char}
    (h : SpellsList P as cs) : SpellsList Q (as.map f) cs := by
  obtain ⟨items, hcs, hitems⟩ := h
  exact ⟨items, hcs, List.forall₂_map_left_iff.mpr (hitems.imp hf)⟩

/-- The shape reads `a` from the text and takes up just that text. -/
structure Shape.Reads {α : Type} (shape : Shape α) (a : α) (cs : List Char) : Prop where
  starts : StartsValue cs
  read : ∀ rest, Ends rest → shape.read (tokens (cs ++ rest)) = .ok (a, tokens rest)

namespace Shape

variable {α β : Type}

theorem Reads.map {shape : Shape α} {a : α} {cs : List Char} (h : shape.Reads a cs) (f : α → β) :
    (shape.map f).Reads (f a) cs where
  starts := h.starts
  read rest hrest := by
    simp only [Shape.map, h.read rest hrest]

theorem reads_ofToken {accept : Token → Except ReadError α} {a : α} {cs : List Char}
    (hstart : StartsValue cs) (h : ∀ rest, Ends rest → ∃ t,
      tokens (cs ++ rest) = t :: tokens rest ∧ accept t = .ok a) : (ofToken accept).Reads a cs where
  starts := hstart
  read rest hrest := by
    obtain ⟨t, htokens, ht⟩ := h rest hrest
    simp only [ofToken, htokens, ht]

theorem text_reads {s : String} {cs : List Char} (h : SpellsText s cs) : text.Reads s cs :=
  reads_ofToken h.startsValue fun rest _ => ⟨_, tokens_text h rest, rfl⟩

theorem startsValue_null : StartsValue ['n', 'u', 'l', 'l'] :=
  ⟨'n', rfl, by decide⟩

theorem optionalText_reads {s : Option String} {cs : List Char}
    (h : SpellsOptional SpellsText s cs) : optionalText.Reads s cs := by
  cases s with
  | none =>
    cases h
    exact reads_ofToken startsValue_null fun rest _ => ⟨_, tokens_word rfl rest, rfl⟩
  | some s => exact reads_ofToken h.startsValue fun rest _ => ⟨_, tokens_text h rest, rfl⟩

theorem optionalSize_reads {n : Option Nat} {cs : List Char}
    (h : SpellsOptional SpellsSize n cs) : optionalSize.Reads n cs := by
  cases n with
  | none =>
    cases h
    exact reads_ofToken startsValue_null fun rest _ => ⟨_, tokens_word rfl rest, rfl⟩
  | some n => exact reads_ofToken h.startsValue fun rest hrest => ⟨_, tokens_size h hrest, rfl⟩

theorem readElements_tail {item : Shape α} {as : List α} {items : List (List Char)}
    {cs : List Char} (h : Tail items cs) (hitems : List.Forall₂ item.Reads as items)
    (rest : List Char) :
    readElements item (tokens (cs ++ ']' :: rest)) = .ok (as, tokens rest) := by
  induction h generalizing as with
  | nil =>
    cases hitems
    rw [List.nil_append, tokens_punctuation rfl (by decide), readElements]
  | @cons text items before after cs hbefore hafter hrest ih =>
    cases hitems with
    | cons ha has =>
      have hends : Ends (after ++ (cs ++ ']' :: rest)) :=
        Ends.after_spaces hafter (hrest.ends (by decide) rest)
      simp only [List.cons_append, List.append_assoc]
      rw [tokens_punctuation rfl (by decide), tokens_spaces hbefore, readElements]
      split
      · rename_i e he
        rw [ha.read _ hends] at he
        cases he
      · rename_i a' rest' he
        rw [ha.read _ hends] at he
        cases he
        simp only [tokens_spaces hafter, ih has]

theorem list_reads {item : Shape α} {as : List α} {cs : List Char}
    (h : SpellsList item.Reads as cs) : (list item).Reads as cs := by
  obtain ⟨items, hcs, hitems⟩ := h
  refine ⟨hcs.startsValue (by decide), fun rest _ => ?_⟩
  change readList item _ = _
  cases hcs with
  | empty hblank =>
    cases hitems
    simp only [List.cons_append, List.append_assoc, List.nil_append]
    rw [tokens_punctuation rfl (by decide), tokens_spaces hblank,
      tokens_punctuation rfl (by decide), readList]
  | @items text items before after cs hbefore hafter hrest =>
    cases hitems with
    | cons ha has =>
      have hends : Ends (after ++ (cs ++ ']' :: rest)) :=
        Ends.after_spaces hafter (hrest.ends (by decide) rest)
      obtain ⟨t, ts, htokens, ht⟩ := ha.starts.exists_token (after ++ (cs ++ ']' :: rest))
      have hread := ha.read _ hends
      simp only [List.cons_append, List.append_assoc, List.nil_append]
      rw [tokens_punctuation rfl (by decide), tokens_spaces hbefore]
      rw [htokens] at hread ⊢
      rw [readList]
      · simp only [hread, tokens_spaces hafter, readElements_tail hrest has]
      · intro rest' heq
        cases heq
        exact ht (.inr (.inr (.inl rfl)))

end Shape

end Json
end RecordWire
