import RecordWire.Proofs.ShapeReading

/-!
Reading an object.  The value that the members read so far make depends on which they are and not
on their order, so it is given as a function of their names; each member then adds its own name, and
an unknown one adds none.
-/

namespace RecordWire
namespace Json

variable {σ : Type}

/-- The member is read from what its form allows, into the value `part` of its name and those
before. -/
structure Member.Reads (part : List String → σ) (form : MemberForm) (m : Member σ) : Prop where
  name : m.name = form.name
  otherName : m.otherName = form.otherName
  required : form.optional → m.required = false
  value : ∀ cs, form.value cs → ∃ update, m.value.Reads update cs ∧
    ∀ seen, update (part seen) = part (form.name :: seen)

/-- The members of a shape are read from what their forms allow, and once no more are due they make
`target`. -/
structure ObjectShape.Reads (o : ObjectShape σ) (forms : List MemberForm)
    (part : List String → σ) (target : σ) : Prop where
  members : List.Forall₂ (Member.Reads part) forms o.members
  distinct : (forms.flatMap MemberForm.keys).Nodup
  blank : o.blank = part []
  complete : ∀ seen, (∀ form ∈ forms, form.name ∈ seen ∨ form.optional) → part seen = target

/-! ## Members by key -/

theorem Member.Reads.isKey_iff {part : List String → σ} {form : MemberForm} {m : Member σ}
    (h : Member.Reads part form m) (key : String) :
    (m.name == key || m.otherName == some key) = true ↔ key ∈ form.keys := by
  rw [h.name, h.otherName, MemberForm.keys, Bool.or_eq_true, beq_iff_eq, beq_iff_eq,
    List.mem_cons, Option.mem_toList, eq_comm]

section

variable {part : List String → σ} {forms : List MemberForm} {members : List (Member σ)}

theorem exists_form (h : List.Forall₂ (Member.Reads part) forms members) {m : Member σ}
    (hm : m ∈ members) : ∃ form ∈ forms, Member.Reads part form m := by
  induction h with
  | nil => cases hm
  | @cons form m' forms members hreads _ ih =>
    rcases List.mem_cons.mp hm with rfl | hmem
    · exact ⟨form, List.mem_cons_self .., hreads⟩
    · obtain ⟨form', hform', h'⟩ := ih hmem
      exact ⟨form', List.mem_cons_of_mem _ hform', h'⟩

theorem find_of_key (h : List.Forall₂ (Member.Reads part) forms members)
    (hdistinct : (forms.flatMap MemberForm.keys).Nodup) {form : MemberForm} (hform : form ∈ forms)
    {key : String} (hkey : key ∈ form.keys) :
    ∃ m, members.find? (fun m => m.name == key || m.otherName == some key) = some m ∧
      Member.Reads part form m := by
  induction h with
  | nil => cases hform
  | @cons form' m forms members hm _ ih =>
    rw [List.flatMap_cons] at hdistinct
    obtain ⟨-, hrest, hdisjoint⟩ := List.nodup_append.mp hdistinct
    rcases List.mem_cons.mp hform with rfl | hmem
    · exact ⟨m, List.find?_cons_of_pos ((hm.isKey_iff key).mpr hkey), hm⟩
    · -- a key of a later member is none of this one
      have hother : key ∉ form'.keys := fun hkey' =>
        hdisjoint key hkey' key (List.mem_flatMap.mpr ⟨form, hmem, hkey⟩) rfl
      have hneg := Bool.eq_false_iff.mpr (mt (hm.isKey_iff key).mp hother)
      simp only [List.find?_cons, hneg]
      exact ih hrest hmem

theorem find_of_unknown (h : List.Forall₂ (Member.Reads part) forms members) {key : String}
    (hkey : ∀ form ∈ forms, key ∉ form.keys) :
    members.find? (fun m => m.name == key || m.otherName == some key) = none := by
  refine List.find?_eq_none.mpr fun m hm => ?_
  obtain ⟨form, hform, hreads⟩ := exists_form h hm
  exact mt (hreads.isKey_iff key).mp (hkey form hform)

theorem find_required (h : List.Forall₂ (Member.Reads part) forms members) {seen : List String}
    (hseen : ∀ form ∈ forms, form.name ∈ seen ∨ form.optional) :
    members.find? (fun m => m.required && !seen.contains m.name) = none := by
  refine List.find?_eq_none.mpr fun m hm => ?_
  obtain ⟨form, hform, hreads⟩ := exists_form h hm
  rcases hseen form hform with hmem | hoptional
  · simp [hreads.name, hmem]
  · simp [hreads.required hoptional]

end

/-! ## Members in any order -/

/-- Every member is still due or was read. -/
def Settled (forms left : List MemberForm) (seen : List String) : Prop :=
  ∀ form ∈ forms, form ∈ left ∨ form.name ∈ seen

theorem Settled.take {forms left : List MemberForm} {seen : List String} {m : MemberForm}
    (h : Settled forms (m :: left) seen) : Settled forms left (m.name :: seen) := by
  intro form hform
  rcases h form hform with hleft | hseen
  · rcases List.mem_cons.mp hleft with rfl | hleft
    · exact .inr (List.mem_cons_self ..)
    · exact .inl hleft
  · exact .inr (List.mem_cons_of_mem _ hseen)

theorem Settled.complete {forms left : List MemberForm} {seen : List String}
    (h : Settled forms left seen) (hleft : ∀ form ∈ left, form.optional) :
    ∀ form ∈ forms, form.name ∈ seen ∨ form.optional := by
  intro form hform
  rcases h form hform with hmem | hmem
  · exact .inr (hleft form hmem)
  · exact .inl hmem

/-- The members that are still due may be read in any order. -/
structure Pending (forms left : List MemberForm) (seen : List String) : Prop where
  declared : ∀ form ∈ left, form ∈ forms
  distinct : (left.map (·.name)).Nodup
  unseen : ∀ form ∈ left, form.name ∉ seen
  settled : Settled forms left seen

namespace Pending

variable {forms left left' : List MemberForm} {seen : List String}

theorem names_sublist (forms : List MemberForm) :
    (forms.map (·.name)).Sublist (forms.flatMap MemberForm.keys) := by
  induction forms with
  | nil => exact List.Sublist.refl _
  | cons form forms ih =>
    exact (ih.trans (List.sublist_append_right _ _)).cons_cons _

theorem start (h : (forms.flatMap MemberForm.keys).Nodup) : Pending forms forms [] where
  declared _ hform := hform
  distinct := (names_sublist forms).nodup h
  unseen _ _ := List.not_mem_nil
  settled _ hform := .inl hform

theorem perm (h : Pending forms left seen) (hperm : left.Perm left') :
    Pending forms left' seen where
  declared form hform := h.declared form (hperm.mem_iff.mpr hform)
  distinct := ((hperm.map (·.name)).nodup_iff).mp h.distinct
  unseen form hform := h.unseen form (hperm.mem_iff.mpr hform)
  settled form hform := (h.settled form hform).imp_left hperm.mem_iff.mp

theorem take {m : MemberForm} (h : Pending forms (m :: left) seen) :
    Pending forms left (m.name :: seen) := by
  have hdistinct := h.distinct
  rw [List.map_cons, List.nodup_cons] at hdistinct
  refine ⟨fun form hform => h.declared form (List.mem_cons_of_mem _ hform), hdistinct.2,
    fun form hform => ?_, h.settled.take⟩
  rw [List.mem_cons, not_or]
  exact ⟨fun heq => hdistinct.1 (heq ▸ List.mem_map_of_mem hform),
    h.unseen form (List.mem_cons_of_mem _ hform)⟩

end Pending

theorem WritesMembers.exists_key {forms left : List MemberForm} {e : Entry} {entries : List Entry}
    (h : WritesMembers forms left (e :: entries)) : ∃ key, SpellsText key e.key := by
  cases h with
  | member hkey _ _ _ => exact ⟨_, hkey⟩
  | unknown hkey _ _ _ => exact ⟨_, hkey⟩

theorem tokens_entry {e : Entry} {key : String} (h : SpellsText key e.key) (rest : List Char) :
    tokens (e.text ++ rest) = .text (.ok key) :: .colon :: tokens (e.value ++ rest) := by
  simp only [Entry.text, List.append_assoc, List.cons_append]
  rw [tokens_text h, tokens_spaces e.spaces_before, tokens_punctuation rfl (by decide),
    tokens_spaces e.spaces_after]

namespace ObjectShape

variable {o : ObjectShape σ} {forms left : List MemberForm} {part : List String → σ} {target : σ}
  {seen : List String}

/-- One entry is read: a member adds its name, and an unknown one is skipped. -/
theorem Reads.readMember (h : o.Reads forms part target) {e : Entry} {entries : List Entry}
    (hpending : Pending forms left seen) (hwrites : WritesMembers forms left (e :: entries)) :
    ∃ left' seen', Pending forms left' seen' ∧ WritesMembers forms left' entries ∧
      ∀ rest, Ends rest → o.readMember ⟨seen, part seen⟩ (tokens (e.text ++ rest)) =
        .ok (⟨seen', part seen'⟩, tokens rest) := by
  cases hwrites with
  | @member before after form key _ _ hkey hform hvalue hrest =>
    have hmem : form ∈ before ++ form :: after := List.mem_append_right _ (List.mem_cons_self ..)
    obtain ⟨m, hfind, hm⟩ := find_of_key h.members h.distinct (hpending.declared form hmem) hform
    obtain ⟨update, hread, hupdate⟩ := hm.value _ hvalue
    have hunseen : seen.contains form.name = false := by
      simpa using hpending.unseen form hmem
    refine ⟨_, _, (hpending.perm List.perm_middle).take, hrest, fun rest hends => ?_⟩
    rw [tokens_entry hkey]
    simp only [ObjectShape.readMember, readValue, member?, hfind, hm.name, hunseen,
      Bool.false_eq_true, if_false, hread.read rest hends, hupdate]
  | @unknown _ key _ _ hkey hunknown hvalue hrest =>
    refine ⟨left, seen, hpending, hrest, fun rest hends => ?_⟩
    rw [tokens_entry hkey]
    simp only [ObjectShape.readMember, readValue, member?, find_of_unknown h.members hunknown,
      skip_value hvalue hends]

theorem Reads.finish (h : o.Reads forms part target)
    (hseen : ∀ form ∈ forms, form.name ∈ seen ∨ form.optional) :
    o.finish ⟨seen, part seen⟩ = .ok target := by
  simp only [ObjectShape.finish, find_required h.members hseen, h.complete seen hseen]

theorem readMembers_of_comma {p p' : Progress σ} {ts rest : List Token}
    (h : o.readMember p ts = .ok (p', .comma :: rest)) :
    o.readMembers p ts = o.readMembers p' rest := by
  rw [readMembers]
  split <;> rename_i heq <;> rw [h] at heq <;> cases heq
  · rfl
  · contradiction

theorem readMembers_of_closeBrace {p p' : Progress σ} {ts rest : List Token} {value : σ}
    (h : o.readMember p ts = .ok (p', .closeBrace :: rest)) (hfinish : o.finish p' = .ok value) :
    o.readMembers p ts = .ok (value, rest) := by
  rw [readMembers]
  split <;> rename_i heq <;> rw [h] at heq <;> cases heq
  · rw [hfinish]
  · contradiction

/-- The entries are read to the end of the object. -/
theorem Reads.readMembers (h : o.Reads forms part target) {entries : List Entry}
    {after cs : List Char} {e : Entry} (hpending : Pending forms left seen)
    (hwrites : WritesMembers forms left (e :: entries)) (hafter : Spaces after)
    (htail : Tail (entries.map Entry.text) cs) (rest : List Char) :
    o.readMembers ⟨seen, part seen⟩ (tokens (e.text ++ (after ++ (cs ++ '}' :: rest)))) =
      .ok (target, tokens rest) := by
  induction entries generalizing e left seen after cs with
  | nil =>
    obtain ⟨left', seen', hpending', hwrites', hread⟩ := h.readMember hpending hwrites
    have hends : Ends (after ++ (cs ++ '}' :: rest)) :=
      Ends.after_spaces hafter (htail.ends (by decide) rest)
    have hmember := hread _ hends
    cases htail
    cases hwrites' with
    | done hleft =>
      rw [tokens_spaces hafter, List.nil_append, tokens_punctuation rfl (by decide)] at hmember
      exact readMembers_of_closeBrace hmember (h.finish (hpending'.settled.complete hleft))
  | cons e' entries ih =>
    obtain ⟨left', seen', hpending', hwrites', hread⟩ := h.readMember hpending hwrites
    have hends : Ends (after ++ (cs ++ '}' :: rest)) :=
      Ends.after_spaces hafter (htail.ends (by decide) rest)
    have hmember := hread _ hends
    cases htail with
    | @cons _ _ before after' cs' hbefore hafter' hrest =>
      simp only [List.cons_append, List.append_assoc] at hmember ⊢
      rw [tokens_spaces hafter, tokens_punctuation rfl (by decide), tokens_spaces hbefore]
        at hmember
      rw [readMembers_of_comma hmember]
      exact ih hpending' hwrites' hafter' hrest

/-! ## Members in declared order -/

theorem readPositional_closing {forms : List MemberForm} {members : List (Member σ)}
    (h : List.Forall₂ (Member.Reads part) forms members) (hleft : ∀ form ∈ forms, form.optional)
    (position : Nat) (value : σ) (first : Bool) (ts : List Token) :
    o.readPositional position value first members (.closeBracket :: ts) = .ok (value, ts) := by
  induction h generalizing position with
  | nil => rfl
  | @cons form m forms members hm _ ih =>
    have hrequired := hm.required (hleft form (List.mem_cons_self ..))
    simp only [readPositional, nextElement, hrequired, Bool.false_eq_true, if_false]
    exact ih (fun f hf => hleft f (List.mem_cons_of_mem _ hf)) _

/-- One item is read into the member at its position. -/
theorem readPositional_item {form : MemberForm} {m : Member σ} {members : List (Member σ)}
    {first : Bool} {ts : List Token} {item after cs : List Char} (hm : Member.Reads part form m)
    (hvalue : form.value item) (hafter : Spaces after) (hends : Ends cs)
    (hnext : nextElement first ts = .ok (some (tokens (item ++ (after ++ cs))))) (position : Nat) :
    o.readPositional position (part seen) first (m :: members) ts =
      o.readPositional (position + 1) (part (form.name :: seen)) false members (tokens cs) := by
  obtain ⟨update, hread, hupdate⟩ := hm.value _ hvalue
  simp only [readPositional, hnext, hread.read _ (Ends.after_spaces hafter hends), hupdate,
    tokens_spaces hafter]

/-- The items after the first are read to the end of the list. -/
theorem Reads.readPositional_tail (h : o.Reads forms part target) {members : List (Member σ)}
    {items : List (List Char)} {cs : List Char} (htail : Tail items cs)
    (hmembers : List.Forall₂ (Member.Reads part) left members)
    (hwrites : WritesInOrder left items) (hsettled : Settled forms left seen) (position : Nat)
    (rest : List Char) :
    o.readPositional position (part seen) false members (tokens (cs ++ ']' :: rest)) =
      .ok (target, tokens rest) := by
  induction htail generalizing left seen members position with
  | nil =>
    cases hwrites with
    | done hleft =>
      rw [List.nil_append, tokens_punctuation rfl (by decide),
        readPositional_closing hmembers hleft, h.complete seen (hsettled.complete hleft)]
  | @cons item items before after cs hbefore hafter hrest ih =>
    cases hwrites with
    | member hvalue hwrites =>
      cases hmembers with
      | cons hm hmembers =>
        have hends : Ends (cs ++ ']' :: rest) := hrest.ends (by decide) rest
        simp only [List.cons_append, List.append_assoc]
        rw [tokens_punctuation rfl (by decide), tokens_spaces hbefore,
          readPositional_item hm hvalue hafter hends rfl]
        exact ih hmembers hwrites hsettled.take _

theorem nextElement_of_startsValue {item : List Char} (h : StartsValue item) (rest : List Char) :
    nextElement true (tokens (item ++ rest)) = .ok (some (tokens (item ++ rest))) := by
  obtain ⟨t, ts, htokens, ht⟩ := h.exists_token rest
  rw [htokens]
  cases t <;> simp [nextElement, Token.IsMark] at ht ⊢

/-! ## Objects -/

theorem Reads.read_object (h : o.Reads forms part target) {entries : List Entry} {cs : List Char}
    (hcs : Enclosed '{' '}' (entries.map Entry.text) cs)
    (hwrites : WritesMembers forms forms entries) (rest : List Char) :
    o.read (tokens (cs ++ rest)) = .ok (target, tokens rest) := by
  cases entries with
  | nil =>
    cases hcs with
    | empty hblank =>
      cases hwrites with
      | done hleft =>
        have hfinish : o.finish ⟨[], part []⟩ = .ok target :=
          h.finish fun form hform => .inr (hleft form hform)
        simp only [List.cons_append, List.append_assoc, List.nil_append]
        rw [tokens_punctuation rfl (by decide), tokens_spaces hblank,
          tokens_punctuation rfl (by decide)]
        simp only [ObjectShape.read, h.blank, hfinish]
  | cons e entries =>
    cases hcs with
    | @items _ _ before after cs hbefore hafter hrest =>
      have hmembers := h.readMembers (Pending.start h.distinct) hwrites hafter hrest rest
      obtain ⟨key, hkey⟩ := hwrites.exists_key
      simp only [List.cons_append, List.append_assoc, List.nil_append]
      rw [tokens_punctuation rfl (by decide), tokens_spaces hbefore]
      rw [tokens_entry hkey] at hmembers ⊢
      simp only [ObjectShape.read, h.blank, hmembers]

theorem Reads.read_list (h : o.Reads forms part target) {items : List (List Char)}
    {cs : List Char} (hcs : Enclosed '[' ']' items cs) (hwrites : WritesInOrder forms items)
    (rest : List Char) : o.read (tokens (cs ++ rest)) = .ok (target, tokens rest) := by
  cases hcs with
  | empty hblank =>
    cases hwrites with
    | done hleft =>
      have htarget := h.complete [] fun form hform => .inr (hleft form hform)
      simp only [List.cons_append, List.append_assoc, List.nil_append]
      rw [tokens_punctuation rfl (by decide), tokens_spaces hblank,
        tokens_punctuation rfl (by decide), ObjectShape.read,
        readPositional_closing h.members hleft, h.blank, htarget]
  | @items item items before after cs hbefore hafter hrest =>
    cases hwrites with
    | @member form left _ _ hvalue hwrites =>
      obtain ⟨m, members, hm, hmembers, heq⟩ := List.forall₂_cons_left_iff.mp h.members
      obtain ⟨update, hread, -⟩ := hm.value _ hvalue
      have hends : Ends (cs ++ ']' :: rest) := hrest.ends (by decide) rest
      have hsettled : Settled (form :: left) (form :: left) [] := fun f hf => .inl hf
      simp only [List.cons_append, List.append_assoc, List.nil_append]
      rw [tokens_punctuation rfl (by decide), tokens_spaces hbefore, ObjectShape.read, heq, h.blank,
        readPositional_item hm hvalue hafter hends (nextElement_of_startsValue hread.starts _)]
      exact h.readPositional_tail hrest hmembers hwrites hsettled.take _ rest

/-- An object is read from every text that spells it. -/
theorem Reads.shape (h : o.Reads forms part target) {cs : List Char}
    (hcs : SpellsObject forms cs) : o.shape.Reads target cs := by
  cases hcs with
  | object henclosed hwrites =>
    exact ⟨henclosed.startsValue (by decide), fun rest _ => h.read_object henclosed hwrites rest⟩
  | list henclosed hwrites =>
    exact ⟨henclosed.startsValue (by decide), fun rest _ => h.read_list henclosed hwrites rest⟩

end ObjectShape

end Json
end RecordWire
