import RecordWire.Codec

/-!
Decoding as an attempt.  A caller sees of a decode the value it gives or the error it ends with,
and in either case where the reader stands.  `Attempt` is the monad of such outcomes.  A value that
was there before shows in none of them if the codec overwrites it.
-/

namespace RecordWire

/-! ## The monad -/

abbrev Attempt (α : Type) : Type :=
  ExceptT WireError (StateM Reader) α

namespace Attempt

variable {α β : Type}

theorem bind_apply (x : Attempt α) (f : α → Attempt β) (r : Reader) :
    (x >>= f) r = match x r with
      | (.ok a, r') => f a r'
      | (.error e, r') => (.error e, r') := by
  show ExceptT.bindCont f (x r).1 (x r).2 = _
  rcases x r with ⟨_ | a, r'⟩ <;> rfl

theorem pure_apply (a : α) (r : Reader) : (pure a : Attempt α) r = (.ok a, r) := rfl

theorem map_apply (f : α → β) (x : Attempt α) (r : Reader) :
    (f <$> x) r = match x r with
      | (.ok a, r') => (.ok (f a), r')
      | (.error e, r') => (.error e, r') := by
  rw [map_eq_pure_bind, bind_apply]
  rfl

def raw (n : Nat) : Attempt (List UInt8) := fun r =>
  r.getRaw n

def length : Attempt Nat := fun r =>
  r.getLength

/-- Stops unless a sequence of `n` elements may be there. -/
def check (elementSize n : Nat) : Attempt Unit := fun r =>
  match r.checkSequence elementSize n with
  | .ok _ => (.ok (), r)
  | .error e => (.error e, r)

end Attempt

/-! ## Outcomes of decoding -/

namespace Decoded

variable {α β : Type}

/-- What a caller sees.  A value that was not decoded to its end is left out. -/
def outcome (d : Decoded α) : Except WireError α × Reader :=
  match d.error with
  | some e => (.error e, d.reader)
  | none => (.ok d.value, d.reader)

theorem outcome_map (f : α → β) (d : Decoded α) :
    (d.map f).outcome = match d.outcome with
      | (.ok a, r) => (.ok (f a), r)
      | (.error e, r) => (.error e, r) := by
  cases h : d.error <;> simp [outcome, map, h]

theorem outcome_orKeep (old : α) (d : Decoded α) : (d.orKeep old).outcome = d.outcome := by
  cases h : d.error <;> simp [outcome, orKeep, h]

theorem outcome_andThen (d : Decoded α) (next : α → Reader → Decoded α) :
    (d.andThen next).outcome = match d.outcome with
      | (.ok a, r) => (next a r).outcome
      | (.error e, r) => (.error e, r) := by
  cases h : d.error <;> simp [outcome, andThen, h]

end Decoded

namespace Codec

/-- Decoding into a new value. -/
def attempt (c : Codec) : Attempt Value := fun r =>
  (c.decode r).outcome

/-- Decoding into `old` goes as decoding into a new value does. -/
def Overwrites (c : Codec) (old : Value) : Prop :=
  ∀ r, (c.decodeInto old r).outcome = c.attempt r

theorem overwrites_initial (c : Codec) : c.Overwrites c.initial := fun _ => rfl

theorem scalar_overwrites (p : Primitive) (old : Value) : (scalar p).Overwrites old := by
  intro r
  simp only [attempt, decode, scalar]
  rcases r.getScalar p with ⟨_ | bits, r'⟩ <;> rfl

def attemptEach (c : Codec) : Nat → Attempt (List Value)
  | 0 => pure []
  | n + 1 => do
    let v ← c.attempt
    let vs ← c.attemptEach n
    pure (v :: vs)

theorem decodeEach_outcome (c : Codec) {items : List Value} (h : ∀ v ∈ items, c.Overwrites v)
    (r : Reader) : (c.decodeEach items r).outcome = c.attemptEach items.length r := by
  induction items generalizing r with
  | nil => rfl
  | cons v rest ih =>
    rw [List.forall_mem_cons] at h
    have hrest := ih h.2
    rw [decodeEach_cons, List.length_cons, attemptEach, Attempt.bind_apply, ← h.1 r]
    cases c.decodeInto v r with
    | mk value r' resizes error =>
      cases error with
      | some e => rfl
      | none =>
        show _ = (c.attemptEach rest.length >>= fun vs => pure (value :: vs)) r'
        rw [Attempt.bind_apply, ← hrest]
        dsimp only
        cases c.decodeEach rest r' with
        | mk values r'' resizes' error' => cases error' <;> rfl

end Codec
end RecordWire
