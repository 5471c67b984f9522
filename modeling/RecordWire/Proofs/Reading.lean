import RecordWire.Proofs.Attempt

/-!
Decoding as reading.  A decode that comes to its end is known by the value it gives and by where it
leaves the reader, and one that does not by its error.  `Reading` is the monad of such results: in
it the codec of a record is a plain walk over its fields, whatever value it decodes into.  A
reading is an attempt of which the place of failure is not known.
-/

namespace RecordWire

/-! ## Readers -/

namespace Reader

def skip (r : Reader) (n : Nat) : Reader :=
  { r with position := r.position + n }

variable (r : Reader) (m n : Nat)

@[simp] theorem skip_limit : (r.skip n).limit = r.limit := rfl

@[simp] theorem skip_skip : (r.skip m).skip n = r.skip (m + n) := by
  simp [skip, Nat.add_assoc]

@[simp] theorem rest_skip : (r.skip n).rest = r.rest.drop n := by
  simp [skip, rest]

theorem remaining_eq : r.remaining = r.rest.length := by
  simp [remaining, rest]

end Reader

/-! ## The monad -/

theorem bind_eq_ok {ε α β : Type} {x : Except ε α} {f : α → Except ε β} {b : β} :
    x >>= f = .ok b ↔ ∃ a, x = .ok a ∧ f a = .ok b := by
  cases x <;> simp [bind, Except.bind]

abbrev Reading (α : Type) : Type :=
  StateT Reader (Except WireError) α

namespace Reading

variable {α β : Type}

theorem bind_apply (x : Reading α) (f : α → Reading β) (r : Reader) :
    (x >>= f) r = match x r with
      | .ok (a, r') => f a r'
      | .error e => .error e := by
  show (x r >>= fun p => f p.1 p.2) = _
  cases x r <;> rfl

theorem pure_apply (a : α) (r : Reader) : (pure a : Reading α) r = .ok (a, r) := rfl

theorem map_apply (f : α → β) (x : Reading α) (r : Reader) :
    (f <$> x) r = match x r with
      | .ok (a, r') => .ok (f a, r')
      | .error e => .error e := by
  rw [map_eq_pure_bind, bind_apply]
  rfl

theorem bind_eq_ok {x : Reading α} {f : α → Reading β} {r r' : Reader} {b : β} :
    (x >>= f) r = .ok (b, r') ↔ ∃ a r₁, x r = .ok (a, r₁) ∧ f a r₁ = .ok (b, r') := by
  rw [bind_apply]
  rcases x r with e | ⟨a, r₁⟩
  · simp
  · simp [and_assoc]

theorem map_eq_ok {f : α → β} {x : Reading α} {r r' : Reader} {b : β} :
    (f <$> x) r = .ok (b, r') ↔ ∃ a, x r = .ok (a, r') ∧ f a = b := by
  rw [map_apply]
  rcases x r with e | ⟨a, r₁⟩
  · simp
  · simp only [Except.ok.injEq, Prod.mk.injEq]
    exact ⟨fun h => ⟨a, ⟨rfl, h.2⟩, h.1⟩, fun ⟨_, h, hb⟩ => ⟨h.1 ▸ hb, h.2⟩⟩

/-- A read of the reader. -/
def ofRead (read : Reader → Except WireError α × Reader) : Reading α := fun r =>
  match read r with
  | (.ok a, r') => .ok (a, r')
  | (.error e, _) => .error e

def raw (n : Nat) : Reading (List UInt8) :=
  ofRead (·.getRaw n)

def length : Reading Nat :=
  ofRead (·.getLength)

/-- Stops unless a sequence of `n` elements may be there. -/
def check (elementSize n : Nat) : Reading Unit := fun r =>
  match r.checkSequence elementSize n with
  | .ok _ => .ok ((), r)
  | .error e => .error e

theorem ofRead_pure (a : α) : ofRead (pure a : Attempt α) = pure a := rfl

theorem ofRead_bind (x : Attempt α) (f : α → Attempt β) :
    ofRead (x >>= f : Attempt β) = ofRead x >>= fun a => ofRead (f a) := by
  funext r
  rw [bind_apply]
  simp only [ofRead, Attempt.bind_apply]
  rcases x r with ⟨_ | a, r'⟩ <;> rfl

theorem ofRead_map (f : α → β) (x : Attempt α) : ofRead (f <$> x : Attempt β) = f <$> ofRead x := by
  rw [map_eq_pure_bind, map_eq_pure_bind]
  exact ofRead_bind x fun a => pure (f a)

theorem ofRead_check (elementSize n : Nat) :
    ofRead (Attempt.check elementSize n) = check elementSize n := by
  funext r
  rw [ofRead, Attempt.check, check]
  cases r.checkSequence elementSize n <;> rfl

/-! Everything is read by four reads: raw bytes, a word of so many bytes, and two that take nothing
and stop if a length is over the limit or if too few bytes are left. -/

theorem raw_apply (n : Nat) (r : Reader) :
    raw n r = if r.rest.length < n then .error (.bufferTooShort n r.rest.length)
      else .ok (r.rest.take n, r.skip n) := by
  rw [raw, ofRead, Reader.getRaw, Reader.remaining_eq]
  by_cases h : r.rest.length < n
  · rw [if_pos h, if_pos h]
  · rw [if_neg h, if_neg h]
    rfl

theorem raw_eq_ok {n : Nat} {bytes : List UInt8} {r r' : Reader} :
    raw n r = .ok (bytes, r') ↔ bytes <+: r.rest ∧ bytes.length = n ∧ r' = r.skip n := by
  rw [raw_apply]
  by_cases h : r.rest.length < n
  · rw [if_pos h]
    refine ⟨nofun, fun ⟨hb, hn, _⟩ => ?_⟩
    have := hb.length_le
    omega
  · rw [if_neg h]
    constructor
    · intro heq
      cases heq
      exact ⟨List.take_prefix .., List.length_take_of_le (Nat.not_lt.mp h), rfl⟩
    · rintro ⟨hb, rfl, rfl⟩
      rw [← List.prefix_iff_eq_take.mp hb]

def word (size : Nat) : Reading Nat := fun r =>
  (r.order.ofWordBytes <$> raw size) r

theorem word_eq_ok {size n : Nat} {r r' : Reader} :
    word size r = .ok (n, r') ↔ ∃ bytes, bytes <+: r.rest ∧ bytes.length = size ∧
      r' = r.skip size ∧ r.order.ofWordBytes bytes = n := by
  rw [word, map_eq_ok]
  simp only [raw_eq_ok, and_assoc]

def bounded (n : Nat) : Reading Unit := fun r =>
  if r.limit < n then .error (.sequenceTooLong n r.limit) else .ok ((), r)

def enough (n : Nat) : Reading Unit := fun r =>
  if r.rest.length < n then .error (.bufferTooShort n r.rest.length) else .ok ((), r)

theorem bounded_eq_ok {n : Nat} {u : Unit} {r r' : Reader} :
    bounded n r = .ok (u, r') ↔ n ≤ r.limit ∧ r = r' := by
  rw [bounded]
  by_cases h : r.limit < n
  · simp only [if_pos h, reduceCtorEq, false_iff, not_and]
    omega
  · simp only [if_neg h, Except.ok.injEq, Prod.mk.injEq, true_and, Nat.not_lt.mp h]

theorem enough_eq_ok {n : Nat} {u : Unit} {r r' : Reader} :
    enough n r = .ok (u, r') ↔ n ≤ r.rest.length ∧ r = r' := by
  rw [enough]
  by_cases h : r.rest.length < n
  · simp only [if_pos h, reduceCtorEq, false_iff, not_and]
    omega
  · simp only [if_neg h, Except.ok.injEq, Prod.mk.injEq, true_and, Nat.not_lt.mp h]

theorem length_eq :
    length = (do
      let n ← word 4
      bounded n
      pure n) := by
  funext r
  rw [bind_apply, word, map_apply, length, raw, ofRead, ofRead]
  simp only [Reader.getLength]
  rcases r.getRaw 4 with ⟨_ | bytes, r'⟩
  · rfl
  · simp only [bind_apply, bounded, Reader.checkLength]
    by_cases h : r'.limit < r.order.ofWordBytes bytes
    · rw [if_pos h, if_pos h]
    · rw [if_neg h, if_neg h]
      rfl

theorem check_eq (elementSize n : Nat) :
    check elementSize n = (do
      bounded n
      enough (saturate (n * elementSize))) := by
  funext r
  rw [bind_apply, check, Reader.checkSequence, Reader.checkLength, bounded]
  by_cases h : r.limit < n
  · rw [if_pos h, if_pos h]
  · rw [if_neg h, if_neg h]
    simp only [enough, Reader.remaining_eq]
    by_cases h' : r.rest.length < saturate (n * elementSize)
    · rw [if_pos h', if_pos h']
    · rw [if_neg h', if_neg h']

theorem check_eq_ok {elementSize n : Nat} {u : Unit} {r r' : Reader} :
    check elementSize n r = .ok (u, r') ↔
      n ≤ r.limit ∧ saturate (n * elementSize) ≤ r.rest.length ∧ r = r' := by
  rw [check_eq, bind_eq_ok]
  constructor
  · rintro ⟨_, r₁, hbounded, henough⟩
    obtain ⟨hn, rfl⟩ := bounded_eq_ok.mp hbounded
    obtain ⟨hn', rfl⟩ := enough_eq_ok.mp henough
    exact ⟨hn, hn', rfl⟩
  · rintro ⟨hn, hn', rfl⟩
    exact ⟨(), r, bounded_eq_ok.mpr ⟨hn, rfl⟩, enough_eq_ok.mpr ⟨hn', rfl⟩⟩

end Reading

/-! ## Results of decoding -/

namespace Decoded

/-- The value and the reader, or the error. -/
def result {α : Type} (d : Decoded α) : Except WireError (α × Reader) :=
  match d.error with
  | some e => .error e
  | none => .ok (d.value, d.reader)

end Decoded

namespace Codec

/-- Decoding into a new value. -/
def read (c : Codec) : Reading Value := fun r =>
  (c.decode r).result

def readEach (c : Codec) : Nat → Reading (List Value)
  | 0 => pure []
  | n + 1 => do
    let v ← c.read
    let vs ← c.readEach n
    pure (v :: vs)

theorem ofRead_attempt (c : Codec) : Reading.ofRead c.attempt = c.read := by
  funext r
  rw [Reading.ofRead, attempt, read, Decoded.outcome, Decoded.result]
  cases (c.decode r).error <;> rfl

theorem ofRead_attemptEach (c : Codec) (n : Nat) :
    Reading.ofRead (c.attemptEach n) = c.readEach n := by
  induction n with
  | zero => rfl
  | succ n ih => simp only [attemptEach, readEach, Reading.ofRead_bind, ofRead_attempt, ih,
      Reading.ofRead_pure]

theorem length_of_readEach {c : Codec} {n : Nat} {vs : List Value} {r r' : Reader}
    (h : c.readEach n r = .ok (vs, r')) : vs.length = n := by
  induction n generalizing vs r with
  | zero =>
    cases h
    rfl
  | succ n ih =>
    obtain ⟨v, r₁, -, h⟩ := Reading.bind_eq_ok.mp h
    obtain ⟨vs', r₂, hvs, h⟩ := Reading.bind_eq_ok.mp h
    cases h
    rw [List.length_cons, ih hvs]

theorem scalar_read (p : Primitive) :
    (scalar p).read = (fun n => .scalar p (BitVec.ofNat p.width n)) <$> Reading.word p.size := by
  funext r
  rw [Reading.map_apply, Reading.word, Reading.map_apply, Reading.raw, Reading.ofRead]
  simp only [read, decode, scalar, Reader.getScalar]
  rcases r.getRaw p.size with ⟨_ | bytes, r'⟩ <;> rfl

theorem decodeBytes_eq (c : Codec) (order : ByteOrder) (bytes : List UInt8) :
    c.decodeBytes order bytes = match c.read { buffer := bytes, order := order } with
      | .ok (v, r) => if r.isEmpty then .ok v else .error (.trailingBytes r.remaining)
      | .error e => .error e := by
  rw [decodeBytes, read, Decoded.result]
  cases (c.decode { buffer := bytes, order := order }).error <;> rfl

theorem decodeBytes_eq_ok {c : Codec} {order : ByteOrder} {bytes : List UInt8} {v : Value} :
    c.decodeBytes order bytes = .ok v ↔
      ∃ r, c.read { buffer := bytes, order := order } = .ok (v, r) ∧ r.rest = [] := by
  rw [decodeBytes_eq]
  rcases c.read { buffer := bytes, order := order } with e | ⟨u, r⟩
  · simp
  · have hempty : r.isEmpty = true ↔ r.rest = [] := by
      rw [Reader.isEmpty, beq_iff_eq, Reader.remaining_eq, List.length_eq_zero_iff]
    simp only [Except.ok.injEq, Prod.mk.injEq, and_assoc]
    by_cases h : r.rest = []
    · rw [if_pos (hempty.mpr h)]
      simp [h]
    · rw [if_neg (mt hempty.mp h)]
      simp [h]

end Codec
end RecordWire
