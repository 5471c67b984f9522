import RecordWire.Proofs.Scripts

/-!
Where a reader stands while it is used.  An operation takes the bytes it answers with or fails and
takes nothing, except that a length over the limit is taken before it is refused.  So the position
stays inside the buffer and never goes back, whatever is asked of the reader and whatever fails.
-/

namespace RecordWire

/-! ## One read -/

/-- The bytes that a read takes. -/
def Request.size : Request → Nat
  | scalar type => type.size
  | raw size => size
  | length => 4

/-- The item is what a read in this place is to give: of the kind that was asked for, made of just
the bytes in front of the reader, and within the limit if it is a length. -/
structure Item.LiesAt (item : Item) (r : Reader) (request : Request) : Prop where
  request_eq : item.request = request
  bytes_eq : item.bytes r.order = (r.buffer.drop r.position).take request.size
  fits : item.Fits r.limit

namespace Reader

variable {r : Reader}

theorem getRaw_cases (r : Reader) (n : Nat) :
    (r.rest.length < n ∧ r.getRaw n = (.error (.bufferTooShort n r.remaining), r)) ∨
      (n ≤ r.rest.length ∧ r.getRaw n = (.ok (r.rest.take n), r.skip n)) := by
  rw [getRaw, remaining_eq]
  by_cases h : r.rest.length < n
  · rw [if_pos h]
    exact .inl ⟨h, rfl⟩
  · rw [if_neg h]
    exact .inr ⟨Nat.not_lt.mp h, rfl⟩

/-- The bytes in front of the reader are those of the number they stand for. -/
theorem wordBytes_rest {n : Nat} (h : n ≤ r.rest.length) :
    r.order.wordBytes n (r.order.ofWordBytes (r.rest.take n)) = r.rest.take n :=
  r.order.wordBytes_ofWordBytes (List.length_take_of_le h)

theorem ofWordBytes_rest_lt {n : Nat} (h : n ≤ r.rest.length) :
    r.order.ofWordBytes (r.rest.take n) < 256 ^ n := by
  have hlt := r.order.ofWordBytes_lt (r.rest.take n)
  rwa [List.length_take_of_le h] at hlt

/-- The number that the bytes in front of the reader stand for fits in a scalar of that size. -/
theorem toNat_scalar_rest {type : Primitive} (h : type.size ≤ r.rest.length) :
    (BitVec.ofNat type.width (r.order.ofWordBytes (r.rest.take type.size))).toNat =
      r.order.ofWordBytes (r.rest.take type.size) := by
  rw [BitVec.toNat_ofNat, type.two_pow_width]
  exact Nat.mod_eq_of_lt (ofWordBytes_rest_lt h)

/-- All that a read can do. -/
theorem get_cases (r : Reader) (request : Request) :
    (r.rest.length < request.size ∧
      r.get request = (.error (.bufferTooShort request.size r.remaining), r)) ∨
    (request.size ≤ r.rest.length ∧ ∃ item, item.LiesAt r request ∧
      r.get request = (.ok item, r.skip request.size)) ∨
    (request.size ≤ r.rest.length ∧ request = .length ∧ ∃ n, r.limit < n ∧
      r.order.wordBytes 4 n = r.rest.take 4 ∧
      r.get request = (.error (.sequenceTooLong n r.limit), r.skip request.size)) := by
  rcases r.getRaw_cases request.size with ⟨hshort, hraw⟩ | ⟨hlong, hraw⟩
  · refine .inl ⟨hshort, ?_⟩
    cases request <;> simp only [Request.size] at hraw ⊢ <;>
      simp only [get, getScalar, getLength, hraw] <;> rfl
  cases request with
  | scalar type =>
    simp only [Request.size] at hlong hraw ⊢
    let bits := BitVec.ofNat type.width (r.order.ofWordBytes (r.rest.take type.size))
    refine .inr (.inl ⟨hlong, .scalar type bits, ⟨rfl, ?_, trivial⟩, ?_⟩)
    · rw [Item.bytes, toNat_scalar_rest hlong]
      exact wordBytes_rest hlong
    · simp only [get, getScalar, hraw]
      rfl
  | raw size =>
    simp only [Request.size] at hlong hraw ⊢
    refine .inr (.inl ⟨hlong, .raw (r.rest.take size), ⟨?_, rfl, trivial⟩, ?_⟩)
    · rw [Item.request, List.length_take_of_le hlong]
    · rw [get, hraw]
      rfl
  | length =>
    simp only [Request.size] at hlong hraw ⊢
    -- The four bytes are taken before the length is compared with the limit.
    have hget : r.getLength =
        ((r.skip 4).checkLength (r.order.ofWordBytes (r.rest.take 4)), r.skip 4) := by
      rw [getLength, hraw]
    have hbytes := wordBytes_rest hlong
    rw [get, hget, checkLength, skip_limit]
    by_cases hlimit : r.limit < r.order.ofWordBytes (r.rest.take 4)
    · rw [if_pos hlimit]
      exact .inr (.inr ⟨hlong, trivial, _, hlimit, hbytes, rfl⟩)
    · rw [if_neg hlimit]
      refine .inr (.inl ⟨hlong, .length _, ⟨rfl, hbytes, ?_⟩, rfl⟩)
      exact ⟨ofWordBytes_rest_lt hlong, Nat.not_lt.mp hlimit⟩

/-! ## One operation -/

/-- What can be asked of a reader and may fail: to read, or to check a length, which takes
nothing. -/
inductive Operation where
  | read (request : Request)
  | checkLength (n : Nat)
  | checkSequence (elementSize n : Nat)

inductive Answer where
  | read (item : Item)
  | checked (n : Nat)

def perform (r : Reader) : Operation → Except WireError Answer × Reader
  | .read request => (r.get request).map (Except.map .read) id
  | .checkLength n => ((r.checkLength n).map .checked, r)
  | .checkSequence elementSize n => ((r.checkSequence elementSize n).map .checked, r)

namespace Operation

/-- The bytes that an operation takes when it succeeds. -/
def size : Operation → Nat
  | read request => request.size
  | checkLength _ | checkSequence _ _ => 0

/-- The bytes that an operation has taken when it fails. -/
def sizeOnError : Operation → WireError → Nat
  | read .length, .sequenceTooLong _ _ => 4
  | _, _ => 0

/-- The answer is right for the operation in this place. -/
inductive Answered (r : Reader) : Operation → Answer → Prop
  | read {request : Request} {item : Item} : item.LiesAt r request →
    Answered r (.read request) (.read item)
  | checkLength {n : Nat} : n ≤ r.limit → Answered r (.checkLength n) (.checked n)
  | checkSequence {elementSize n : Nat} : n ≤ r.limit →
    saturate (n * elementSize) ≤ r.remaining →
    Answered r (.checkSequence elementSize n) (.checked n)

/-- The error is a reason for the operation to fail in this place. -/
inductive Refused (r : Reader) : Operation → WireError → Prop
  | short {request : Request} : r.remaining < request.size →
    Refused r (.read request) (.bufferTooShort request.size r.remaining)
  | overlong {n : Nat} : r.order.wordBytes 4 n = (r.buffer.drop r.position).take 4 →
    r.limit < n → Refused r (.read .length) (.sequenceTooLong n r.limit)
  | checkLength {n : Nat} : r.limit < n →
    Refused r (.checkLength n) (.sequenceTooLong n r.limit)
  | checkSequence {elementSize n : Nat} : r.limit < n →
    Refused r (.checkSequence elementSize n) (.sequenceTooLong n r.limit)
  | tooFew {elementSize n : Nat} : r.remaining < saturate (n * elementSize) →
    Refused r (.checkSequence elementSize n)
      (.bufferTooShort (saturate (n * elementSize)) r.remaining)

end Operation

theorem checkLength_cases (r : Reader) (n : Nat) :
    (n ≤ r.limit ∧ r.checkLength n = .ok n) ∨
      (r.limit < n ∧ r.checkLength n = .error (.sequenceTooLong n r.limit)) := by
  rw [checkLength]
  by_cases h : r.limit < n
  · rw [if_pos h]
    exact .inr ⟨h, rfl⟩
  · rw [if_neg h]
    exact .inl ⟨Nat.not_lt.mp h, rfl⟩

/-- An operation takes bytes that are there.  It takes its size when it succeeds, and when it fails
only a length over the limit has been taken. -/
theorem perform_cases (r : Reader) (op : Operation) :
    (op.size ≤ r.rest.length ∧ ∃ answer, op.Answered r answer ∧
      r.perform op = (.ok answer, r.skip op.size)) ∨
    ∃ e, op.sizeOnError e ≤ r.rest.length ∧ op.Refused r e ∧
      r.perform op = (.error e, r.skip (op.sizeOnError e)) := by
  cases op with
  | read request =>
    rw [perform]
    rcases r.get_cases request with
      ⟨hshort, hget⟩ | ⟨hsize, item, hitem, hget⟩ | ⟨hsize, rfl, n, hlimit, hbytes, hget⟩
    · have hzero : (Operation.read request).sizeOnError
          (.bufferTooShort request.size r.remaining) = 0 := by
        cases request <;> rfl
      refine .inr ⟨_, ?_, .short (r.remaining_eq ▸ hshort), ?_⟩
      · exact hzero ▸ Nat.zero_le _
      · rw [hzero, hget]
        rfl
    · exact .inl ⟨hsize, .read item, .read hitem, by rw [hget]; rfl⟩
    · exact .inr ⟨.sequenceTooLong n r.limit, hsize, .overlong hbytes hlimit, by rw [hget]; rfl⟩
  | checkLength n =>
    rw [perform]
    rcases r.checkLength_cases n with ⟨hlimit, h⟩ | ⟨hlimit, h⟩
    · exact .inl ⟨Nat.zero_le _, .checked n, .checkLength hlimit, by rw [h]; rfl⟩
    · exact .inr ⟨_, Nat.zero_le _, .checkLength hlimit, by rw [h]; rfl⟩
  | checkSequence elementSize n =>
    rw [perform, checkSequence]
    rcases r.checkLength_cases n with ⟨hlimit, h⟩ | ⟨hlimit, h⟩
    · simp only [h]
      by_cases hfew : r.remaining < saturate (n * elementSize)
      · rw [if_pos hfew]
        exact .inr ⟨_, Nat.zero_le _, .tooFew hfew, rfl⟩
      · rw [if_neg hfew]
        exact .inl ⟨Nat.zero_le _, .checked n, .checkSequence hlimit (Nat.not_lt.mp hfew), rfl⟩
    · exact .inr ⟨_, Nat.zero_le _, .checkSequence hlimit, by rw [h]; rfl⟩

/-! ## Many operations -/

/-- The reader after some operations.  One that fails does not keep the next from being tried. -/
def after (r : Reader) (ops : List Operation) : Reader :=
  ops.foldl (fun r op => (r.perform op).2) r

/-- An operation moves the reader forward over bytes that are there and changes nothing else. -/
theorem exists_skip_of_perform (r : Reader) (op : Operation) :
    ∃ n ≤ r.rest.length, (r.perform op).2 = r.skip n := by
  rcases r.perform_cases op with ⟨hsize, answer, -, h⟩ | ⟨e, hsize, -, h⟩
  · exact ⟨_, hsize, by rw [h]⟩
  · exact ⟨_, hsize, by rw [h]⟩

theorem exists_skip_of_after (r : Reader) (ops : List Operation) :
    ∃ n ≤ r.rest.length, r.after ops = r.skip n := by
  induction ops generalizing r with
  | nil => exact ⟨0, Nat.zero_le _, rfl⟩
  | cons op ops ih =>
    obtain ⟨m, hm, hop⟩ := r.exists_skip_of_perform op
    obtain ⟨n, hn, hops⟩ := ih (r.skip m)
    rw [rest_skip, List.length_drop] at hn
    refine ⟨m + n, by omega, ?_⟩
    rw [after, List.foldl_cons, hop, ← skip_skip]
    exact hops

end Reader

/-- However a reader is used, its position stays inside the buffer and does not go back.  A read
that succeeds has moved by the bytes it gives, which are those in front of the reader.  One that
fails has not moved, unless it is a length that is over the limit. -/
theorem cursor_stays_in_buffer (buffer : List UInt8) (order : ByteOrder) (limit : Nat)
    (ops : List Reader.Operation) (op : Reader.Operation) :
    let r := ({ buffer := buffer, order := order, limit := limit } : Reader).after ops
    r.buffer = buffer ∧ r.order = order ∧ r.limit = limit ∧
      r.position ≤ buffer.length ∧ r.position + r.remaining = buffer.length ∧
      r.position ≤ (r.perform op).2.position ∧
      match (r.perform op).1 with
      | .ok answer => op.Answered r answer ∧ (r.perform op).2.position = r.position + op.size
      | .error e => op.Refused r e ∧
        (r.perform op).2.position = r.position + op.sizeOnError e := by
  obtain ⟨n, hn, hr⟩ :=
    ({ buffer := buffer, order := order, limit := limit } : Reader).exists_skip_of_after ops
  have hbound : n ≤ buffer.length := by simpa [Reader.rest] using hn
  rw [hr]
  generalize hskip : ({ buffer, order, limit } : Reader).skip n = r
  have hposition : r.position = n := by simp [← hskip, Reader.skip]
  have hbuffer : r.buffer = buffer := by simp [← hskip, Reader.skip]
  refine ⟨hbuffer, by simp [← hskip, Reader.skip], by simp [← hskip, Reader.skip],
    hposition ▸ hbound, ?_, ?_⟩
  · rw [Reader.remaining, hbuffer, hposition]
    omega
  · rcases r.perform_cases op with ⟨-, answer, hanswer, h⟩ | ⟨e, -, hrefused, h⟩
    · rw [h]
      exact ⟨Nat.le_add_right .., hanswer, rfl⟩
    · rw [h]
      exact ⟨Nat.le_add_right .., hrefused, rfl⟩

/-- Of a block that is too long, a length over the limit and a check that fails, only the length
moves the reader. -/
example : (({ buffer := [0, 0, 0, 5, 7], order := .bigEndian, limit := 4 } : Reader).after
    [.read (.raw 9), .read .length, .checkLength 5]).position = 4 := by
  decide

end RecordWire
