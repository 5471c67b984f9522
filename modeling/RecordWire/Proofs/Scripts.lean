import RecordWire.Proofs.RecordReading
import RecordWire.Proofs.Words

/-!
Writers and readers are dual.  Whatever a script of writes puts down, scalars, blocks and lengths in
any order, the script of the matching reads gives back item by item, and nothing is left over.
-/

namespace RecordWire

/-- One call of a writer, with what it writes. -/
inductive Item where
  | scalar (type : Primitive) (bits : BitVec type.width)
  | raw (block : List UInt8)
  | length (n : Nat)

/-- One call of a reader. -/
inductive Request where
  | scalar (type : Primitive)
  | raw (size : Nat)
  | length

namespace Item

/-- The read that matches a write. -/
def request : Item → Request
  | scalar type _ => .scalar type
  | raw block => .raw block.length
  | length _ => .length

def bytes (order : ByteOrder) : Item → List UInt8
  | scalar type bits => order.wordBytes type.size bits.toNat
  | raw block => block
  | length n => order.wordBytes 4 n

/-- A length has to fit in 32 bits to be written, and is read back only within the limit. -/
def Fits (limit : Nat) : Item → Prop
  | length n => n < 2 ^ 32 ∧ n ≤ limit
  | _ => True

end Item

/-! ## Scripts of writes -/

namespace Writer

def put (w : Writer) : Item → Except WireError Writer
  | .scalar type bits => .ok (w.putScalar type bits)
  | .raw block => .ok (w.putRaw block)
  | .length n => w.putLength n

/-- Writes the items in turn, stopping at the first that cannot be written. -/
def putAll (w : Writer) : List Item → Except WireError Writer
  | [] => .ok w
  | item :: rest => do
    let w' ← w.put item
    w'.putAll rest

theorem put_eq (w : Writer) {limit : Nat} {item : Item} (h : item.Fits limit) :
    w.put item = .ok (w.putRaw (item.bytes w.order)) := by
  cases item with
  | scalar type bits => rfl
  | raw block => rfl
  | length n => exact if_pos h.1

theorem putAll_eq (w : Writer) {limit : Nat} {script : List Item}
    (h : ∀ item ∈ script, item.Fits limit) :
    w.putAll script = .ok (w.putRaw (script.flatMap (Item.bytes w.order))) := by
  induction script generalizing w with
  | nil => rw [putAll, List.flatMap_nil, putRaw_nil]
  | cons item rest ih =>
    have hitem := w.put_eq (h item (List.mem_cons_self ..))
    have hrest := ih (w.putRaw (item.bytes w.order)) fun i hi => h i (List.mem_cons_of_mem _ hi)
    rw [putAll, hitem, List.flatMap_cons, ← putRaw_putRaw]
    exact hrest

end Writer

/-! ## Scripts of reads -/

namespace Reader

variable {r : Reader}

def get (r : Reader) : Request → Except WireError Item × Reader
  | .scalar type => (r.getScalar type).map (Except.map (Item.scalar type)) id
  | .raw size => (r.getRaw size).map (Except.map Item.raw) id
  | .length => r.getLength.map (Except.map Item.length) id

/-- Reads one item for each request, stopping at the first read that fails. -/
def getAll (r : Reader) : List Request → Except WireError (List Item) × Reader
  | [] => (.ok [], r)
  | request :: rest =>
    match r.get request with
    | (.ok item, r') => (r'.getAll rest).map (Except.map (item :: ·)) id
    | (.error e, r') => (.error e, r')

theorem getRaw_of_starts {bytes : List UInt8} (h : bytes <+: r.rest) :
    r.getRaw bytes.length = (.ok bytes, r.skip bytes.length) := by
  have hlen := h.length_le
  rw [getRaw, remaining_eq, if_neg (by omega), ← List.prefix_iff_eq_take.mp h]
  rfl

theorem getRaw_word {size n : Nat} (h : r.order.wordBytes size n <+: r.rest) :
    r.getRaw size = (.ok (r.order.wordBytes size n), r.skip size) := by
  have hraw := getRaw_of_starts h
  rwa [ByteOrder.length_wordBytes] at hraw

/-- A read that matches a write takes just the bytes that were written. -/
theorem get_request {item : Item} (hfits : item.Fits r.limit)
    (h : item.bytes r.order <+: r.rest) :
    r.get item.request = (.ok item, r.skip (item.bytes r.order).length) := by
  cases item with
  | scalar type bits =>
    have hlt : bits.toNat < 256 ^ type.size := by
      rw [← type.two_pow_width]
      exact bits.isLt
    have hscalar : r.getScalar type = (.ok bits, r.skip type.size) := by
      rw [getScalar, getRaw_word h]
      simp only [ByteOrder.ofWordBytes_wordBytes _ hlt, BitVec.ofNat_toNat, BitVec.setWidth_eq]
    rw [Item.request, get, hscalar, Item.bytes, ByteOrder.length_wordBytes]
    rfl
  | raw block =>
    have hraw : r.getRaw block.length = (.ok block, r.skip block.length) := getRaw_of_starts h
    rw [Item.request, get, hraw]
    rfl
  | length n =>
    have hlt : n < 256 ^ 4 := hfits.1
    have hlength : r.getLength = (.ok n, r.skip 4) := by
      rw [getLength, getRaw_word h]
      simp only [ByteOrder.ofWordBytes_wordBytes _ hlt, checkLength, skip_limit,
        if_neg (Nat.not_lt.mpr hfits.2)]
    rw [Item.request, get, hlength, Item.bytes, ByteOrder.length_wordBytes]
    rfl

theorem getAll_requests {script : List Item} (hfits : ∀ item ∈ script, item.Fits r.limit)
    (h : script.flatMap (Item.bytes r.order) <+: r.rest) :
    r.getAll (script.map Item.request) =
      (.ok script, r.skip (script.flatMap (Item.bytes r.order)).length) := by
  induction script generalizing r with
  | nil => rfl
  | cons item rest ih =>
    rw [List.flatMap_cons] at h ⊢
    have hitem := get_request (hfits item (List.mem_cons_self ..))
      ((List.prefix_append ..).trans h)
    -- The reader is past the first item, and the others are in front of it.
    let r' := r.skip (item.bytes r.order).length
    have hrest : rest.flatMap (Item.bytes r'.order) <+: r'.rest := by
      have hdrop := h.drop (item.bytes r.order).length
      rwa [List.drop_left, ← rest_skip] at hdrop
    have hfits' : ∀ i ∈ rest, i.Fits r'.limit := fun i hi => hfits i (List.mem_cons_of_mem _ hi)
    have hread := ih hfits' hrest
    rw [List.map_cons, getAll, hitem]
    show (r'.getAll (rest.map Item.request)).map (Except.map (item :: ·)) id = _
    rw [hread, List.length_append, ← skip_skip]
    rfl

end Reader

/-- In either byte order a script of writes succeeds, and the matching reads give back all that was
written, in order, and leave nothing. -/
theorem getAll_putAll (order : ByteOrder) (limit : Nat) (script : List Item)
    (hlength : ∀ n, .length n ∈ script → n < 2 ^ 32 ∧ n ≤ limit) :
    ∃ w r, ({ order := order } : Writer).putAll script = .ok w ∧
      ({ buffer := w.bytes, order := order, limit := limit } : Reader).getAll
        (script.map Item.request) = (.ok script, r) ∧ r.isEmpty = true := by
  have hfits : ∀ item ∈ script, item.Fits limit := by
    intro item hitem
    cases item with
    | scalar => trivial
    | raw => trivial
    | length n => exact hlength n hitem
  have hwritten := Writer.putAll_eq { order := order } hfits
  refine ⟨_, _, hwritten, Reader.getAll_requests hfits List.prefix_rfl, ?_⟩
  simp [Reader.isEmpty, Reader.remaining, Reader.skip, Writer.putRaw]

namespace Sample

/-- A negative number, a NaN with a payload, a block that looks like a length, and two lengths. -/
def script : List Item :=
  [.length 0xfffffffe, .scalar .int16 (-2), .raw [0, 0, 0, 9], .scalar .double 0x7ff4000000000001,
    .length 3, .raw [], .scalar .char 0x41]

end Sample

theorem script_read_back :
    ∃ w r, ({ order := .littleEndian } : Writer).putAll Sample.script = .ok w ∧
      w.bytes = [0xfe, 0xff, 0xff, 0xff, 0xfe, 0xff, 0, 0, 0, 9, 1, 0, 0, 0, 0, 0, 0xf4, 0x7f,
        3, 0, 0, 0, 0x41] ∧
      ({ buffer := w.bytes, order := .littleEndian, limit := 0xffffffff } : Reader).getAll
        [.length, .scalar .int16, .raw 4, .scalar .double, .length, .raw 0, .scalar .char] =
        (.ok Sample.script, r) ∧ r.isEmpty = true := by
  obtain ⟨w, r, hw, hr, hempty⟩ :=
    getAll_putAll .littleEndian 0xffffffff Sample.script (by simp [Sample.script])
  have hbytes : ({ order := .littleEndian } : Writer).putAll Sample.script = .ok
      { order := .littleEndian
        bytes := [0xfe, 0xff, 0xff, 0xff, 0xfe, 0xff, 0, 0, 0, 9, 1, 0, 0, 0, 0, 0, 0xf4, 0x7f,
          3, 0, 0, 0, 0x41] } := by
    rfl
  rw [hbytes] at hw
  cases hw
  exact ⟨_, r, hbytes, rfl, hr, hempty⟩

end RecordWire
