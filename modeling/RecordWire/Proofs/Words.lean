import Mathlib
import RecordWire.Primitive
import RecordWire.Value
import RecordWire.Wire.ByteOrder

/-!
Words and their bytes determine one another, in either byte order.  The word of an integer stands
for a number, which is below zero only if the integer is signed.
-/

namespace RecordWire

theorem ofLittleEndianBytes_littleEndianBytes (size n : Nat) :
    ofLittleEndianBytes (littleEndianBytes size n) = n % 256 ^ size := by
  induction size generalizing n with
  | zero => simp [littleEndianBytes, ofLittleEndianBytes, Nat.mod_one]
  | succ size ih =>
    have hbyte : (UInt8.ofNat (n % 256)).toNat = n % 256 :=
      UInt8.toNat_ofNat_of_lt (Nat.mod_lt n (by decide))
    rw [littleEndianBytes, ofLittleEndianBytes, ih, hbyte, Nat.pow_succ',
      Nat.mod_mul]

theorem ofLittleEndianBytes_lt (bytes : List UInt8) :
    ofLittleEndianBytes bytes < 256 ^ bytes.length := by
  induction bytes with
  | nil => simp [ofLittleEndianBytes]
  | cons b rest ih =>
    have hb : b.toNat < 256 := b.toNat_lt
    rw [ofLittleEndianBytes, List.length_cons, Nat.pow_succ']
    omega

theorem littleEndianBytes_ofLittleEndianBytes (bytes : List UInt8) :
    littleEndianBytes bytes.length (ofLittleEndianBytes bytes) = bytes := by
  induction bytes with
  | nil => rfl
  | cons b rest ih =>
    have hb : b.toNat < 256 := b.toNat_lt
    have hmod : (b.toNat + 256 * ofLittleEndianBytes rest) % 256 = b.toNat := by omega
    have hdiv : (b.toNat + 256 * ofLittleEndianBytes rest) / 256 = ofLittleEndianBytes rest := by
      omega
    rw [ofLittleEndianBytes, List.length_cons, littleEndianBytes, hmod, hdiv, ih,
      UInt8.ofNat_toNat]

namespace ByteOrder

theorem ofWordBytes_lt (order : ByteOrder) (bytes : List UInt8) :
    order.ofWordBytes bytes < 256 ^ bytes.length := by
  cases order with
  | bigEndian => simpa [ofWordBytes] using ofLittleEndianBytes_lt bytes.reverse
  | littleEndian => exact ofLittleEndianBytes_lt bytes

theorem ofWordBytes_wordBytes (order : ByteOrder) {size n : Nat} (h : n < 256 ^ size) :
    order.ofWordBytes (order.wordBytes size n) = n := by
  cases order <;>
    simp [ofWordBytes, wordBytes, ofLittleEndianBytes_littleEndianBytes, Nat.mod_eq_of_lt h]

theorem wordBytes_ofWordBytes (order : ByteOrder) {bytes : List UInt8} {size : Nat}
    (h : bytes.length = size) : order.wordBytes size (order.ofWordBytes bytes) = bytes := by
  subst h
  cases order with
  | bigEndian =>
    have hrev := littleEndianBytes_ofLittleEndianBytes bytes.reverse
    rw [List.length_reverse] at hrev
    rw [ofWordBytes, wordBytes, hrev, List.reverse_reverse]
  | littleEndian => exact littleEndianBytes_ofLittleEndianBytes bytes

end ByteOrder

namespace Primitive

theorem two_pow_width (p : Primitive) : 2 ^ p.width = 256 ^ p.size := by
  rw [Nat.pow_mul]

theorem size_of_isByte {p : Primitive} (h : p.isByte = true) : p.size = 1 := by
  cases p <;> simp_all [isByte, size]

/-- The number that the bits of an integer stand for. -/
def number (p : Primitive) (bits : BitVec p.width) : Int :=
  if p.isSigned then bits.toInt else bits.toNat

/-- A count below zero stands for no elements, any other for as many as it says. -/
theorem sequenceLength_eq (p : Primitive) (bits : BitVec p.width) :
    p.sequenceLength bits = (p.number bits).toNat := by
  rw [sequenceLength, number]
  by_cases hp : p.isSigned = true
  · rw [if_pos hp, if_pos hp]
  · rw [if_neg hp, if_neg hp, Int.toNat_natCast]

/-- A number that is not below zero is its own word. -/
theorem toNat_of_number {p : Primitive} {bits : BitVec p.width} {n : Nat}
    (h : p.number bits = n) : bits.toNat = n := by
  rw [number] at h
  by_cases hp : p.isSigned = true
  · rw [if_pos hp, BitVec.toInt_eq_toNat_cond] at h
    have hlt := bits.isLt
    split at h <;> omega
  · rw [if_neg hp] at h
    exact Int.ofNat.inj h

end Primitive

namespace Value

/-- A byte kept as a scalar is that byte again. -/
theorem toByte_ofByte {p : Primitive} (hp : p.isByte = true) (b : UInt8) :
    (ofByte p b).toByte = b := by
  have hw : 2 ^ p.width = 256 := by
    rw [p.two_pow_width, Primitive.size_of_isByte hp, Nat.pow_one]
  have hb : b.toNat < 256 := b.toNat_lt
  rw [ofByte, toByte, BitVec.toNat_ofNat, hw, Nat.mod_eq_of_lt hb, UInt8.ofNat_toNat]

theorem ofByte_toByte {p : Primitive} (hp : p.isByte = true) (bits : BitVec p.width) :
    ofByte p (scalar p bits).toByte = scalar p bits := by
  have hw : 2 ^ p.width = 256 := by
    rw [p.two_pow_width, Primitive.size_of_isByte hp, Nat.pow_one]
  have hb : bits.toNat < 256 := hw ▸ bits.isLt
  have hbyte : (UInt8.ofNat bits.toNat).toNat = bits.toNat := UInt8.toNat_ofNat_of_lt hb
  rw [ofByte, toByte, hbyte, BitVec.ofNat_toNat, BitVec.setWidth_eq]

end Value
end RecordWire
