import PackedColumn.Size

/-!
# Offset widths and their byte encoding

An offset is a signed integer of 32 or 64 bits, stored lowest byte first in
two's complement whatever the machine. `OffsetWidth` names the two.

* `length_encode`: an encoding has the bytes of its width.
* `decode_encode`: an offset of the width reads back.
* `encode_decode`: encoding what was read gives the same bytes.
-/

namespace PackedColumn

/-- How wide the entries of an offset table are. -/
inductive OffsetWidth where
  | narrow
  | wide
  deriving Repr, DecidableEq

namespace OffsetWidth

/-- The number of bytes of one offset. -/
def bytes : OffsetWidth → Nat
  | narrow => 4
  | wide => 8

/-- The number of values that the bytes of one offset can take. -/
def modulus : OffsetWidth → Nat
  | narrow => 0x100000000
  | wide => 0x10000000000000000

/-- The largest offset. -/
def max : OffsetWidth → Nat
  | narrow => 0x7fffffff
  | wide => 0x7fffffffffffffff

/-- Whether an integer is an offset of this width. -/
def Holds (w : OffsetWidth) (v : Int) : Prop := -(w.max + 1 : Int) ≤ v ∧ v ≤ w.max

instance (w : OffsetWidth) (v : Int) : Decidable (w.Holds v) := by
  unfold Holds; infer_instance

/-- The lowest `k` bytes of a number, lowest first. -/
def lowBytes : Nat → Nat → List UInt8
  | 0, _ => []
  | k + 1, n => UInt8.ofNat (n % 256) :: lowBytes k (n / 256)

/-- The number whose bytes, lowest first, are given. -/
def ofLowBytes : List UInt8 → Nat
  | [] => 0
  | b :: bs => b.toNat + 256 * ofLowBytes bs

/-- The bytes of an offset; of any other integer, those of the offset it wraps to. -/
def encode (w : OffsetWidth) (v : Int) : List UInt8 := lowBytes w.bytes (v % w.modulus).toNat

/-- The offset with the given bytes. -/
def decode (w : OffsetWidth) (bs : List UInt8) : Int := (ofLowBytes bs : Int).bmod w.modulus

/-- The offset in the first bytes of a byte string, if it is long enough. -/
def read? (w : OffsetWidth) (bs : List UInt8) : Option Int :=
  if w.bytes ≤ bs.length then some (w.decode (bs.take w.bytes)) else none

/-- The byte string with an offset in its first bytes, if it is long enough. -/
def write? (w : OffsetWidth) (v : Int) (bs : List UInt8) : Option (List UInt8) :=
  if w.bytes ≤ bs.length then some (w.encode v ++ bs.drop w.bytes) else none

/-! ## Round trips -/

@[simp] theorem length_lowBytes (k n : Nat) : (lowBytes k n).length = k := by
  induction k generalizing n with
  | zero => rfl
  | succ k ih => simp [lowBytes, ih]

theorem ofLowBytes_lowBytes {k n : Nat} (h : n < Nat.pow 256 k) :
    ofLowBytes (lowBytes k n) = n := by
  rw [Nat.pow_eq] at h
  induction k generalizing n with
  | zero => simp at h; simp [lowBytes, ofLowBytes, h]
  | succ k ih =>
    have hk : n / 256 < 256 ^ k := Nat.div_lt_of_lt_mul (by rwa [Nat.pow_succ'] at h)
    simp only [lowBytes, ofLowBytes, ih hk]
    rw [UInt8.toNat_ofNat']
    omega

theorem ofLowBytes_lt (bs : List UInt8) : ofLowBytes bs < Nat.pow 256 bs.length := by
  rw [Nat.pow_eq]
  induction bs with
  | nil => simp [ofLowBytes]
  | cons b bs ih =>
    have := b.toNat_lt
    simp only [ofLowBytes, List.length_cons, Nat.pow_succ']
    omega

theorem lowBytes_ofLowBytes (bs : List UInt8) : lowBytes bs.length (ofLowBytes bs) = bs := by
  induction bs with
  | nil => rfl
  | cons b bs ih =>
    have := b.toNat_lt
    simp only [ofLowBytes, List.length_cons, lowBytes]
    rw [show (b.toNat + 256 * ofLowBytes bs) % 256 = b.toNat by omega,
      show (b.toNat + 256 * ofLowBytes bs) / 256 = ofLowBytes bs by omega, ih, UInt8.ofNat_toNat]

theorem modulus_eq (w : OffsetWidth) : w.modulus = Nat.pow 256 w.bytes := by cases w <;> rfl

theorem bytes_pos (w : OffsetWidth) : 0 < w.bytes := by cases w <;> decide

@[simp] theorem length_encode (w : OffsetWidth) (v : Int) : (w.encode v).length = w.bytes :=
  length_lowBytes ..

theorem decode_encode {w : OffsetWidth} {v : Int} (h : w.Holds v) : w.decode (w.encode v) = v := by
  have hm : (v % w.modulus).toNat < Nat.pow 256 w.bytes := by
    rw [← modulus_eq]; cases w <;> simp only [modulus] <;> omega
  rw [decode, encode, ofLowBytes_lowBytes hm]
  cases w <;> simp only [modulus, Holds, max, Int.bmod] at * <;> omega

theorem encode_decode {w : OffsetWidth} {bs : List UInt8} (h : bs.length = w.bytes) :
    w.encode (w.decode bs) = bs := by
  have hlt := ofLowBytes_lt bs
  rw [h, ← modulus_eq] at hlt
  rw [encode, decode, Int.bmod_emod, ← h]
  rw [Int.emod_eq_of_lt (by omega) (by omega), Int.toNat_natCast]
  exact lowBytes_ofLowBytes bs

end OffsetWidth

end PackedColumn
