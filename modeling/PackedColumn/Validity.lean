import PackedColumn.Bits
import PackedColumn.Memory.Allocator

/-!
# Validity flags

One bit for each slot of a column, packed in a block: a set bit says that the
slot holds a value. The flags are an array of `bitCapacity` booleans, and any
access past them breaks the contract.

* `get?_isSome_iff`, `put?_eq_some_iff`: a bit can be read and written exactly below the capacity.
* `get?_put?`: a written bit reads back, and every other bit is as it was.
-/

namespace PackedColumn

/-- The validity flags of a column. -/
@[ext] structure Validity where
  block : Block
  deriving DecidableEq

namespace Validity

/-- Flags without memory. -/
def empty : Validity := ⟨.empty⟩

instance : Inhabited Validity := ⟨empty⟩

/-- The number of bits that fit the memory held. -/
def bitCapacity (v : Validity) : Nat := v.block.size * 8

/-- Whether bit `i` is set. -/
def get? (v : Validity) (i : Nat) : Option Bool :=
  if i < v.bitCapacity then some (Bits.get v.block.bytes i) else none

/-- Replaces bit `i`. -/
def put (v : Validity) (i : Nat) (valid : Bool) : Validity where
  block :=
    { bytes := Bits.put v.block.bytes i valid
      size_dvd := by simpa using v.block.size_dvd
      size_le := by simpa using v.block.size_le }

/-- Replaces bit `i`, if there is one. -/
def put? (v : Validity) (i : Nat) (valid : Bool) : Option Validity :=
  if i < v.bitCapacity then some (v.put i valid) else none

/-- The number of unset bits among the first `n`. -/
def nullCount? (v : Validity) (n : Nat) : Option Nat :=
  if n ≤ v.bitCapacity then some (n - Bits.count v.block.bytes n) else none

/-- The bytes that cover the first `n` bits. -/
def covering? (v : Validity) (n : Nat) : Option (List UInt8) :=
  v.block.read? 0 (Bits.byteCount n)

/-- Makes room for `n` bits; new bits are unset. -/
def reserve (v : Validity) (n : Nat) : Allocator.Request Validity :=
  if Bits.byteCount n ≤ v.block.size then pure v
  else if v.block.isEmpty then Validity.mk <$> Allocator.allocate (Bits.byteCount n)
  else Validity.mk <$> Allocator.reallocate v.block (Bits.byteCount n)

/-- Unsets every bit. -/
def clear (v : Validity) : Validity := ⟨v.block.fill 0⟩

/-- Fills the start of the flags with `n` bits of a byte sequence, from its bit `pos` on. -/
def copyBits? (v : Validity) (src : Bytes) (pos n : Nat) : Option Validity :=
  match h : Bits.copy? src pos v.block.bytes n with
  | none => none
  | some bytes => some
      { block :=
          { bytes := bytes
            size_dvd := by rw [Bits.size_of_copy? h]; exact v.block.size_dvd
            size_le := by rw [Bits.size_of_copy? h]; exact v.block.size_le } }

/-- The flags as a list of booleans. -/
def toList (v : Validity) : List Bool := Bits.toList v.block.bytes

/-! ## Single flags -/

@[simp] theorem size_put (v : Validity) (i : Nat) (valid : Bool) :
    (v.put i valid).block.size = v.block.size := by simp [put, Block.size]

@[simp] theorem bitCapacity_put (v : Validity) (i : Nat) (valid : Bool) :
    (v.put i valid).bitCapacity = v.bitCapacity := by simp [bitCapacity]

theorem get?_isSome_iff {v : Validity} {i : Nat} : (v.get? i).isSome ↔ i < v.bitCapacity := by
  unfold get?; split <;> simp [*]

theorem put?_eq_some_iff {v w : Validity} {i : Nat} {valid : Bool} :
    v.put? i valid = some w ↔ i < v.bitCapacity ∧ w = v.put i valid := by
  unfold put?; split <;> rename_i h <;> simp [h, eq_comm]

theorem get?_put? {v w : Validity} {i : Nat} {valid : Bool} (h : v.put? i valid = some w)
    (j : Nat) : w.get? j = if j = i then some valid else v.get? j := by
  obtain ⟨hi, rfl⟩ := put?_eq_some_iff.1 h
  have hb : i < 8 * v.block.bytes.size := by simpa [bitCapacity, Block.size, Nat.mul_comm] using hi
  simp only [get?, bitCapacity_put]
  by_cases hj : j = i
  · subst hj; simp [hi, put, Bits.get_put hb]
  · simp [hj, put, Bits.get_put hb]

end Validity

end PackedColumn
