import PackedColumn.Size
import PackedColumn.Bytes

/-!
# Blocks of memory

A block is the memory behind one buffer of a column. Every byte of it is
addressable, and its size is a multiple of 64. How large a block can be at all
depends on the addresses there are: `Block space` has at most `space` bytes,
and `Block` alone stands for an address space of `Block.space`, in which the
number of bits in a block is a size.

* `toList_zeroed`, `toList_grow`: fresh memory is zero, and growing appends zeros.
* `read?_eq_some_iff`: reading succeeds exactly within the bounds.
* `write?_eq_some_iff`, `move?_eq_some_iff`: so do writing and moving, and they
  replace the middle of the block.
-/

namespace PackedColumn

/-- The number of bytes that can be addressed. -/
def Block.space : Nat := 0xffffffffffffff

/-- A piece of memory among so many bytes that can be addressed. -/
@[ext] structure Block (space : Nat := Block.space) where
  bytes : Bytes
  size_dvd : 64 ∣ bytes.size
  size_le : bytes.size ≤ space
  deriving DecidableEq

namespace Block

/-- The least size that no block has. -/
def bound : Nat := 0x100000000000000

variable {space : Nat}

/-- The number of bytes in the block. -/
def size (b : Block space) : Nat := b.bytes.size

/-- The block without memory. -/
def empty : Block space := ⟨#[], by simp, by simp⟩

instance : Inhabited (Block space) := ⟨empty⟩

/-- Whether the block has no memory. -/
def isEmpty (b : Block space) : Bool := b.size == 0

/-- A block of `n` bytes, all of them `x`. -/
def filled (n : Nat) (x : UInt8) (dvd : 64 ∣ n) (le : n ≤ space) : Block space :=
  ⟨Array.replicate n x, by simpa using dvd, by simpa using le⟩

/-- A block of `n` zero bytes. -/
def zeroed (n : Nat) (dvd : 64 ∣ n) (le : n ≤ space) : Block space := filled n 0 dvd le

/-- The block with zero bytes appended to make it `n` bytes, if it is shorter. -/
def grow (b : Block space) (n : Nat) (dvd : 64 ∣ n) (le : n ≤ space) : Block space where
  bytes := b.bytes ++ Array.replicate (n - b.size) 0
  size_dvd := by
    have := b.size_dvd
    simp only [Array.size_append, Array.size_replicate, size]
    omega
  size_le := by
    have := b.size_le
    simp only [Array.size_append, Array.size_replicate, size] at *
    omega

/-- The block with `x` in every byte. -/
def fill (b : Block space) (x : UInt8) : Block space := filled b.size x b.size_dvd b.size_le

/-- The bytes from position `pos` on overwritten, as far as they lie in the block. -/
def write (b : Block space) (pos : Nat) (xs : List UInt8) : Block space :=
  ⟨b.bytes.write pos xs, by simpa using b.size_dvd, by simpa using b.size_le⟩

/-- The `length` bytes at position `pos`, if they lie in the block. -/
def read? (b : Block space) (pos length : Nat) : Option (List UInt8) :=
  if pos + length ≤ b.size then some (b.bytes.slice pos (pos + length)) else none

/-- The bytes from position `pos` on overwritten, if they lie in the block. -/
def write? (b : Block space) (pos : Nat) (xs : List UInt8) : Option (Block space) :=
  if pos + xs.length ≤ b.size then some (b.write pos xs) else none

/-- The bytes from `start` to just before `stop` copied to position `dest`, if both places lie in
the block. They are read before any is overwritten, so the places may overlap. -/
def move? (b : Block space) (start stop dest : Nat) : Option (Block space) :=
  if start ≤ stop ∧ stop ≤ b.size ∧ dest + (stop - start) ≤ b.size then
    some (b.write dest (b.bytes.slice start stop))
  else none

/-! ## The block as a list of bytes -/

/-- The bytes of the block. -/
def toList (b : Block space) : List UInt8 := b.bytes.toList

@[simp] theorem length_toList (b : Block space) : b.toList.length = b.size := rfl

theorem ext_toList {a b : Block space} (h : a.toList = b.toList) : a = b :=
  Block.ext (Array.ext' h)

theorem size_lt_bound (b : Block) : b.size < bound := Nat.lt_succ_of_le b.size_le

@[simp] theorem size_empty : (empty : Block space).size = 0 := rfl

@[simp] theorem isEmpty_iff {b : Block space} : b.isEmpty = true ↔ b.size = 0 := by simp [isEmpty]

@[simp] theorem toList_filled (n : Nat) (x : UInt8) (dvd : 64 ∣ n) (le : n ≤ space) :
    (filled n x dvd le : Block space).toList = List.replicate n x := by
  simp [toList, filled]

@[simp] theorem toList_zeroed (n : Nat) (dvd : 64 ∣ n) (le : n ≤ space) :
    (zeroed n dvd le : Block space).toList = List.replicate n 0 := toList_filled ..

@[simp] theorem size_zeroed (n : Nat) (dvd : 64 ∣ n) (le : n ≤ space) :
    (zeroed n dvd le : Block space).size = n := by
  simp [size, zeroed, filled]

@[simp] theorem toList_grow (b : Block space) (n : Nat) (dvd : 64 ∣ n) (le : n ≤ space) :
    (b.grow n dvd le).toList = b.toList ++ List.replicate (n - b.size) 0 := by
  simp [toList, grow]

@[simp] theorem size_grow (b : Block space) (n : Nat) (dvd : 64 ∣ n) (le : n ≤ space) :
    (b.grow n dvd le).size = max b.size n := by
  simp only [size, grow, Array.size_append, Array.size_replicate]
  omega

@[simp] theorem toList_fill (b : Block space) (x : UInt8) :
    (b.fill x).toList = List.replicate b.size x := toList_filled ..

@[simp] theorem size_fill (b : Block space) (x : UInt8) : (b.fill x).size = b.size := by
  simp [size, fill, filled]

@[simp] theorem size_write (b : Block space) (pos : Nat) (xs : List UInt8) :
    (b.write pos xs).size = b.size := by
  simp [size, write]

theorem toList_write {b : Block space} {pos : Nat} {xs : List UInt8} (h : pos + xs.length ≤ b.size) :
    (b.write pos xs).toList = b.toList.take pos ++ xs ++ b.toList.drop (pos + xs.length) :=
  Bytes.toList_write h

theorem read?_eq_some_iff {b : Block space} {pos length : Nat} {xs : List UInt8} :
    b.read? pos length = some xs ↔
      pos + length ≤ b.size ∧ xs = (b.toList.drop pos).take length := by
  unfold read?
  rw [Bytes.slice_eq, Nat.add_sub_cancel_left]
  split <;> rename_i h <;> simp [h, toList, eq_comm]

theorem write?_eq_some_iff {b c : Block space} {pos : Nat} {xs : List UInt8} :
    b.write? pos xs = some c ↔ pos + xs.length ≤ b.size ∧ c = b.write pos xs := by
  unfold write?
  split <;> rename_i h <;> simp [h, eq_comm]

theorem move?_eq_some_iff {b c : Block space} {start stop dest : Nat} :
    b.move? start stop dest = some c ↔
      start ≤ stop ∧ stop ≤ b.size ∧ dest + (stop - start) ≤ b.size ∧
        c = b.write dest ((b.toList.drop start).take (stop - start)) := by
  unfold move?
  rw [Bytes.slice_eq]
  split <;> rename_i h
  · simp [h, toList, eq_comm]
  · exact ⟨nofun, fun ⟨h₁, h₂, h₃, _⟩ => absurd ⟨h₁, h₂, h₃⟩ h⟩

end Block

end PackedColumn
