import PackedColumn.Memory.Allocator

/-!
# Value stores

The bytes of all values of a column, one value behind the other. Where each
starts and ends is known to the offset table alone; the store reads, writes
and moves stretches of bytes, and breaks its contract outside its memory.

* `read?_zero`: an empty stretch can be read anywhere.
* `reserve_of_le`: a store that is large enough is left as it is.
-/

namespace PackedColumn

/-- The value bytes of a column. -/
@[ext] structure ValueStore where
  block : Block
  deriving DecidableEq

namespace ValueStore

/-- The store without memory. -/
def empty : ValueStore := ⟨.empty⟩

instance : Inhabited ValueStore := ⟨empty⟩

/-- The number of bytes that fit the memory held. -/
def capacity (s : ValueStore) : Nat := s.block.size

/-- The `length` bytes at position `pos`; none are there to miss if `length` is 0. -/
def read? (s : ValueStore) (pos length : Nat) : Option (List UInt8) :=
  if length = 0 then some [] else s.block.read? pos length

/-- The bytes from position `pos` on overwritten, if they lie in the memory held. -/
def write? (s : ValueStore) (pos : Nat) (xs : List UInt8) : Option ValueStore :=
  (s.block.write? pos xs).map mk

/-- The bytes from `start` to just before `stop` moved to position `dest`. -/
def move? (s : ValueStore) (start stop dest : Nat) : Option ValueStore :=
  (s.block.move? start stop dest).map mk

/-- The first `n` bytes. -/
def leading? (s : ValueStore) (n : Nat) : Option (List UInt8) := s.block.read? 0 n

/-- Makes room for `needed` bytes; a store that has to grow at least doubles. -/
def reserve (s : ValueStore) (needed : Nat) : Allocator.Request ValueStore :=
  if needed ≤ s.capacity then pure s
  else if s.block.isEmpty then mk <$> Allocator.allocate needed
  else mk <$> Allocator.reallocate s.block (max needed (2 * s.capacity))

/-- Makes every byte 0. -/
def clear (s : ValueStore) : ValueStore := ⟨s.block.fill 0⟩

@[simp] theorem read?_zero (s : ValueStore) (pos : Nat) : s.read? pos 0 = some [] := rfl

theorem reserve_of_le {s : ValueStore} {needed : Nat} (h : needed ≤ s.capacity) :
    s.reserve needed = pure s := if_pos h

theorem write?_eq_some_iff {s u : ValueStore} {pos : Nat} {xs : List UInt8} :
    s.write? pos xs = some u ↔ pos + xs.length ≤ s.capacity ∧ u = ⟨s.block.write pos xs⟩ := by
  simp only [write?, Option.map_eq_some_iff, Block.write?_eq_some_iff, capacity]
  exact ⟨fun ⟨_, ⟨h, hb⟩, hu⟩ => ⟨h, by rw [← hu, hb]⟩, fun ⟨h, hu⟩ => ⟨_, ⟨h, rfl⟩, hu.symm⟩⟩

end ValueStore

end PackedColumn
