/-!
# Arrow arrays

Arrays of byte strings come from a library of their own. A column is made of
what an array answers (`ArrowArray`), and goes out as the array that the
library makes of its slots (`ArrowLibrary`); nothing else is known of either.

* `length_slots`, `getElem_slots`: the slots of an array are those it answers for.
-/

namespace PackedColumn

/-- The answers of an Arrow array of byte strings. An array may be a window on a longer one, whose
value bytes it keeps in full. -/
structure ArrowArray where
  /-- The number of slots. -/
  slotCount : Nat
  /-- Whether a slot is null. -/
  isNull : Nat → Bool
  /-- The value of a slot that is not null. -/
  value : Nat → List UInt8
  /-- The number of bytes behind all values. -/
  dataSize : Nat

namespace ArrowArray

/-- Slot `i`. -/
def slot (a : ArrowArray) (i : Nat) : Option (List UInt8) :=
  if a.isNull i then none else some (a.value i)

/-- The slots in order. -/
def slots (a : ArrowArray) : List (Option (List UInt8)) := (List.range a.slotCount).map a.slot

/-- The numbers of the null slots. -/
def nulls (a : ArrowArray) : List Nat := (List.range a.slotCount).filter a.isNull

@[simp] theorem length_slots (a : ArrowArray) : a.slots.length = a.slotCount := by
  rw [slots, List.length_map, List.length_range]

theorem getElem_slots (a : ArrowArray) {i : Nat} (hi : i < a.slots.length) :
    a.slots[i] = a.slot i := by
  simp only [slots, List.getElem_map, List.getElem_range]

end ArrowArray

/-- A library of Arrow arrays of byte strings, delimited by offsets of one width. -/
structure ArrowLibrary (α : Type) where
  /-- What an array answers. -/
  view : α → ArrowArray
  /-- The entries that delimit the values of the slots. -/
  offsets : α → List Nat
  /-- The bytes behind all values. -/
  data : α → List UInt8
  /-- An array with the given slots. -/
  ofSlots : List (Option (List UInt8)) → α
  /-- The window of `length` slots from slot `start` on; asking for more than there are breaks the
  contract. -/
  slice? : α → (start length : Nat) → Option α

end PackedColumn
