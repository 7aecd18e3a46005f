import PackedColumn.ArrowArray
import PackedColumn.Offsets.Width

/-!
# Plain arrays

Arrow arrays kept as a window on the slots they were made of. Null slots have
no bytes, so the bytes behind all values are those of all slots, of the window
or not, and the entries of the window are read off the lengths before them.

* `PlainArray.library`: such arrays as a library.
-/

namespace PackedColumn

/-- A window on slots, whose values together end at an offset. -/
structure PlainArray (w : OffsetWidth) where
  all : Array (Option (List UInt8))
  first : Nat
  count : Nat
  inside : first + count ≤ all.size
  fits : (all.toList.flatMap (·.getD [])).length ≤ w.max

namespace PlainArray

variable {w : OffsetWidth}

/-- The array without slots. -/
def empty : PlainArray w :=
  { all := #[], first := 0, count := 0, inside := Nat.le_refl 0, fits := Nat.zero_le _ }

/-- The array with the given slots; none of them if their values do not end at an offset. -/
def ofSlots (slots : List (Option (List UInt8))) : PlainArray w :=
  if h : (slots.flatMap (·.getD [])).length ≤ w.max then
    { all := slots.toArray, first := 0, count := slots.length, inside := by simp, fits := h }
  else empty

/-- The window of `length` slots from slot `start` of this window on, if it has them. -/
def slice? (a : PlainArray w) (start length : Nat) : Option (PlainArray w) :=
  if h : start + length ≤ a.count then
    some { a with
      first := a.first + start
      count := length
      inside := by have := a.inside; omega }
  else none

/-- The positions at which the values of slots end, the first of which starts at `pos`. -/
def ends (pos : Nat) : List (Option (List UInt8)) → List Nat
  | [] => []
  | x :: xs => (pos + (x.getD []).length) :: ends (pos + (x.getD []).length) xs

/-- The entries that delimit the values of the window. -/
def offsets (a : PlainArray w) : List Nat :=
  ((0 :: ends 0 a.all.toList).drop a.first).take (a.count + 1)

/-- The bytes of all slots. -/
def data (a : PlainArray w) : List UInt8 := a.all.toList.flatMap (·.getD [])

/-- What the window answers. -/
def view (a : PlainArray w) : ArrowArray where
  slotCount := a.count
  isNull i := (a.all.getD (a.first + i) none).isNone
  value i := (a.all.getD (a.first + i) none).getD []
  dataSize := a.data.length

/-- Plain arrays as a library. -/
def library (w : OffsetWidth) : ArrowLibrary (PlainArray w) where
  view := view
  offsets := offsets
  data := data
  ofSlots := ofSlots
  slice? := slice?

end PlainArray

end PackedColumn
