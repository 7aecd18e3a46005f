/-!
# Byte sequences

Reading a stretch of bytes as a list and overwriting a stretch with a list.

* `slice_eq`: a stretch is what `take` and `drop` leave of the whole list.
* `getElem?_write`: a written position holds the new byte, and any other its old one.
* `toList_write`: within the bounds, writing replaces the middle of the list.

A `Blob` is a byte string given as a pattern and a repetition count, so that
its length is known without building it.
-/

namespace PackedColumn

/-- A sequence of bytes that can be overwritten in place. -/
abbrev Bytes := Array UInt8

namespace Bytes

/-- The bytes at the positions from `start` to just before `stop`. -/
def slice (b : Bytes) (start stop : Nat) : List UInt8 := (b.extract start stop).toList

/-- Overwrites the bytes from position `pos` on; what would lie past the end is dropped. -/
def write (b : Bytes) (pos : Nat) : List UInt8 → Bytes
  | [] => b
  | x :: xs => write (b.setIfInBounds pos x) (pos + 1) xs

theorem slice_eq (b : Bytes) (start stop : Nat) :
    b.slice start stop = (b.toList.drop start).take (stop - start) := by
  simp [slice, Array.toList_extract, List.extract_eq_take_drop]

theorem length_slice {b : Bytes} {start stop : Nat} (h : stop ≤ b.size) :
    (b.slice start stop).length = stop - start := by
  simp [slice_eq]; omega

@[simp] theorem write_nil (b : Bytes) (pos : Nat) : b.write pos [] = b := rfl

@[simp] theorem size_write (b : Bytes) (pos : Nat) (xs : List UInt8) :
    (b.write pos xs).size = b.size := by
  induction xs generalizing b pos with
  | nil => rfl
  | cons x xs ih => simp [write, ih]

theorem getElem?_write (b : Bytes) (pos : Nat) (xs : List UInt8) (i : Nat) :
    (b.write pos xs)[i]? =
      if pos ≤ i ∧ i < pos + xs.length ∧ i < b.size then xs[i - pos]? else b[i]? := by
  induction xs generalizing b pos with
  | nil => simp only [write_nil, List.length_nil]; split <;> first | rfl | omega
  | cons x xs ih =>
    rw [write, ih]
    simp only [Array.size_setIfInBounds, Array.getElem?_setIfInBounds, List.length_cons]
    by_cases h : pos = i
    · subst h
      rw [if_neg (by omega)]
      by_cases hb : pos < b.size <;> simp [hb]
    · by_cases h' : pos + 1 ≤ i ∧ i < pos + 1 + xs.length ∧ i < b.size
      · rw [if_pos h', if_pos (by omega), show i - pos = i - (pos + 1) + 1 by omega,
          List.getElem?_cons_succ]
      · rw [if_neg h', if_neg h, if_neg (by omega)]

theorem toList_write {b : Bytes} {pos : Nat} {xs : List UInt8} (h : pos + xs.length ≤ b.size) :
    (b.write pos xs).toList = b.toList.take pos ++ xs ++ b.toList.drop (pos + xs.length) := by
  apply List.ext_getElem?
  intro i
  rw [Array.getElem?_toList, getElem?_write]
  split
  · rw [List.append_assoc, List.getElem?_append_right (by simp; omega),
      List.getElem?_append_left (by simp; omega)]
    simp [Nat.min_eq_left (show pos ≤ b.size by omega)]
  · by_cases hi : i < pos
    · rw [List.append_assoc, List.getElem?_append_left (by simp; omega)]
      simp [hi]
    · by_cases hb : i < b.size
      · rw [List.getElem?_append_right (by simp; omega)]
        simp only [List.length_append, List.length_take, Array.length_toList,
          Nat.min_eq_left (show pos ≤ b.size by omega), List.getElem?_drop, Array.getElem?_toList]
        rw [show pos + xs.length + (i - (pos + xs.length)) = i by omega]
      · rw [Array.getElem?_eq_none (by omega), eq_comm, List.getElem?_eq_none]
        simp; omega

end Bytes

/-- A byte string given as a pattern and the number of times it is repeated. -/
structure Blob where
  pattern : List UInt8
  times : Nat
  deriving Repr, DecidableEq

namespace Blob

/-- The byte string that a list spells out. -/
def ofList (bytes : List UInt8) : Blob := ⟨bytes, 1⟩

/-- The bytes of a text in UTF-8. -/
def ofText (text : String) : Blob := ofList text.toUTF8.data.toList

/-- The number of bytes. -/
def size (b : Blob) : Nat := b.times * b.pattern.length

/-- The bytes in order. -/
def toList (b : Blob) : List UInt8 := (List.replicate b.times b.pattern).flatten

@[simp] theorem length_toList (b : Blob) : b.toList.length = b.size := by
  simp [toList, size, List.length_flatten]

@[simp] theorem toList_ofList (bytes : List UInt8) : (ofList bytes).toList = bytes := by
  simp [toList, ofList]

@[simp] theorem size_ofList (bytes : List UInt8) : (ofList bytes).size = bytes.length := by
  simp [size, ofList]

end Blob

end PackedColumn
