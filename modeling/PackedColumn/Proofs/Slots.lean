/-!
# Columns as lists of slots

What a column stands for: the list of its slots, each null or a byte string,
and what every edit makes of that list. Nothing here knows of buffers.

* `offset_succ`, `offset_mono`: where each value starts among all bytes.
* `put_of_lt`, `put_of_le`: writing replaces a slot, or appends one behind null ones.
* `bytes_set`, `offset_set_of_lt`: what replacing a slot does to the bytes and to the slots behind it.
-/

namespace PackedColumn

/-- The slots of a column in order, each null or holding a byte string. -/
abbrev Slots := List (Option (List UInt8))

namespace Slots

/-- The bytes of a slot; a null one has none. -/
def value (x : Option (List UInt8)) : List UInt8 := x.getD []

/-- The bytes of all values, one behind the other. -/
def bytes (xs : Slots) : List UInt8 := xs.flatMap value

/-- The number of bytes of the slots before slot `i`. -/
def offset (xs : Slots) (i : Nat) : Nat := (bytes (xs.take i)).length

/-- The slots with null ones behind them to make at least `n`. -/
def padTo (xs : Slots) (n : Nat) : Slots := xs ++ List.replicate (n - xs.length) none

/-- The slots with slot `i` replaced, after null ones where it is not defined yet. -/
def put (xs : Slots) (i : Nat) (x : Option (List UInt8)) : Slots := (xs.padTo (i + 1)).set i x

/-- Exactly `n` slots, the new ones null. -/
def resize (xs : Slots) (n : Nat) : Slots := (xs.padTo n).take n

/-- The slots with all from slot `k` on made null. -/
def blankFrom (xs : Slots) (k : Nat) : Slots := xs.take k ++ List.replicate (xs.length - k) none

/-- The `length` slots from slot `start` on. -/
def slice (xs : Slots) (start length : Nat) : Slots := (xs.drop start).take length

/-- The number of bytes once slot `i` holds `n` of them. -/
def sizeWith (xs : Slots) (i n : Nat) : Nat :=
  (bytes xs).length - (value (xs[i]?).join).length + n

variable {xs ys : Slots} {i j k n : Nat} {x : Option (List UInt8)}

/-! ## Bytes and offsets -/

@[simp] theorem value_none : value none = [] := rfl

@[simp] theorem value_some (b : List UInt8) : value (some b) = b := rfl

@[simp] theorem bytes_nil : bytes [] = [] := rfl

@[simp] theorem bytes_append (xs ys : Slots) : bytes (xs ++ ys) = bytes xs ++ bytes ys :=
  List.flatMap_append

@[simp] theorem bytes_cons (x : Option (List UInt8)) (xs : Slots) :
    bytes (x :: xs) = value x ++ bytes xs := List.flatMap_cons

@[simp] theorem bytes_replicate_none (n : Nat) : bytes (List.replicate n none) = [] := by
  induction n with
  | zero => rfl
  | succ n ih => rw [List.replicate_succ, bytes_cons, ih]; rfl

@[simp] theorem bytes_padTo (xs : Slots) (n : Nat) : bytes (xs.padTo n) = bytes xs := by
  rw [padTo, bytes_append, bytes_replicate_none, List.append_nil]

@[simp] theorem offset_zero (xs : Slots) : offset xs 0 = 0 := rfl

theorem offset_cons_succ (x : Option (List UInt8)) (xs : Slots) (i : Nat) :
    offset (x :: xs) (i + 1) = (value x).length + offset xs i := by
  rw [offset, List.take_succ_cons, bytes_cons, List.length_append]; rfl

theorem offset_length (xs : Slots) : offset xs xs.length = (bytes xs).length := by
  rw [offset, List.take_length]

theorem bytes_take_succ (h : i < xs.length) :
    bytes (xs.take (i + 1)) = bytes (xs.take i) ++ value xs[i] := by
  rw [List.take_succ_eq_append_getElem h, bytes_append, bytes_cons, bytes_nil, List.append_nil]

theorem offset_succ (h : i < xs.length) :
    offset xs (i + 1) = offset xs i + (value xs[i]).length := by
  rw [offset, bytes_take_succ h, List.length_append]; rfl

theorem offset_mono (xs : Slots) (h : i ≤ j) : offset xs i ≤ offset xs j := by
  obtain ⟨d, rfl⟩ := Nat.exists_eq_add_of_le h
  rw [offset, offset, List.take_add, bytes_append, List.length_append]
  exact Nat.le_add_right ..

theorem bytes_take_isPrefix (xs : Slots) (i : Nat) : bytes (xs.take i) <+: bytes xs :=
  ⟨bytes (xs.drop i), by rw [← bytes_append, List.take_append_drop]⟩

theorem offset_le (xs : Slots) (i : Nat) : offset xs i ≤ (bytes xs).length :=
  (bytes_take_isPrefix xs i).length_le

theorem offset_congr (h : xs.take i = ys.take i) : offset xs i = offset ys i := by
  rw [offset, offset, h]

/-- Null slots take no bytes. -/
theorem offset_of_blank (hij : i ≤ j) (h : ∀ k, i ≤ k → k < j → xs[k]? = some none) :
    offset xs j = offset xs i := by
  obtain ⟨d, rfl⟩ := Nat.exists_eq_add_of_le hij
  induction d with
  | zero => rfl
  | succ d ih =>
    obtain ⟨hd, hnone⟩ := List.getElem?_eq_some_iff.1 (h (i + d) (by omega) (by omega))
    rw [← Nat.add_assoc, offset_succ hd, hnone,
      ih (Nat.le_add_right ..) fun k hk hkd => h k hk (by omega)]
    rfl

/-! ## The edits slot by slot -/

@[simp] theorem length_padTo (xs : Slots) (n : Nat) : (xs.padTo n).length = max xs.length n := by
  simp only [padTo, List.length_append, List.length_replicate]; omega

theorem getElem?_padTo (xs : Slots) (n i : Nat) :
    (xs.padTo n)[i]? = if i < xs.length then xs[i]? else if i < n then some none else none := by
  rw [padTo]
  split
  · rename_i h
    rw [List.getElem?_append_left h]
  · rw [List.getElem?_append_right (by omega), List.getElem?_replicate]
    congr 1
    simp only [eq_iff_iff]; omega

theorem padTo_of_le (h : n ≤ xs.length) : xs.padTo n = xs := by
  rw [padTo, Nat.sub_eq_zero_of_le h]; exact List.append_nil _

theorem take_padTo (h : i ≤ xs.length) : (xs.padTo n).take i = xs.take i :=
  List.take_append_of_le_length h

@[simp] theorem length_put (xs : Slots) (i : Nat) (x : Option (List UInt8)) :
    (xs.put i x).length = max xs.length (i + 1) := by
  rw [put, List.length_set, length_padTo]

theorem put_of_lt (h : i < xs.length) : xs.put i x = xs.set i x := by
  rw [put, padTo_of_le h]

theorem put_of_le (h : xs.length ≤ i) : xs.put i x = xs.padTo i ++ [x] := by
  have hl : (xs.padTo i).length = i := by rw [length_padTo]; omega
  have hp : xs.padTo (i + 1) = xs.padTo i ++ [none] := by
    rw [padTo, padTo, Nat.sub_add_comm h, List.replicate_succ', List.append_assoc]
  rw [put, hp, List.set_append_right _ _ (by omega), hl, Nat.sub_self]
  rfl

theorem getElem?_put (xs : Slots) (i : Nat) (x : Option (List UInt8)) (j : Nat) :
    (xs.put i x)[j]? = if j = i then some x else (xs.padTo (i + 1))[j]? := by
  rw [put, List.getElem?_set]
  by_cases h : i = j
  · subst h; rw [if_pos rfl, if_pos rfl, if_pos (by rw [length_padTo]; omega)]
  · rw [if_neg h, if_neg (Ne.symm h)]

theorem getElem?_put_of_ne (h : j ≠ i) : (xs.put i x)[j]? = (xs.padTo i)[j]? := by
  rw [getElem?_put, if_neg h, getElem?_padTo, getElem?_padTo]
  congr 2
  simp only [eq_iff_iff]; omega

@[simp] theorem length_resize (xs : Slots) (n : Nat) : (xs.resize n).length = n := by
  rw [resize, List.length_take, length_padTo]; omega

@[simp] theorem length_blankFrom (xs : Slots) (k : Nat) :
    (xs.blankFrom k).length = xs.length := by
  simp only [blankFrom, List.length_append, List.length_take, List.length_replicate]; omega

theorem getElem?_blankFrom (xs : Slots) (k i : Nat) :
    (xs.blankFrom k)[i]? = if i < k then xs[i]? else if i < xs.length then some none else none := by
  rw [blankFrom, List.getElem?_append, List.getElem?_take, List.getElem?_replicate,
    List.length_take]
  by_cases hk : i < k
  · by_cases hl : i < xs.length
    · rw [if_pos (by omega), if_pos hk, if_pos hk]
    · rw [if_neg (by omega), if_neg (by omega), if_pos hk, List.getElem?_eq_none (by omega)]
  · rw [if_neg (by omega), if_neg hk]
    congr 1
    simp only [eq_iff_iff]; omega

/-! ## Replacing a slot -/

theorem bytes_eq_of_lt (h : i < xs.length) :
    bytes xs = bytes (xs.take i) ++ value xs[i] ++ bytes (xs.drop (i + 1)) := by
  rw [← bytes_take_succ h, ← bytes_append, List.take_append_drop]

theorem bytes_set (h : i < xs.length) :
    bytes (xs.set i x) = bytes (xs.take i) ++ value x ++ bytes (xs.drop (i + 1)) := by
  rw [List.set_eq_take_append_cons_drop, if_pos h, bytes_append, bytes_cons, List.append_assoc]

theorem offset_set_of_le (h : j ≤ i) : offset (xs.set i x) j = offset xs j := by
  rw [offset, List.take_set_of_le h]; rfl

theorem offset_set_of_lt (h : i < xs.length) (hj : i < j) :
    offset (xs.set i x) j + (value xs[i]).length = offset xs j + (value x).length := by
  have ht : i < (xs.take j).length := by rw [List.length_take]; omega
  have hx := bytes_eq_of_lt ht
  rw [List.getElem_take] at hx
  rw [offset, offset, List.take_set, bytes_set ht, hx]
  simp only [List.length_append]
  omega

/-- The slots behind it start as much later as the replaced one is longer. -/
theorem offset_set_eq (h : i < xs.length) (hj : i < j) :
    (offset (xs.set i x) j : Int) =
      offset xs j + ((value x).length - (value xs[i]).length : Int) := by
  have := offset_set_of_lt (x := x) h hj
  omega

theorem sizeWith_of_lt (h : i < xs.length) :
    sizeWith xs i n = (bytes xs).length - (value xs[i]).length + n := by
  rw [sizeWith, List.getElem?_eq_getElem h]; rfl

theorem sizeWith_of_le (h : xs.length ≤ i) : sizeWith xs i n = (bytes xs).length + n := by
  rw [sizeWith, List.getElem?_eq_none h]; rfl

theorem le_sizeWith (xs : Slots) (i n : Nat) : n ≤ xs.sizeWith i n := by
  unfold sizeWith
  omega

theorem length_bytes_put (xs : Slots) (i : Nat) (x : Option (List UInt8)) :
    (bytes (xs.put i x)).length = sizeWith xs i (value x).length := by
  by_cases h : i < xs.length
  · rw [sizeWith_of_lt h, put_of_lt h, bytes_set h, bytes_eq_of_lt h]
    simp only [List.length_append]
    omega
  · rw [sizeWith_of_le (by omega), put_of_le (by omega), bytes_append, bytes_padTo,
      List.length_append]
    simp

theorem bytes_blankFrom (xs : Slots) (k : Nat) : bytes (xs.blankFrom k) = bytes (xs.take k) := by
  rw [blankFrom, bytes_append, bytes_replicate_none, List.append_nil]

/-! ## Ranges -/

theorem length_slice (h : i + n ≤ xs.length) : (xs.slice i n).length = n := by
  rw [slice, List.length_take, List.length_drop]; omega

theorem getElem?_slice (hj : j < n) : (xs.slice i n)[j]? = xs[i + j]? := by
  rw [slice, List.getElem?_take_of_lt hj, List.getElem?_drop]

theorem bytes_eq_slice (xs : Slots) (i n : Nat) :
    bytes xs = bytes (xs.take i) ++ bytes (xs.slice i n) ++ bytes ((xs.drop i).drop n) := by
  rw [List.append_assoc, slice, ← bytes_append, List.take_append_drop, ← bytes_append,
    List.take_append_drop]

theorem length_bytes_slice_le (xs : Slots) (i n : Nat) :
    (bytes (xs.slice i n)).length ≤ (bytes xs).length := by
  rw [bytes_eq_slice xs i n, List.length_append, List.length_append]; omega

theorem bytes_take_slice (xs : Slots) (hj : j ≤ n) (i : Nat) :
    bytes (xs.take (i + j)) = bytes (xs.take i) ++ bytes ((xs.slice i n).take j) := by
  rw [slice, List.take_take, Nat.min_eq_left hj, List.take_add, bytes_append]

theorem offset_slice (xs : Slots) (hj : j ≤ n) (i : Nat) :
    offset xs (i + j) = offset xs i + offset (xs.slice i n) j := by
  rw [offset, offset, offset, bytes_take_slice xs hj, List.length_append]

end Slots

end PackedColumn
