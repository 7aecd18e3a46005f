import PackedColumn.Memory.Allocator
import PackedColumn.Offsets.Width

/-!
# Offset tables

The entries of a table delimit the values of a column: entry `i` is where
the value of slot `i` starts and entry `i + 1` where it ends. The table only
guarantees that the entries up to its slot capacity can be read; which of
them mean something is the column's business. A table without memory has the
single entry 0.

* `get?_put?`: a written entry reads back, and every other entry is as it was.
* `slotCapacity_put`: writing entries changes no capacity.
-/

namespace PackedColumn

/-- A table of offsets, packed in a block. -/
@[ext] structure OffsetTable (w : OffsetWidth) where
  block : Block
  deriving DecidableEq

namespace OffsetTable

variable {w : OffsetWidth}

/-- The table without memory. -/
def empty : OffsetTable w := ⟨.empty⟩

instance : Inhabited (OffsetTable w) := ⟨empty⟩

/-- The number of slots whose end fits the memory held. -/
def slotCapacity (t : OffsetTable w) : Nat := t.block.size / w.bytes - 1

/-- Entry `i`, if it is there. -/
def get? (t : OffsetTable w) (i : Nat) : Option Int :=
  if t.block.isEmpty && i == 0 then some 0
  else (t.block.read? (i * w.bytes) w.bytes).map w.decode

/-- Entry `i` as a byte position; a negative entry counts as position 0. -/
def start? (t : OffsetTable w) (i : Nat) : Option Nat := (t.get? i).map Int.toNat

/-- The byte position where slot `i` ends. -/
def stop? (t : OffsetTable w) (i : Nat) : Option Nat := t.start? (i + 1)

/-- The byte length of slot `i`; there is none if the slot ends before it starts. -/
def length? (t : OffsetTable w) (i : Nat) : Option Nat := do
  let stop ← t.stop? i
  let start ← t.start? i
  if start ≤ stop then some (stop - start) else none

/-- Replaces entry `i`, as far as it lies in the memory held. -/
def put (t : OffsetTable w) (i : Nat) (v : Int) : OffsetTable w :=
  ⟨t.block.write (i * w.bytes) (w.encode v)⟩

/-- Replaces entry `i`, if the memory held has it. -/
def put? (t : OffsetTable w) (i : Nat) (v : Int) : Option (OffsetTable w) :=
  if i * w.bytes + w.bytes ≤ t.block.size then some (t.put i v) else none

/-- Replaces the `n` entries from entry `i` on by one value. -/
def fillFrom (t : OffsetTable w) (v : Int) (i : Nat) : Nat → OffsetTable w
  | 0 => t
  | n + 1 => fillFrom (t.put i v) v (i + 1) n

/-- Makes room for the ends of `slots` slots. The entries past `committed` become equal to it, so
that the slots after it are empty. -/
def reserve (t : OffsetTable w) (slots committed : Nat) : Allocator.Request (OffsetTable w) :=
  if slots ≤ t.slotCapacity && !t.block.isEmpty then pure t
  else
    match (Size.add? slots 1).bind (Size.mul? · w.bytes) with
    | none => .refuse .tooLarge
    | some size => do
      let block ←
        if t.block.isEmpty then Allocator.allocate size else Allocator.reallocate t.block size
      let grown : OffsetTable w := ⟨block⟩
      let last ← .require (grown.get? committed)
      return grown.fillFrom last (committed + 1) (grown.slotCapacity - committed)

/-- Adds `delta` to the `n` entries from entry `i` on, each read as a byte position. A sum that is
no offset is stored as 0; one that leaves the range of signed positions breaks the contract. -/
def shift? (t : OffsetTable w) (delta : Int) (i : Nat) : Nat → Option (OffsetTable w)
  | 0 => some t
  | n + 1 => do
    let start ← t.start? i
    let moved := start + delta
    if OffsetWidth.wide.Holds moved then
      let t ← t.put? i (if w.Holds moved then moved else 0)
      shift? t delta (i + 1) n
    else none

/-- The encoded entries 0 to `count`. -/
def entries? (t : OffsetTable w) (count : Nat) : Option (List UInt8) :=
  if t.block.isEmpty then some (List.replicate w.bytes 0)
  else t.block.read? 0 ((count + 1) * w.bytes)

/-- Makes every entry 0. -/
def clear (t : OffsetTable w) : OffsetTable w := ⟨t.block.fill 0⟩

/-- Whether some entry is smaller than the one before it, among the `n` pairs from entry `i` on;
gives the place of the first. -/
def decrease? (t : OffsetTable w) (i : Nat) : Nat → Option (Option Nat)
  | 0 => some none
  | n + 1 => do
    let a ← t.get? i
    let b ← t.get? (i + 1)
    if b < a then some (some i) else decrease? t (i + 1) n

/-! ## Single entries -/

@[simp] theorem size_put (t : OffsetTable w) (i : Nat) (v : Int) :
    (t.put i v).block.size = t.block.size := by simp [put]

@[simp] theorem slotCapacity_put (t : OffsetTable w) (i : Nat) (v : Int) :
    (t.put i v).slotCapacity = t.slotCapacity := by simp [slotCapacity]

@[simp] theorem size_fillFrom (t : OffsetTable w) (v : Int) (i n : Nat) :
    (t.fillFrom v i n).block.size = t.block.size := by
  induction n generalizing t i with
  | zero => rfl
  | succ n ih => simp [fillFrom, ih]

theorem put?_eq_some_iff {t u : OffsetTable w} {i : Nat} {v : Int} :
    t.put? i v = some u ↔ (i + 1) * w.bytes ≤ t.block.size ∧ u = t.put i v := by
  unfold put?
  rw [Nat.add_mul, Nat.one_mul]
  split <;> rename_i h <;> simp [h, eq_comm]

theorem get?_put? {t u : OffsetTable w} {i : Nat} {v : Int} (hv : w.Holds v)
    (h : t.put? i v = some u) (j : Nat) : u.get? j = if j = i then some v else t.get? j := by
  obtain ⟨hi, rfl⟩ := put?_eq_some_iff.1 h
  have hw := w.bytes_pos
  rw [Nat.add_mul, Nat.one_mul] at hi
  have hne : t.block.size ≠ 0 := by omega
  have hlen : i * w.bytes + (w.encode v).length ≤ t.block.size := by simpa using hi
  have hl := Block.toList_write hlen
  simp only [get?, put, Block.isEmpty, Block.size_write, Block.read?, beq_eq_false_iff_ne.2 hne,
    Bool.false_and, Bool.false_eq_true, if_false, Bytes.slice_eq, Nat.add_sub_cancel_left]
  simp only [Block.toList] at hl
  rw [hl, OffsetWidth.length_encode]
  have hlt : (t.block.bytes.toList.take (i * w.bytes)).length = i * w.bytes := by
    have : t.block.bytes.toList.length = t.block.size := rfl
    rw [List.length_take]; omega
  by_cases hj : j = i
  · subst hj
    rw [if_pos hi, if_pos rfl, List.append_assoc, List.drop_append, hlt, Nat.sub_self,
      List.drop_of_length_le (by omega), List.nil_append, List.drop_zero, List.take_append]
    simp [List.take_of_length_le, OffsetWidth.decode_encode hv]
  · rw [if_neg hj]
    congr 1
    by_cases hb : j * w.bytes + w.bytes ≤ t.block.size
    · rw [if_pos hb, if_pos hb]
      congr 1
      apply List.ext_getElem?
      intro k
      simp only [List.getElem?_take, List.getElem?_drop]
      split
      · rename_i hk
        rcases Nat.lt_or_gt_of_ne hj with hlt' | hgt
        · have := Nat.mul_le_mul_right w.bytes (show j + 1 ≤ i from hlt')
          rw [Nat.add_mul, Nat.one_mul] at this
          rw [List.append_assoc, List.getElem?_append_left (by omega), List.getElem?_take,
            if_pos (by omega)]
        · have := Nat.mul_le_mul_right w.bytes (show i + 1 ≤ j from hgt)
          rw [Nat.add_mul, Nat.one_mul] at this
          rw [List.getElem?_append_right (by simp; omega), List.getElem?_drop]
          simp only [List.length_append, hlt, OffsetWidth.length_encode]
          congr 1
          omega
      · rfl
    · rw [if_neg hb, if_neg hb]

end OffsetTable

end PackedColumn
