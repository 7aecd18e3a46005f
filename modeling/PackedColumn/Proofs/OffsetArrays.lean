import PackedColumn.Memory.Paid
import PackedColumn.Proofs.Room

/-!
# Offset tables as arrays of integers

Whatever the bytes of a block are, it is read as as many offsets as it has
room for, and is nothing but their encodings one behind the other; without
memory the only entry is 0. A write replaces one element of that array, and
growing keeps the first ones and repeats the last of them.

* `lists_entries`: the readers, and the bytes.
* `lists_put`, `getElem?_toList_put`: writing one entry.
* `lists_of_reserve`: what growing makes of the array.
* `offsets_are_array`: all of it, for a table with the allocator that pays for it.
-/

namespace PackedColumn

namespace OffsetWidth

variable {w : OffsetWidth} {es : List Int}

/-- The first `n` offsets in a byte string. -/
def decodeFirst (w : OffsetWidth) : Nat → List UInt8 → List Int
  | 0, _ => []
  | n + 1, bs => w.decode (bs.take w.bytes) :: decodeFirst w n (bs.drop w.bytes)

/-- What offsets are encoded to has them as its entries. -/
theorem decodeFirst_flatMap_encode (h : ∀ e ∈ es, w.Holds e) :
    w.decodeFirst es.length (es.flatMap w.encode) = es := by
  induction es with
  | nil => rfl
  | cons e es ih =>
    rw [List.length_cons, decodeFirst, List.flatMap_cons, List.take_left' (length_encode w e),
      List.drop_left' (length_encode w e), decode_encode (h e List.mem_cons_self),
      ih fun e he => h e (List.mem_cons_of_mem _ he)]

end OffsetWidth

namespace OffsetTable

variable {w : OffsetWidth} {t u : OffsetTable w} {es : List Int} {i j slots committed : Nat}
  {v last : Int}

/-! ## The array -/

/-- The entries in order. -/
def entries (t : OffsetTable w) : List Int :=
  (List.range (t.slotCapacity + 1)).map fun i => (t.get? i).getD 0

theorem get?_eq_none (hi : t.slotCapacity < i) : t.get? i = none :=
  Option.eq_none_iff_forall_ne_some.2 fun _ hv =>
    Nat.not_le_of_lt hi (le_slotCapacity_of_get? hv)

theorem length_entries (t : OffsetTable w) : t.entries.length = t.slotCapacity + 1 := by
  rw [entries, List.length_map, List.length_range]

theorem getElem?_entries (t : OffsetTable w) (i : Nat) : t.entries[i]? = t.get? i := by
  rw [entries, List.getElem?_map]
  rcases Nat.lt_or_ge t.slotCapacity i with hi | hi
  · rw [List.getElem?_eq_none (by simpa using Nat.succ_le_of_lt hi), get?_eq_none hi]
    rfl
  · obtain ⟨v, hv⟩ := exists_get? hi
    rw [List.getElem?_range (Nat.lt_succ_of_le hi), Option.map_some, hv]
    rfl

/-- The array is known by its elements. -/
theorem entries_eq_of_get? (h : ∀ j, t.get? j = es[j]?) : t.entries = es :=
  List.ext_getElem? fun j => (getElem?_entries t j).trans (h j)

theorem holds_of_mem_entries (hv : v ∈ t.entries) : w.Holds v := by
  obtain ⟨i, hi⟩ := List.mem_iff_getElem?.1 hv
  exact holds_of_get? ((getElem?_entries t i).symm.trans hi)

theorem entries?_eq_flatMap {count : Nat} (h : count ≤ t.slotCapacity) :
    t.entries? count = some ((t.entries.take (count + 1)).flatMap w.encode) := by
  have hentry : ∀ i ≤ count, t.get? i = some ((t.get? i).getD 0) := fun i hi => by
    obtain ⟨v, hv⟩ := exists_get? (Nat.le_trans hi h)
    rw [hv]
    rfl
  rw [entries?_eq hentry, entries, ← List.map_take, List.take_range,
    Nat.min_eq_left (Nat.succ_le_succ h), List.flatMap_map]

/-- Blocks hold a whole number of entries. -/
theorem size_eq (h : t.block.size ≠ 0) : t.block.size = (t.slotCapacity + 1) * w.bytes := by
  have hdvd : w.bytes ∣ t.block.size := Nat.dvd_trans (by cases w <;> decide) t.block.size_dvd
  have hone : 1 ≤ t.block.size / w.bytes :=
    Nat.div_pos (Nat.le_of_dvd (Nat.pos_of_ne_zero h) hdvd) w.bytes_pos
  rw [slotCapacity, Nat.sub_add_cancel hone, Nat.div_mul_cancel hdvd]

theorem toList_block (h : t.block.size ≠ 0) : t.block.toList = t.entries.flatMap w.encode := by
  have hall := entries?_eq_flatMap (Nat.le_refl t.slotCapacity)
  rw [entries?, if_neg (by simpa using h), ← size_eq h, ← length_entries, List.take_length] at hall
  obtain ⟨-, hall⟩ := Block.read?_eq_some_iff.1 hall
  rw [hall, List.drop_zero, List.take_of_length_le (Nat.le_of_eq (Block.length_toList _))]

/-- A table is read as an array of offsets. -/
structure Lists (t : OffsetTable w) (es : List Int) : Prop where
  length : es.length = t.slotCapacity + 1
  get? : ∀ i, t.get? i = es[i]?
  holds : ∀ e ∈ es, w.Holds e
  without_memory : t.block.size = 0 → es = [0]
  /-- Its memory holds the encodings of all entries and nothing else. -/
  toList : t.block.size ≠ 0 → t.block.toList = es.flatMap w.encode
  /-- The bytes given out encode the first entries, which can be decoded from them again. -/
  entries? : ∀ count ≤ t.slotCapacity, ∃ bytes, t.entries? count = some bytes ∧
    bytes = (es.take (count + 1)).flatMap w.encode ∧
    w.decodeFirst (count + 1) bytes = es.take (count + 1)

theorem lists_entries (t : OffsetTable w) : t.Lists t.entries where
  length := length_entries t
  get? := fun i => (getElem?_entries t i).symm
  holds := fun _ => holds_of_mem_entries
  without_memory := fun h => by
    rw [entries, slotCapacity_of_size_zero h, Nat.zero_add, List.range_one, List.map_singleton,
      get?_of_size_zero h]
    rfl
  toList := toList_block
  entries? := fun count hcount => by
    have hlength : (t.entries.take (count + 1)).length = count + 1 := by
      rw [List.length_take, length_entries, Nat.min_eq_left (Nat.succ_le_succ hcount)]
    refine ⟨_, entries?_eq_flatMap hcount, rfl, ?_⟩
    have hholds : ∀ e ∈ t.entries.take (count + 1), w.Holds e := fun e he =>
      holds_of_mem_entries (List.mem_of_mem_take he)
    have hdecode := OffsetWidth.decodeFirst_flatMap_encode hholds
    rwa [hlength] at hdecode

theorem lists_of_get? (h : ∀ j, t.get? j = es[j]?) : t.Lists es :=
  entries_eq_of_get? h ▸ lists_entries t

/-! ## Writing an entry -/

theorem put?_eq_some (h : t.block.size ≠ 0) (hi : i ≤ t.slotCapacity) (v : Int) :
    t.put? i v = some (t.put i v) :=
  put?_eq_some_iff.2 ⟨(le_slotCapacity_iff (Nat.pos_of_ne_zero h)).1 hi, rfl⟩

theorem put?_eq_none (h : t.block.size = 0 ∨ t.slotCapacity < i) (v : Int) :
    t.put? i v = none := by
  refine Option.eq_none_iff_forall_ne_some.2 fun u hu => ?_
  obtain ⟨hle, -⟩ := put?_eq_some_iff.1 hu
  have hpos : 0 < (i + 1) * w.bytes := Nat.mul_pos i.succ_pos w.bytes_pos
  have := (le_slotCapacity_iff (Nat.lt_of_lt_of_le hpos hle)).2 hle
  omega

theorem lists_put (h : t.block.size ≠ 0) (hi : i ≤ t.slotCapacity) (hv : w.Holds v) :
    (t.put i v).Lists (t.entries.set i v) := by
  refine lists_of_get? fun j => ?_
  rw [get?_put hv ((le_slotCapacity_iff (Nat.pos_of_ne_zero h)).1 hi), List.getElem?_set,
    length_entries, if_pos (Nat.lt_succ_of_le hi), getElem?_entries]
  simp only [eq_comm]

/-- The bytes outside of an entry are left alone when it is written. -/
theorem getElem?_toList_put (t : OffsetTable w) (i : Nat) (v : Int) {k : Nat}
    (hk : k < i * w.bytes ∨ (i + 1) * w.bytes ≤ k) :
    (t.put i v).block.toList[k]? = t.block.toList[k]? := by
  rw [Nat.add_mul, Nat.one_mul] at hk
  simp only [put, Block.toList, Block.write, Array.getElem?_toList]
  rw [Bytes.getElem?_write, OffsetWidth.length_encode, if_neg (by omega)]

/-! ## Growing -/

/-- Every entry that growing adds is made equal to the last one in use. -/
theorem reserve_fills (hneeded : ¬(slots ≤ t.slotCapacity ∧ t.block.size ≠ 0))
    (hlast : t.get? committed = some last) (a : Allocator) :
    (t.reserve slots committed a).Sat
      (fun u _ => ∀ j, committed < j → j ≤ u.slotCapacity → u.get? j = some last)
      (fun _ _ => True) True := by
  rw [reserve_eq, if_neg hneeded]
  split
  · trivial
  refine Call.sat_bind.2 ((Allocator.reallocate_sat ..).mono (fun b c hgrant => ?_)
    (fun _ _ _ => trivial) False.elim)
  obtain ⟨hb, hsize, -⟩ := hgrant
  -- What is read behind the growth is what was there before it.
  have hgrown : (mk b : OffsetTable w).get? committed = some last := get?_growsTo hb hlast
  rw [hgrown]
  have hcapacity := le_slotCapacity_of_get? hgrown
  have hround := Size.le_roundUp ((slots + 1) * w.bytes)
  have hpos : 0 < (slots + 1) * w.bytes := Nat.mul_pos slots.succ_pos w.bytes_pos
  have hroom : (committed + 1 + ((mk b : OffsetTable w).slotCapacity - committed)) * w.bytes ≤
      b.size := by
    rw [show committed + 1 + ((mk b : OffsetTable w).slotCapacity - committed) =
      (mk b : OffsetTable w).slotCapacity + 1 by omega]
    exact (le_slotCapacity_iff (t := mk b) (show 0 < b.size by omega)).1 (Nat.le_refl _)
  intro j hj hle
  have hle' : j ≤ (mk b : OffsetTable w).slotCapacity := by
    simpa only [slotCapacity, size_fillFrom] using hle
  rw [get?_fillFrom (holds_of_get? hlast) hroom, if_pos (by omega)]

theorem lists_of_reserve {a b : Allocator}
    (hneeded : ¬(slots ≤ t.slotCapacity ∧ t.block.size ≠ 0))
    (hlast : t.get? committed = some last) (h : t.reserve slots committed a = .done u b) :
    u.Lists (t.entries.take (committed + 1) ++
      List.replicate (u.slotCapacity - committed) last) := by
  obtain ⟨-, -, hkept, -⟩ := (reserve_sat t slots committed a).of_done h
  have hfilled := (reserve_fills hneeded hlast a).of_done h
  have hcommitted := le_slotCapacity_of_get? hlast
  have hlength : (t.entries.take (committed + 1)).length = committed + 1 := by
    rw [List.length_take, length_entries, Nat.min_eq_left (Nat.succ_le_succ hcommitted)]
  refine lists_of_get? fun j => ?_
  rw [List.getElem?_append, hlength, List.getElem?_replicate]
  by_cases hj : j < committed + 1
  · obtain ⟨v, hv⟩ := exists_get? (t := t) (i := j) (by omega)
    rw [if_pos hj, List.getElem?_take_of_lt hj, getElem?_entries, hv,
      hkept j (Nat.le_of_lt_succ hj) v hv]
  · rw [if_neg hj]
    split
    · exact hfilled j (by omega) (by omega)
    · exact get?_eq_none (by omega)

/-! ## Tables that are paid for -/

/-- Makes room for the ends of `slots` slots of which `committed` are in use. -/
def grow (slots committed : Nat) : Call MemoryRefusal (Paid (OffsetTable w)) Unit :=
  Paid.request (·.reserve slots committed)

/-- How changes of a table end, in terms of its entries. -/
structure Ends (p : Paid (OffsetTable w)) : Prop where
  /-- A write changes one entry and no byte of any other. -/
  put : p.buffer.block.size ≠ 0 → ∀ i ≤ p.buffer.slotCapacity, ∀ v, w.Holds v → ∃ u,
    p.buffer.put? i v = some u ∧ u.Lists (p.buffer.entries.set i v) ∧
      ∀ k, k < i * w.bytes ∨ (i + 1) * w.bytes ≤ k →
        u.block.toList[k]? = p.buffer.block.toList[k]?
  put_past : ∀ i v, p.buffer.block.size = 0 ∨ p.buffer.slotCapacity < i →
    p.buffer.put? i v = none
  grow_within : ∀ slots committed, slots ≤ p.buffer.slotCapacity → p.buffer.block.size ≠ 0 →
    grow slots committed p = .done () p
  /-- Where there is no such room, it is granted behind the entries in use, all of it filled with the
  last of them and paid for, or the table is left as it was. -/
  grow_needed : ∀ slots, ∀ committed ≤ p.buffer.slotCapacity,
    ¬(slots ≤ p.buffer.slotCapacity ∧ p.buffer.block.size ≠ 0) →
    (∃ u a last, grow slots committed p = .done () ⟨a, u⟩ ∧ slots ≤ u.slotCapacity ∧
      p.buffer.entries[committed]? = some last ∧
      u.Lists (p.buffer.entries.take (committed + 1) ++
        List.replicate (u.slotCapacity - committed) last) ∧
      p.allocator.Grants (u.block.size - p.buffer.block.size) a) ∨
    ∃ e a, grow slots committed p = .refused e { p with allocator := a } ∧
      (p.allocator.limit ≤ Size.max → a = p.allocator)
  grow_tooLarge : ∀ slots committed, Size.max < (slots + 1) * w.bytes →
    grow slots committed p = .refused .tooLarge p
  /-- It is granted where the machine has it and the account as well. -/
  grow_done : ∀ slots, ∀ committed ≤ p.buffer.slotCapacity,
    Size.roundUp ((slots + 1) * w.bytes) < Block.bound →
    p.allocator.allocated + max p.buffer.block.size (Size.roundUp ((slots + 1) * w.bytes)) ≤
      p.allocator.limit + p.buffer.block.size → ∃ q, grow slots committed p = .done () q

section grow

variable {p : Paid (OffsetTable w)}

theorem grow_of_le (hslots : slots ≤ p.buffer.slotCapacity) (h : p.buffer.block.size ≠ 0)
    (committed : Nat) : grow slots committed p = .done () p :=
  Paid.request_of_done (by rw [reserve_eq, if_pos ⟨hslots, h⟩]; rfl)

/-- A table that has room for the slots is far from sizes that cannot be represented. -/
theorem grow_tooLarge (h : Size.max < (slots + 1) * w.bytes) (committed : Nat) :
    grow slots committed p = .refused .tooLarge p := by
  have hneeded : ¬(slots ≤ p.buffer.slotCapacity ∧ p.buffer.block.size ≠ 0) := by
    rintro ⟨hslots, hsize⟩
    have hle := (le_slotCapacity_iff (Nat.pos_of_ne_zero hsize)).1 hslots
    have := p.buffer.block.size_lt_bound
    simp only [Block.bound, Size.max] at *
    omega
  exact Paid.request_of_refused (by rw [reserve_eq, if_neg hneeded, if_pos h]; rfl)

theorem grow_ends (hcommitted : committed ≤ p.buffer.slotCapacity)
    (hneeded : ¬(slots ≤ p.buffer.slotCapacity ∧ p.buffer.block.size ≠ 0)) :
    (∃ u a last, grow slots committed p = .done () ⟨a, u⟩ ∧ slots ≤ u.slotCapacity ∧
      p.buffer.entries[committed]? = some last ∧
      u.Lists (p.buffer.entries.take (committed + 1) ++
        List.replicate (u.slotCapacity - committed) last) ∧
      p.allocator.Grants (u.block.size - p.buffer.block.size) a) ∨
    ∃ e a, grow slots committed p = .refused e { p with allocator := a } ∧
      (p.allocator.limit ≤ Size.max → a = p.allocator) := by
  obtain ⟨last, hlast⟩ := exists_get? hcommitted
  have hsat := reserve_sat p.buffer slots committed p.allocator
  cases hend : p.buffer.reserve slots committed p.allocator with
  | done u a =>
    rw [hend] at hsat
    obtain ⟨hslots, -, -, -, ha⟩ := hsat
    exact .inl ⟨u, a, last, Paid.request_of_done hend, hslots,
      (getElem?_entries ..).trans hlast, lists_of_reserve hneeded hlast hend, ha⟩
  | refused e a =>
    rw [hend] at hsat
    exact .inr ⟨e, a, Paid.request_of_refused hend, hsat⟩
  | breach =>
    rw [hend] at hsat
    exact absurd (hsat.symm.trans hlast) nofun

theorem grow_done (hcommitted : committed ≤ p.buffer.slotCapacity)
    (hmachine : Size.roundUp ((slots + 1) * w.bytes) < Block.bound)
    (hroom : p.allocator.allocated +
        max p.buffer.block.size (Size.roundUp ((slots + 1) * w.bytes)) ≤
      p.allocator.limit + p.buffer.block.size) : ∃ q, grow slots committed p = .done () q := by
  obtain ⟨last, hlast⟩ := exists_get? hcommitted
  obtain ⟨u, a, hdone, -⟩ := reserve_done (by rw [hlast]; nofun) hmachine hroom
  exact ⟨_, Paid.request_of_done hdone⟩

end grow

/-- A table with the allocator that pays for it, whatever its bytes are: all readers read one array of
offsets, of which the bytes are the encoding, and each change makes of it what it should, or leaves it
as it was. -/
theorem offsets_are_array (p : Paid (OffsetTable w)) :
    p.buffer.Lists p.buffer.entries ∧ Ends p where
  left := lists_entries p.buffer
  right :=
    { put := fun h i hi v hv => ⟨_, put?_eq_some h hi v, lists_put h hi hv, fun _ hk =>
        getElem?_toList_put p.buffer i v hk⟩
      put_past := fun _ v h => put?_eq_none h v
      grow_within := fun _ committed hslots h => grow_of_le hslots h committed
      grow_needed := fun _ _ => grow_ends
      grow_tooLarge := fun _ committed h => grow_tooLarge h committed
      grow_done := fun _ _ => grow_done }

end OffsetTable

end PackedColumn
