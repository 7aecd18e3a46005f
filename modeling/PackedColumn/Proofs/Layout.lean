import PackedColumn.Column.Check
import PackedColumn.Proofs.Flags
import PackedColumn.Proofs.Offsets
import PackedColumn.Proofs.Slots
import PackedColumn.Proofs.Values

/-!
# What the buffers of a column stand for

`Column.Encodes c xs` says that the three buffers of a column and its extent
stand for a list of slots: flags for the slots that hold a value, offsets that
are the sums of the lengths before, and the bytes of all values in front of
the value store. Nothing is said of what the buffers hold past the slots.

* `Encodes.slot?`, `Encodes.slots?`, `Encodes.shows`: every reader gives the slots of the list.
* `Encodes.wellFormed`: the layout that follows, in terms of the buffers alone (`WellFormed`).
* `Encodes.checkLayout`: the layout check passes.
-/

namespace PackedColumn

/-- The flags of the slots of a list. -/
def Validity.Marks (v : Validity) (xs : Slots) : Prop :=
  ∀ i x, xs[i]? = some x → v.get? i = some x.isSome

/-- The offsets of the slots of a list, and where the last one ends. -/
def OffsetTable.Delimits {w : OffsetWidth} (t : OffsetTable w) (xs : Slots) : Prop :=
  ∀ i ≤ xs.length, t.get? i = some (xs.offset i : Int)

theorem OffsetTable.Delimits.start? {w : OffsetWidth} {t : OffsetTable w} {xs : Slots}
    (h : t.Delimits xs) {i : Nat} (hi : i ≤ xs.length) : t.start? i = some (xs.offset i) :=
  start?_of_get? (h i hi)

theorem OffsetTable.Delimits.total? {w : OffsetWidth} {t : OffsetTable w} {xs : Slots}
    (h : t.Delimits xs) : t.start? xs.length = some xs.bytes.length := by
  rw [h.start? (Nat.le_refl _), Slots.offset_length]

theorem OffsetTable.Delimits.length? {w : OffsetWidth} {t : OffsetTable w} {xs : Slots}
    (h : t.Delimits xs) {i : Nat} {x : Option (List UInt8)} (hx : xs[i]? = some x) :
    t.length? i = some (Slots.value x).length := by
  obtain ⟨hi, rfl⟩ := List.getElem?_eq_some_iff.1 hx
  have hs := Slots.offset_succ hi
  have hstop : t.stop? i = some (xs.offset (i + 1)) := h.start? hi
  simp only [OffsetTable.length?, hstop, h.start? (Nat.le_of_lt hi), Option.bind_eq_bind,
    Option.bind_some]
  rw [if_pos (by omega)]
  congr 1; omega

namespace Extent

/-- The slot after the highest one written. -/
def next (e : Extent) : Nat := (e.last.map (· + 1)).getD 0

/-- An extent has the slots of a list, of which those behind the highest one written are null. -/
structure Covers (e : Extent) (xs : Slots) : Prop where
  count : e.count = xs.length
  last_lt : ∀ l ∈ e.last, l < xs.length
  blank : ∀ i, e.next ≤ i → i < xs.length → xs[i]? = some none

theorem next_le_iff {e : Extent} {i : Nat} : e.next ≤ i ↔ ∀ l ∈ e.last, l < i := by
  unfold next
  cases e.last with
  | none => exact ⟨fun _ => nofun, fun _ => Nat.zero_le i⟩
  | some l => exact ⟨fun h _ hl => Option.some.inj hl ▸ h, fun h => h l rfl⟩

theorem Covers.next_le {e : Extent} {xs : Slots} (h : e.Covers xs) : e.next ≤ xs.length :=
  next_le_iff.2 h.last_lt

end Extent

namespace Column

variable {t : ColumnType} {c d : Column t} {xs ys : Slots}

/-- The buffers and the extent of a column stand for a list of slots. -/
structure Encodes (c : Column t) (xs : Slots) : Prop where
  extent : c.extent.Covers xs
  flags : c.validity.Marks xs
  offsets : c.offsets.Delimits xs
  values : xs.bytes <+: c.values.block.toList
  fits : xs.bytes.length ≤ t.width.max

/-- A column shows a list of slots: it has as many, and each reads as the list has it. -/
def Shows (c : Column t) (xs : Slots) : Prop :=
  c.count = xs.length ∧ ∀ i x, xs[i]? = some x → c.get i = some (.ok x)

/-- How the buffers of a column fit together. -/
structure WellFormed (c : Column t) : Prop where
  /-- The first value starts at byte 0. -/
  start : c.offsets.get? 0 = some 0
  /-- No slot ends before it starts. -/
  ascending : ∀ i < c.count, ∃ m n, c.offsets.get? i = some m ∧ c.offsets.get? (i + 1) = some n ∧ m ≤ n
  /-- A null slot is empty. -/
  null_empty : ∀ i < c.count, c.validity.get? i = some false →
    c.offsets.get? i = c.offsets.get? (i + 1)
  /-- The slot written last is defined. -/
  last_lt : ∀ l ∈ c.extent.last, l < c.count
  /-- The slots after it are null and empty. -/
  blank : ∀ i < c.count, (∀ l ∈ c.extent.last, l < i) →
    c.validity.get? i = some false ∧ c.offsets.get? i = c.offsets.get? (i + 1)
  /-- The defined slots lie in the memory held. -/
  count_le : c.count ≤ c.slotCapacity
  /-- So do the values, whose end is an offset. -/
  total : ∃ n : Nat, c.offsets.get? c.count = some (n : Int) ∧ n ≤ c.byteCapacity ∧
    n ≤ t.width.max

/-- No flag past the slots is set. -/
def Clean (c : Column t) : Prop := ∀ j, c.validity.get? j = some true → j < c.count

/-- Without slots, all that counts is where the first would start. -/
theorem encodes_nil (he : c.extent = .empty) (hstart : c.offsets.get? 0 = some 0) :
    c.Encodes [] where
  extent := by rw [he]; exact ⟨rfl, nofun, nofun⟩
  flags := nofun
  offsets := fun i hi => by
    obtain rfl : i = 0 := Nat.le_zero.1 hi
    exact hstart
  values := List.nil_prefix
  fits := Nat.zero_le _

theorem encodes_new (name : String) (nullable : Bool) (settings : Settings) :
    (new name nullable settings : Column t).Encodes [] := encodes_nil rfl rfl

theorem slotCapacity_lt (c : Column t) : c.slotCapacity < Size.max := by
  have := c.validity.block.size_lt_bound
  simp only [slotCapacity, Validity.bitCapacity, Block.bound, Size.max] at *
  omega

/-- Offsets and values alone say what the bytes of a slot are. -/
theorem bytes?_of_delimits (ho : c.offsets.Delimits xs) (hv : xs.bytes <+: c.values.block.toList)
    {i : Nat} {x : Option (List UInt8)} (hx : xs[i]? = some x) :
    c.bytes? i = some (Slots.value x) := by
  obtain ⟨hi, hx'⟩ := List.getElem?_eq_some_iff.1 hx
  rw [Slots.bytes_eq_of_lt hi, hx'] at hv
  simp only [Column.bytes?, ho.start? (Nat.le_of_lt hi), ho.length? hx, Option.bind_eq_bind,
    Option.bind_some]
  exact ValueStore.read?_eq hv

namespace Encodes

theorem count (h : c.Encodes xs) : c.count = xs.length := h.extent.count

theorem get?_count_ne_none (h : c.Encodes xs) : c.offsets.get? c.count ≠ none := by
  rw [h.count, h.offsets _ (Nat.le_refl _)]
  nofun

/-! ## Readers -/

theorem totalBytes? (h : c.Encodes xs) : c.totalBytes? = some xs.bytes.length := by
  rw [Column.totalBytes?, h.count]
  exact h.offsets.total?

theorem start? (h : c.Encodes xs) {i : Nat} (hi : i ≤ xs.length) :
    c.offsets.start? i = some (xs.offset i) := h.offsets.start? hi

theorem length? (h : c.Encodes xs) {i : Nat} {x : Option (List UInt8)} (hx : xs[i]? = some x) :
    c.offsets.length? i = some (Slots.value x).length := h.offsets.length? hx

theorem bytes? (h : c.Encodes xs) {i : Nat} {x : Option (List UInt8)} (hx : xs[i]? = some x) :
    c.bytes? i = some (Slots.value x) := bytes?_of_delimits h.offsets h.values hx

theorem slot? (h : c.Encodes xs) {i : Nat} {x : Option (List UInt8)} (hx : xs[i]? = some x) :
    c.slot? i = some x := by
  simp only [Column.slot?, h.flags i x hx, h.bytes? hx, Option.bind_eq_bind, Option.bind_some]
  cases x <;> rfl

theorem slotsFrom? (h : c.Encodes xs) (done : Slots) (i n : Nat) (hn : i + n ≤ xs.length) :
    c.slotsFrom? done i n = some (done.reverse ++ (xs.drop i).take n) := by
  induction n generalizing done i with
  | zero => simp [Column.slotsFrom?]
  | succ n ih =>
    have hi : i < xs.length := by omega
    simp only [Column.slotsFrom?, h.slot? (List.getElem?_eq_getElem hi), Option.bind_eq_bind,
      Option.bind_some]
    rw [ih _ _ (by omega), List.drop_eq_getElem_cons hi, List.take_succ_cons, List.reverse_cons,
      List.append_assoc, List.singleton_append]

theorem slots? (h : c.Encodes xs) : c.slots? = some xs := by
  rw [Column.slots?, h.slotsFrom? [] 0 c.count (by have := h.count; omega), h.count]
  simp

theorem eq_of_encodes (h : c.Encodes xs) (h' : c.Encodes ys) : xs = ys :=
  Option.some.inj (h.slots?.symm.trans h'.slots?)

theorem get (h : c.Encodes xs) {i : Nat} {x : Option (List UInt8)} (hx : xs[i]? = some x) :
    c.get i = some (.ok x) := by
  have hi := (List.getElem?_eq_some_iff.1 hx).1
  rw [Column.get, atSlot_of_lt (by rw [h.count]; exact hi), h.slot? hx]
  rfl

theorem shows (h : c.Encodes xs) : c.Shows xs := ⟨h.count, fun _ _ hx => h.get hx⟩

/-! ## The layout -/

theorem byteCapacity (h : c.Encodes xs) : xs.bytes.length ≤ c.byteCapacity :=
  h.values.length_le

theorem le_slotCapacity (h : c.Encodes xs) : xs.length ≤ c.slotCapacity := by
  refine Nat.le_min.2 ⟨?_, OffsetTable.le_slotCapacity_of_get? (h.offsets _ (Nat.le_refl _))⟩
  by_cases h0 : xs.length = 0
  · omega
  · have := (Validity.get?_eq_some_iff.1
      (h.flags (xs.length - 1) _ (List.getElem?_eq_getElem (by omega)))).1
    omega

theorem count_lt_max (h : c.Encodes xs) : xs.length < Size.max := by
  have := h.le_slotCapacity
  have := c.slotCapacity_lt
  omega

theorem offset_succ_eq (h : c.Encodes xs) {i : Nat} (hx : xs[i]? = some none) :
    c.offsets.get? i = c.offsets.get? (i + 1) := by
  obtain ⟨hi, hx'⟩ := List.getElem?_eq_some_iff.1 hx
  rw [h.offsets i (by omega), h.offsets (i + 1) (by omega), Slots.offset_succ hi, hx']
  rfl

theorem wellFormed (h : c.Encodes xs) : c.WellFormed where
  start := h.offsets 0 (Nat.zero_le _)
  ascending := fun i hi => by
    rw [h.count] at hi
    exact ⟨_, _, h.offsets i (by omega), h.offsets (i + 1) (by omega),
      Int.ofNat_le.2 (Slots.offset_mono xs (Nat.le_succ i))⟩
  null_empty := fun i hi hnull => by
    rw [h.count] at hi
    have hx := List.getElem?_eq_getElem hi
    have hf := h.flags i _ hx
    rw [hnull, Option.some.injEq] at hf
    have hnone : xs[i] = none := by simpa using hf.symm
    exact h.offset_succ_eq (hx.trans (congrArg some hnone))
  last_lt := fun l hl => by rw [h.count]; exact h.extent.last_lt l hl
  blank := fun i hi hl => by
    rw [h.count] at hi
    have hx := h.extent.blank i (Extent.next_le_iff.2 hl) hi
    exact ⟨h.flags i _ hx, h.offset_succ_eq hx⟩
  count_le := by rw [h.count]; exact h.le_slotCapacity
  total := ⟨xs.bytes.length, by rw [h.count, h.offsets _ (Nat.le_refl _), Slots.offset_length],
    h.byteCapacity, h.fits⟩

theorem decrease? (h : c.Encodes xs) (i n : Nat) (hn : i + n ≤ xs.length) :
    c.offsets.decrease? i n = some none := by
  induction n generalizing i with
  | zero => rfl
  | succ n ih =>
    have := Slots.offset_mono xs (show i ≤ i + 1 by omega)
    simp only [OffsetTable.decrease?, h.offsets i (by omega), h.offsets (i + 1) (by omega),
      Option.bind_eq_bind, Option.bind_some]
    rw [if_neg (by omega), ih _ (by omega)]

theorem fullNull? (h : c.Encodes xs) (i n : Nat) (hn : i + n ≤ xs.length) :
    c.fullNull? i n = some none := by
  induction n generalizing i with
  | zero => rfl
  | succ n ih =>
    have hx := List.getElem?_eq_getElem (show i < xs.length by omega)
    simp only [Column.fullNull?, h.flags i _ hx, h.length? hx, Option.bind_eq_bind,
      Option.bind_some, ih (i + 1) (by omega)]
    cases xs[i] <;> rfl

theorem checkLayout (h : c.Encodes xs) : c.checkLayout = some (.ok ()) := by
  have hc := h.byteCapacity
  have hstart : c.offsets.start? 0 = some 0 := h.start? (Nat.zero_le _)
  have hlen : 0 + c.count ≤ xs.length := by rw [h.count]; omega
  have hfault : c.layoutFault? = some none := by
    simp only [Column.layoutFault?, hstart, h.decrease? _ _ hlen, h.fullNull? _ _ hlen,
      h.totalBytes?, Option.bind_eq_bind, Option.bind_some]
    rw [if_neg (by simp), if_neg (by omega)]
    rfl
  rw [Column.checkLayout, hfault]
  rfl

end Encodes

end Column

end PackedColumn
