import PackedColumn.PlainArray
import PackedColumn.Proofs.Slots

/-!
# Arrays as lists of slots

What is taken for granted of a library of Arrow arrays (`ArrowLibrary.Standard`):
every array is laid out in the Arrow way, one that is made of slots has the
offsets and bytes of these, and a window answers for its own slots.

* `WindowOf.slots_eq`: the slots of a window.
* `LaidOut.fits`: the values of an array are no more than its bytes, fewer if null slots or slots
  outside of the window have some.
* `LaidOut.slots_eq`: an array made of slots has them.
* `PlainArray.standard`: a library that is such a one.
-/

namespace PackedColumn

variable {w : OffsetWidth}

namespace ArrowArray

/-- The values together are no more than the bytes behind them, and end at an offset. -/
structure Fits (w : OffsetWidth) (a : ArrowArray) : Prop where
  data : (Slots.bytes a.slots).length ≤ a.dataSize
  max : (Slots.bytes a.slots).length ≤ w.max

end ArrowArray

namespace ArrowLibrary

variable {α : Type} {lib : ArrowLibrary α} {a b : α} {xs : Slots} {i start length : Nat}

/-- An array in the Arrow layout: its entries do not decrease, end within the data and at an offset,
and delimit the values of the slots that are not null. -/
structure LaidOut (lib : ArrowLibrary α) (w : OffsetWidth) (a : α) : Prop where
  /-- There is one entry for each slot and one for the end. -/
  entries : (lib.offsets a).length = (lib.view a).slotCount + 1
  ascending : (lib.offsets a).Pairwise (· ≤ ·)
  within : ∀ e ∈ lib.offsets a, e ≤ (lib.data a).length ∧ e ≤ w.max
  value : ∀ i start stop, (lib.offsets a)[i]? = some start → (lib.offsets a)[i + 1]? = some stop →
    (lib.view a).isNull i = false →
      (lib.view a).value i = ((lib.data a).drop start).take (stop - start)
  dataSize : (lib.view a).dataSize = (lib.data a).length

/-- An array is made of slots: it has as many, with the same ones null, and its entries and data are
the prefix sums of their lengths and their bytes. -/
structure MadeOf (lib : ArrowLibrary α) (xs : Slots) (a : α) : Prop where
  slotCount : (lib.view a).slotCount = xs.length
  isNull : ∀ i x, xs[i]? = some x → (lib.view a).isNull i = x.isNone
  offsets : lib.offsets a = (List.range (xs.length + 1)).map xs.offset
  data : lib.data a = xs.bytes

/-- What a window answers is what the array it is of answers, from its first slot on. -/
structure WindowOf (lib : ArrowLibrary α) (a : α) (start length : Nat) (b : α) : Prop where
  slotCount : (lib.view b).slotCount = length
  isNull : ∀ i < length, (lib.view b).isNull i = (lib.view a).isNull (start + i)
  value : ∀ i < length, (lib.view a).isNull (start + i) = false →
    (lib.view b).value i = (lib.view a).value (start + i)

/-- What is known of a library of Arrow arrays. -/
structure Standard (lib : ArrowLibrary α) (w : OffsetWidth) : Prop where
  laidOut : ∀ a, lib.LaidOut w a
  ofSlots : ∀ xs : Slots, xs.bytes.length ≤ w.max → lib.MadeOf xs (lib.ofSlots xs)
  slice? : ∀ a start length, start + length ≤ (lib.view a).slotCount →
    ∃ b, lib.slice? a start length = some b ∧ lib.WindowOf a start length b

/-! ## Windows -/

/-- The slots of a window. -/
theorem WindowOf.slots_eq (h : lib.WindowOf a start length b)
    (hrange : start + length ≤ (lib.view a).slotCount) :
    (lib.view b).slots = Slots.slice (lib.view a).slots start length := by
  have hlength : (Slots.slice (lib.view a).slots start length).length = length :=
    Slots.length_slice (by rw [ArrowArray.length_slots]; exact hrange)
  refine List.ext_getElem (by rw [ArrowArray.length_slots, h.slotCount, hlength]) fun i hi hi' => ?_
  rw [hlength] at hi'
  have hslot : (Slots.slice (lib.view a).slots start length)[i]? = (lib.view a).slots[start + i]? :=
    Slots.getElem?_slice hi'
  rw [List.getElem?_eq_getElem (by omega),
    List.getElem?_eq_getElem (by rw [ArrowArray.length_slots]; omega),
    ArrowArray.getElem_slots] at hslot
  rw [Option.some.inj hslot, ArrowArray.getElem_slots, ArrowArray.slot, ArrowArray.slot,
    h.isNull i hi']
  cases hnull : (lib.view a).isNull (start + i) with
  | true => rfl
  | false => simp only [h.value i hi' hnull]

/-! ## Values and bytes -/

/-- Where the value of slot `i` starts, and that of the slot before ends. -/
def position (lib : ArrowLibrary α) (a : α) (i : Nat) : Nat := (lib.offsets a).getD i 0

namespace LaidOut

theorem getElem?_offsets (h : lib.LaidOut w a) (hi : i ≤ (lib.view a).slotCount) :
    (lib.offsets a)[i]? = some (lib.position a i) := by
  have hlt : i < (lib.offsets a).length := by
    rw [h.entries]
    exact Nat.lt_succ_of_le hi
  rw [position, List.getD_eq_getElem?_getD, List.getElem?_eq_getElem hlt]
  rfl

theorem position_le (h : lib.LaidOut w a) (hi : i < (lib.view a).slotCount) :
    lib.position a i ≤ lib.position a (i + 1) := by
  obtain ⟨hlt, hstart⟩ := List.getElem?_eq_some_iff.1 (h.getElem?_offsets (Nat.le_of_lt hi))
  obtain ⟨hlt', hstop⟩ := List.getElem?_eq_some_iff.1 (h.getElem?_offsets hi)
  rw [← hstart, ← hstop]
  exact List.pairwise_iff_getElem.1 h.ascending i (i + 1) hlt hlt' (Nat.lt_succ_self i)

/-- A value takes no more than what lies between its entries. -/
theorem length_value_le (h : lib.LaidOut w a) (hi : i < (lib.view a).slotCount) :
    lib.position a i + (Slots.value ((lib.view a).slot i)).length ≤ lib.position a (i + 1) := by
  have hle := h.position_le hi
  cases hnull : (lib.view a).isNull i with
  | true =>
    rw [ArrowArray.slot, hnull]
    exact hle
  | false =>
    have hvalue := h.value i _ _ (h.getElem?_offsets (Nat.le_of_lt hi)) (h.getElem?_offsets hi) hnull
    rw [ArrowArray.slot, hnull, if_neg Bool.false_ne_true, Slots.value_some, hvalue,
      List.length_take]
    omega

/-- The values of the first slots lie between the entries. -/
theorem offset_le (h : lib.LaidOut w a) (hi : i ≤ (lib.view a).slotCount) :
    lib.position a 0 + Slots.offset (lib.view a).slots i ≤ lib.position a i := by
  induction i with
  | zero => exact Nat.le_refl _
  | succ i ih =>
    have hlt : i < (lib.view a).slots.length := by rw [ArrowArray.length_slots]; exact hi
    have := ih (Nat.le_of_lt hi)
    have := h.length_value_le hi
    rw [Slots.offset_succ hlt, ArrowArray.getElem_slots]
    omega

theorem fits (h : lib.LaidOut w a) : (lib.view a).Fits w := by
  have hbytes := h.offset_le (Nat.le_refl _)
  rw [← ArrowArray.length_slots (lib.view a), Slots.offset_length, ArrowArray.length_slots] at hbytes
  obtain ⟨hdata, hmax⟩ :=
    h.within _ (List.mem_of_getElem? (h.getElem?_offsets (Nat.le_refl _)))
  rw [← h.dataSize] at hdata
  exact ⟨by omega, by omega⟩

/-- An array made of slots has them. -/
theorem slots_eq (h : lib.LaidOut w a) (hmade : lib.MadeOf xs a) : (lib.view a).slots = xs := by
  refine List.ext_getElem (by rw [ArrowArray.length_slots, hmade.slotCount]) fun i _ hi => ?_
  have hx := List.getElem?_eq_getElem hi
  have hentry : ∀ k ≤ xs.length, (lib.offsets a)[k]? = some (xs.offset k) := fun k hk => by
    rw [hmade.offsets, List.getElem?_map, List.getElem?_range (Nat.lt_succ_of_le hk)]
    rfl
  have hstop := Slots.offset_succ hi
  have hbetween : (xs.bytes.drop (xs.offset i)).take (xs.offset (i + 1) - xs.offset i) =
      Slots.value xs[i] := by
    rw [hstop, Nat.add_sub_cancel_left, Slots.bytes_eq_of_lt hi, List.append_assoc, Slots.offset,
      List.drop_left, List.take_left]
  rw [ArrowArray.getElem_slots, ArrowArray.slot, hmade.isNull i _ hx]
  cases hslot : xs[i] with
  | none => rfl
  | some v =>
    rw [hslot] at hbetween
    have hnull : (lib.view a).isNull i = false := by rw [hmade.isNull i _ hx, hslot]; rfl
    have hvalue := h.value i _ _ (hentry i (Nat.le_of_lt hi)) (hentry (i + 1) hi) hnull
    rw [hmade.data, hbetween] at hvalue
    rw [hvalue]
    rfl

end LaidOut

end ArrowLibrary

/-! ## Plain arrays -/

namespace PlainArray

variable {xs : Slots} {a : PlainArray w} {i : Nat}

theorem ends_eq (xs : Slots) (pos : Nat) :
    ends pos xs = (List.range xs.length).map fun i => pos + xs.offset (i + 1) := by
  induction xs generalizing pos with
  | nil => rfl
  | cons x xs ih =>
    rw [ends, ih, List.length_cons, List.range_succ_eq_map, List.map_cons, List.map_map]
    refine List.cons_eq_cons.2 ⟨?_, List.map_congr_left fun i _ => ?_⟩
    · rw [Slots.offset_cons_succ, Slots.offset_zero, Nat.add_zero]
      rfl
    · show _ = pos + Slots.offset (x :: xs) (i + 1 + 1)
      rw [Slots.offset_cons_succ x xs (i + 1), ← Nat.add_assoc]
      rfl

theorem offsets_eq (a : PlainArray w) :
    a.offsets = (((List.range (a.all.size + 1)).map (Slots.offset a.all.toList)).drop a.first).take
      (a.count + 1) := by
  rw [offsets, ends_eq, Array.length_toList, List.range_succ_eq_map, List.map_cons, List.map_map]
  simp only [Nat.zero_add]
  rfl

theorem getElem?_offsets_eq_some_iff {e : Nat} :
    a.offsets[i]? = some e ↔ i ≤ a.count ∧ e = Slots.offset a.all.toList (a.first + i) := by
  have hinside := a.inside
  rw [offsets_eq, List.getElem?_take]
  split
  · rw [List.getElem?_drop, List.getElem?_map, List.getElem?_range (by omega)]
    simp only [Option.map_some, Option.some.injEq, eq_comm]
    exact ⟨fun h => ⟨by omega, h⟩, fun h => h.2⟩
  · exact ⟨nofun, fun h => absurd h.1 (by omega)⟩

theorem offset_le_length_data (a : PlainArray w) (i : Nat) :
    Slots.offset a.all.toList i ≤ a.data.length := Slots.offset_le a.all.toList i

/-- A window answers for the slots that it is on. -/
theorem slot_view (hi : i < a.count) : a.all.toList[a.first + i]? = some (a.view.slot i) := by
  have hlt : a.first + i < a.all.size := Nat.lt_of_lt_of_le (Nat.add_lt_add_left hi _) a.inside
  rw [Array.getElem?_toList, Array.getElem?_eq_getElem hlt, ArrowArray.slot, view]
  simp only [Array.getD_eq_getD_getElem?, Array.getElem?_eq_getElem hlt, Option.getD_some]
  cases a.all[a.first + i] <;> rfl

theorem laidOut (a : PlainArray w) : (library w).LaidOut w a where
  entries := by
    have hinside := a.inside
    show a.offsets.length = a.count + 1
    rw [offsets_eq, List.length_take, List.length_drop, List.length_map, List.length_range]
    omega
  ascending := by
    show a.offsets.Pairwise (· ≤ ·)
    rw [offsets_eq]
    refine List.Pairwise.sublist ((List.take_sublist ..).trans (List.drop_sublist ..)) ?_
    exact List.pairwise_map.2
      (List.pairwise_lt_range.imp fun h => Slots.offset_mono _ (Nat.le_of_lt h))
  within := fun e he => by
    obtain ⟨i, hi⟩ := List.mem_iff_getElem?.1 he
    obtain ⟨-, rfl⟩ := getElem?_offsets_eq_some_iff.1 hi
    exact ⟨a.offset_le_length_data _, Nat.le_trans (a.offset_le_length_data _) a.fits⟩
  value := fun i start stop hstart hstop hnull => by
    obtain ⟨-, rfl⟩ := getElem?_offsets_eq_some_iff.1 hstart
    obtain ⟨hi, rfl⟩ := getElem?_offsets_eq_some_iff.1 hstop
    obtain ⟨hlt, hslot⟩ := List.getElem?_eq_some_iff.1 (a.slot_view (i := i) hi)
    have hvalue : Slots.value a.all.toList[a.first + i] = a.view.value i := by
      rw [hslot, ArrowArray.slot, show a.view.isNull i = false from hnull]
      rfl
    have hbytes : Slots.bytes a.all.toList = a.data := rfl
    rw [← Nat.add_assoc, Slots.offset_succ hlt, Nat.add_sub_cancel_left, hvalue]
    show a.view.value i = (a.data.drop _).take _
    rw [← hbytes, Slots.bytes_eq_of_lt hlt, List.append_assoc, Slots.offset, List.drop_left, hvalue,
      List.take_left]
  dataSize := rfl

theorem madeOf (h : xs.bytes.length ≤ w.max) : (library w).MadeOf xs (ofSlots xs : PlainArray w) := by
  have hall : (ofSlots xs : PlainArray w) = ⟨xs.toArray, 0, xs.length, by simp, h⟩ := dif_pos h
  rw [hall]
  refine ⟨rfl, fun i x hx => ?_, ?_, rfl⟩
  · show (xs.toArray.getD (0 + i) none).isNone = x.isNone
    rw [Nat.zero_add, Array.getD_eq_getD_getElem?, List.getElem?_toArray, hx]
    rfl
  · show PlainArray.offsets _ = _
    rw [offsets_eq]
    exact List.take_of_length_le (by simp)

theorem windowOf {b : PlainArray w} {start length : Nat} (h : a.slice? start length = some b) :
    (library w).WindowOf a start length b := by
  unfold slice? at h
  split at h
  · cases h
    refine ⟨rfl, fun i _ => ?_, fun i _ _ => ?_⟩
    · show (a.all.getD (a.first + start + i) none).isNone = _
      rw [Nat.add_assoc]
      rfl
    · show (a.all.getD (a.first + start + i) none).getD [] = _
      rw [Nat.add_assoc]
      rfl
  · cases h

theorem standard (w : OffsetWidth) : (library w).Standard w where
  laidOut := laidOut
  ofSlots := fun _ => madeOf
  slice? := fun _ _ _ hrange => ⟨_, dif_pos hrange, windowOf (dif_pos hrange)⟩

end PlainArray

end PackedColumn
