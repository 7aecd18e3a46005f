import PackedColumn.Column.Growth
import PackedColumn.Proofs.Layout

/-!
# Columns whose memory grows

A column that grows stays what it is but for its buffers, which keep what they
hold for its slots (`Column.GrowsTo`), and its account is charged exactly what
the buffers grew by (`Owned.GrowsTo`). This is so also when growing stops half
way because memory is refused.

* `Encodes.growsTo`: such a column stands for the same slots.
* `growValues_sat`, `growSlots_sat`, `reserve_sat`: the steps of growing.
* `makeRoom_grows`, `makeRoom_sat`: what every growing write does first, for any column, and how
  much room it leaves in one that stands for slots.
-/

namespace PackedColumn

namespace Column

variable {t : ColumnType} {c d e : Column t} {xs : Slots}

/-- A column grows to one with the same slots in buffers that are no smaller. -/
structure GrowsTo (c d : Column t) : Prop where
  same : d = { c with validity := d.validity, offsets := d.offsets, values := d.values }
  flags : c.validity.block.GrowsTo d.validity.block
  entries : ∀ j ≤ c.count, ∀ v, c.offsets.get? j = some v → d.offsets.get? j = some v
  table_le : c.offsets.block.size ≤ d.offsets.block.size
  values : c.values.block.GrowsTo d.values.block

namespace GrowsTo

theorem refl (c : Column t) : c.GrowsTo c :=
  ⟨rfl, .refl _, fun _ _ _ h => h, Nat.le_refl _, .refl _⟩

theorem extent_eq (h : c.GrowsTo d) : d.extent = c.extent := by rw [h.same]

theorem count_eq (h : c.GrowsTo d) : d.count = c.count := congrArg Extent.count h.extent_eq

theorem trans (h : c.GrowsTo d) (h' : d.GrowsTo e) : c.GrowsTo e where
  same := by rw [h'.same, h.same]
  flags := h.flags.trans h'.flags
  entries := fun j hj v hv => h'.entries j (by rw [h.count_eq]; exact hj) v (h.entries j hj v hv)
  table_le := Nat.le_trans h.table_le h'.table_le
  values := h.values.trans h'.values

theorem footprint_le (h : c.GrowsTo d) : c.footprint ≤ d.footprint := by
  have := h.flags.size_le
  have := h.table_le
  have := h.values.size_le
  simp only [footprint]; omega

theorem byteCapacity_le (h : c.GrowsTo d) : c.byteCapacity ≤ d.byteCapacity := h.values.size_le

theorem slotCapacity_le (h : c.GrowsTo d) : c.slotCapacity ≤ d.slotCapacity := by
  have hv := Nat.mul_le_mul_right 8 h.flags.size_le
  have ho := Nat.sub_le_sub_right (Nat.div_le_div_right (c := t.width.bytes) h.table_le) 1
  simp only [slotCapacity, Validity.bitCapacity, OffsetTable.slotCapacity]
  omega

/-- The end of the last slot does not get lost. -/
theorem get?_count (h : c.GrowsTo d) (hn : d.offsets.get? d.count = none) :
    c.offsets.get? c.count = none := by
  cases hc : c.offsets.get? c.count with
  | none => rfl
  | some v =>
    have hd := h.entries _ (Nat.le_refl _) v hc
    rw [h.count_eq] at hn
    rw [hn] at hd
    cases hd

theorem clean (h : c.GrowsTo d) (hc : c.Clean) : d.Clean := fun j hj => by
  obtain ⟨-, hbit⟩ := Validity.get?_eq_some_iff.1 hj
  rw [Bits.get_growsTo h.flags] at hbit
  rw [h.count_eq]
  exact hc j (Validity.get?_eq_some_iff.2 ⟨Bits.lt_of_get hbit, hbit⟩)

end GrowsTo

theorem Encodes.growsTo (h : c.Encodes xs) (hg : c.GrowsTo d) : d.Encodes xs where
  extent := by rw [hg.extent_eq]; exact h.extent
  flags := fun i x hx => Validity.get?_growsTo hg.flags (h.flags i x hx)
  offsets := fun i hi => hg.entries i (by rw [h.count]; exact hi) _ (h.offsets i hi)
  values := h.values.trans hg.values.isPrefix
  fits := h.fits

end Column

namespace Owned

variable {t : ColumnType} {s u v : Owned t}

/-- A column grows, and its account is charged what it grows by. -/
structure GrowsTo (s u : Owned t) : Prop where
  column : s.column.GrowsTo u.column
  account : s.allocator.limit ≤ Size.max →
    s.allocator.Grants (u.column.footprint - s.column.footprint) u.allocator

namespace GrowsTo

theorem refl (s : Owned t) : s.GrowsTo s :=
  ⟨.refl _, fun _ => by rw [Nat.sub_self]; exact .refl _⟩

theorem trans (h : s.GrowsTo u) (h' : u.GrowsTo v) : s.GrowsTo v := by
  refine ⟨h.column.trans h'.column, fun hl => ?_⟩
  have hs := h.account hl
  have hu := h'.account (by rw [hs.limit_eq]; exact hl)
  have := h.column.footprint_le
  have := h'.column.footprint_le
  have hsum := hs.trans hu
  rwa [show u.column.footprint - s.column.footprint + (v.column.footprint - u.column.footprint) =
    v.column.footprint - s.column.footprint by omega] at hsum

end GrowsTo

end Owned

namespace Column

variable {t : ColumnType} {xs : Slots}

/-! ## The steps of growing -/

theorem request_sat {α : Type} {part : Column t → Allocator.Request α}
    {place : α → Column t → Column t} {s : Owned t} {D : α → Allocator → Prop}
    {R : MemoryRefusal → Allocator → Prop} {B : Prop}
    (h : (part s.column s.allocator).Sat D R B) :
    (Op.request part place s).Sat (fun _ u => ∃ x a, D x a ∧ u = ⟨a, place x s.column⟩)
      (fun e u => ∃ m a, R m a ∧ e = .allocation m ∧ u = ⟨a, s.column⟩) B := by
  simp only [Op.request]
  cases hr : part s.column s.allocator with
  | done x a => rw [hr] at h; exact ⟨x, a, h, rfl⟩
  | refused m a => rw [hr] at h; exact ⟨m, a, h, rfl, rfl⟩
  | breach => rw [hr] at h; exact h

/-- A request refused leaves the column, and the account as well. -/
theorem growsTo_of_refused {s : Owned t} {a : Allocator}
    (h : s.allocator.limit ≤ Size.max → a = s.allocator) : s.GrowsTo ⟨a, s.column⟩ :=
  ⟨.refl _, fun hl => by rw [h hl, Nat.sub_self]; exact .refl _⟩

theorem growValues_sat (needed : Nat) (s : Owned t) :
    (growValues needed s).Sat
      (fun _ u => s.GrowsTo u ∧ needed ≤ u.column.byteCapacity)
      (fun _ u => s.GrowsTo u) False := by
  refine (request_sat (s.column.values.reserve_sat needed s.allocator)).mono ?_ ?_ id
  · rintro - - ⟨values, a, ⟨hv, hn, ha⟩, rfl⟩
    refine ⟨⟨⟨rfl, .refl _, fun _ _ _ h => h, Nat.le_refl _, hv⟩, fun _ => ?_⟩, hn⟩
    simp only [footprint, Nat.add_sub_add_left]
    exact ha
  · rintro - - ⟨m, a, ha, -, rfl⟩
    exact growsTo_of_refused ha

theorem growSlots_sat (slots : Nat) (s : Owned t) :
    (growSlots slots s).Sat
      (fun _ u => s.GrowsTo u ∧ slots ≤ u.column.slotCapacity)
      (fun _ u => s.GrowsTo u) (s.column.offsets.get? s.column.count = none) := by
  refine Call.sat_bind.2 ((request_sat (s.column.offsets.reserve_sat slots s.column.count
    s.allocator)).mono ?_ ?_ id)
  · rintro - - ⟨offsets, a, ⟨hslots, -, hentries, hsize, ha⟩, rfl⟩
    have hgrown : s.GrowsTo ⟨a, { s.column with offsets }⟩ := by
      refine ⟨⟨rfl, .refl _, hentries, hsize, .refl _⟩, fun _ => ?_⟩
      simp only [footprint]
      rwa [show s.column.validity.block.size + offsets.block.size + s.column.values.block.size -
        (s.column.validity.block.size + s.column.offsets.block.size + s.column.values.block.size) =
        offsets.block.size - s.column.offsets.block.size by omega]
    refine (request_sat (s.column.validity.reserve_sat slots a)).mono ?_ ?_ False.elim
    · rintro - - ⟨validity, b, ⟨hv, hbits, hb⟩, rfl⟩
      refine ⟨hgrown.trans ⟨⟨rfl, hv, fun _ _ _ h => h, Nat.le_refl _, .refl _⟩, fun _ => ?_⟩,
        Nat.le_min.2 ⟨hbits, hslots⟩⟩
      simp only [footprint]
      rwa [Nat.add_sub_add_right, Nat.add_sub_add_right]
    · rintro - - ⟨m, b, hb, -, rfl⟩
      exact hgrown.trans (growsTo_of_refused hb)
  · rintro - - ⟨m, a, ha, -, rfl⟩
    exact growsTo_of_refused ha

theorem reserve_sat (slots bytes : Nat) (s : Owned t) :
    (reserve slots bytes s).Sat
      (fun _ u => s.GrowsTo u ∧ slots ≤ u.column.slotCapacity ∧ bytes ≤ u.column.byteCapacity)
      (fun _ u => s.GrowsTo u) (s.column.offsets.get? s.column.count = none) := by
  refine Call.sat_bind.2 ((growValues_sat bytes s).mono (fun _ u ⟨hu, hbytes⟩ => ?_)
    (fun _ _ h => h) False.elim)
  refine (growSlots_sat slots u).mono (fun _ v ⟨hv, hslots⟩ => ?_) (fun _ v hv => hu.trans hv)
    hu.column.get?_count
  exact ⟨hu.trans hv, hslots, Nat.le_trans hbytes hv.column.byteCapacity_le⟩

/-! ## Room for a write -/

/-- The number of bytes needed is the answer of a check, which changes nothing. -/
theorem neededBytes_sat (c : Column t) (i length : Nat) (s : Owned t) :
    (c.neededBytes i length s).Sat (fun _ u => u = s) (fun _ u => u = s) True := by
  unfold neededBytes
  refine Call.sat_bind.2 (Call.sat_require.2 ⟨fun total _ => ?_, fun _ => trivial⟩)
  split
  · refine Call.sat_bind.2 (Call.sat_require.2 ⟨fun former _ => ?_, fun _ => trivial⟩)
    split
    · exact Call.sat_require.2 ⟨fun _ _ => rfl, fun _ => trivial⟩
    · trivial
  · cases Size.add? total length <;> rfl

/-- For a column that stands for slots, the number of bytes is the one the list will have. -/
theorem Encodes.neededBytes_sat {c : Column t} (h : c.Encodes xs) (i length : Nat) (s : Owned t) :
    (c.neededBytes i length s).Sat
      (fun needed u => u = s ∧ needed = xs.sizeWith i length) (fun _ u => u = s)
      (OffsetWidth.wide.max < length) := by
  have hfits := h.fits
  have hmax := t.width.max_le
  unfold neededBytes
  simp only [h.totalBytes?, h.count, Call.sat_bind, Call.require_some, Outcome.sat_done]
  split
  · rename_i hi
    rw [h.length? (List.getElem?_eq_getElem hi)]
    have hle := Slots.offset_succ hi
    have htotal := Slots.offset_le xs (i + 1)
    simp only [Call.sat_bind, Call.require_some, Outcome.sat_done]
    rw [if_pos (by omega)]
    refine Call.sat_require.2 ⟨fun needed hn => ⟨rfl, ?_⟩, fun hn => ?_⟩
    · rw [Slots.sizeWith_of_lt hi, (Size.add?_eq_some_iff.1 hn).1]
    · have := Size.add?_eq_none_iff.1 hn
      have hwide : OffsetWidth.wide.max + OffsetWidth.wide.max < Size.max := by decide
      omega
  · rename_i hi
    cases hn : Size.add? xs.bytes.length length with
    | none => rfl
    | some needed =>
      exact ⟨rfl, by rw [Slots.sizeWith_of_le (by omega), (Size.add?_eq_some_iff.1 hn).1]⟩

/-- Growing the value bytes if they do not suffice, before the rest of an operation. -/
theorem growValues_before {needed : Nat} {rest : Op t Unit} {s : Owned t}
    {D : Unit → Owned t → Prop} {R : ColumnError → Owned t → Prop} {B : Prop}
    (h : ∀ u, s.GrowsTo u → needed ≤ u.column.byteCapacity → (rest u).Sat D R B)
    (hR : ∀ e u, s.GrowsTo u → R e u) :
    ((if s.column.byteCapacity < needed then growValues needed >>= fun _ => rest else rest) s).Sat
      D R B := by
  split
  · refine Call.sat_bind.2 ((growValues_sat needed s).mono (fun _ u ⟨hu, hn⟩ => h u hu hn) hR
      False.elim)
  · exact h s (.refl s) (by omega)

/-- Growing the slots if slot `i` does not fit, at the end of an operation. -/
theorem growSlots_after {s : Owned t} {capacity : Nat} (h : capacity ≤ s.column.slotCapacity)
    (i wish : Nat) :
    ((if capacity ≤ i then do
        let slots ← Call.require (Size.add? i 1)
        growSlots (max slots wish)
      else pure ()) s).Sat
      (fun _ u => s.GrowsTo u ∧ i < u.column.slotCapacity) (fun _ u => s.GrowsTo u)
      (Size.max ≤ i ∨ s.column.offsets.get? s.column.count = none) := by
  split
  · refine Call.sat_bind.2 (Call.sat_require.2 ⟨fun slots hs => ?_, fun hs => ?_⟩)
    · have := (Size.add?_eq_some_iff.1 hs).1
      exact (growSlots_sat _ s).mono (fun _ u ⟨hu, hc⟩ => ⟨hu, by omega⟩) (fun _ _ h => h) .inr
    · have := Size.add?_eq_none_iff.1 hs
      exact .inl (by omega)
  · exact ⟨.refl s, by omega⟩

theorem makeRoom_of_needed {i length : Nat} {s : Owned t} {P : Nat → Prop} {B : Prop}
    (h : (s.column.neededBytes i length s).Sat (fun n u => u = s ∧ P n) (fun _ u => u = s) B) :
    (makeRoom i length s).Sat
      (fun _ u => s.GrowsTo u ∧ i < u.column.slotCapacity ∧
        ∃ n, P n ∧ n ≤ u.column.byteCapacity ∧ n ≤ t.width.max)
      (fun _ u => s.GrowsTo u)
      (B ∨ Size.max ≤ i ∨ s.column.offsets.get? s.column.count = none) := by
  unfold makeRoom
  simp only [Call.sat_bind, Op.column_apply, Outcome.sat_done]
  refine h.mono (fun needed u hneeded => ?_) (fun _ _ hu => by rw [hu]; exact .refl s) .inl
  obtain ⟨rfl, hP⟩ := hneeded
  split
  · exact .refl _
  · rename_i hmax
    refine growValues_before (fun v hv hn => ?_) fun _ _ hv => hv
    have hroom : needed ≤ v.column.byteCapacity := by
      refine Nat.le_trans ?_ hn
      split <;> omega
    refine (growSlots_after hv.column.slotCapacity_le i _).mono (fun _ w hw => ?_)
      (fun _ w hw => hv.trans hw) fun hbreach => ?_
    · have hbytes := Nat.le_trans hroom hw.1.column.byteCapacity_le
      exact ⟨hv.trans hw.1, hw.2, needed, hP, hbytes, by omega⟩
    · exact .inr (hbreach.imp id hv.column.get?_count)

theorem makeRoom_grows (i length : Nat) (s : Owned t) :
    (makeRoom i length s).Sat (fun _ u => s.GrowsTo u) (fun _ u => s.GrowsTo u) True :=
  (makeRoom_of_needed ((neededBytes_sat s.column i length s).mono
    (fun _ _ hu => ⟨hu, trivial⟩) (fun _ _ hu => hu) id)).mono (fun _ _ h => h.1)
    (fun _ _ h => h) fun _ => trivial

theorem Encodes.makeRoom_sat {s : Owned t} (h : s.column.Encodes xs) (i length : Nat) :
    (makeRoom i length s).Sat
      (fun _ u => s.GrowsTo u ∧ i < u.column.slotCapacity ∧
        xs.sizeWith i length ≤ u.column.byteCapacity ∧ xs.sizeWith i length ≤ t.width.max)
      (fun _ u => s.GrowsTo u) (OffsetWidth.wide.max < length ∨ Size.max ≤ i) := by
  refine (makeRoom_of_needed (h.neededBytes_sat i length s)).mono ?_ (fun _ _ h => h) ?_
  · rintro _ u ⟨hu, hi, _, rfl, hcap, hmax⟩
    exact ⟨hu, hi, hcap, hmax⟩
  · rintro (hl | hi | hn)
    · exact .inl hl
    · exact .inr hi
    · exact absurd hn h.get?_count_ne_none

end Column

end PackedColumn
