import PackedColumn.Proofs.Copies
import PackedColumn.Proofs.Payments

/-!
# Room for a range, and its copy

Copying a range asks for three new buffers. What that takes is known
beforehand (`rangeFootprint`), and memory is refused exactly when the account
has no room for it; then nothing has changed, whichever of the three buffers
was the one refused.

* `reserve_new_sat`: how asking for the buffers ends.
* `Encodes.obtainable`: the machine has such buffers, since the source holds as large ones.
* `Encodes.copyRange_sat`: how copying a range ends; `Encodes.copyRange_refused` and
  `Encodes.copyRange_done` by whether there is room.
-/

namespace PackedColumn

namespace Allocator

variable {n : Nat}

/-- A request for a new block that the machine has. -/
theorem reallocate_empty_sat (h : Size.roundUp n < Block.bound) (a : Allocator) :
    (reallocate (.empty : Block) n true a).Sat
      (fun b u => b.size = Size.roundUp n ∧ a.Grants (Size.roundUp n) u)
      (fun _ _ => a.limit < a.allocated + Size.roundUp n) False := by
  have hn := le_maxRequest h
  rw [reallocate_apply_true, if_neg (by omega), Block.size_empty, Nat.sub_zero]
  split
  · have h0 : Size.roundUp n = 0 := by omega
    rw [h0]
    exact ⟨rfl, .refl a⟩
  split
  · assumption
  · rename_i hle
    exact ⟨by rw [Block.size_grow, Block.size_empty, Nat.zero_max], rfl, fun _ => by omega⟩

end Allocator

namespace Validity

theorem reserve_empty_sat {n : Nat} (h : Size.roundUp (Bits.byteCount n) < Block.bound)
    (a : Allocator) :
    (empty.reserve n a).Sat
      (fun v u => v.block.size = Size.roundUp (Bits.byteCount n) ∧ a.Grants v.block.size u)
      (fun _ _ => a.limit < a.allocated + Size.roundUp (Bits.byteCount n)) False := by
  rw [reserve_eq]
  split
  · rename_i h0
    rw [show Bits.byteCount n = 0 from Nat.le_zero.1 h0]
    exact ⟨rfl, .refl a⟩
  · exact Call.sat_map.2 ((Allocator.reallocate_empty_sat h a).mono
      (fun b u ⟨hb, hu⟩ => ⟨hb, by rw [hb]; exact hu⟩) (fun _ _ h => h) id)

end Validity

namespace ValueStore

theorem reserve_empty_sat {n : Nat} (h : Size.roundUp n < Block.bound) (a : Allocator) :
    (empty.reserve n a).Sat
      (fun s u => s.block.size = Size.roundUp n ∧ a.Grants s.block.size u)
      (fun _ _ => a.limit < a.allocated + Size.roundUp n) False := by
  rw [reserve_eq]
  split
  · rename_i h0
    rw [show n = 0 from Nat.le_zero.1 h0]
    exact ⟨rfl, .refl a⟩
  · rw [show max n (2 * empty.capacity) = n from Nat.max_zero n]
    exact Call.sat_map.2 ((Allocator.reallocate_empty_sat h a).mono
      (fun b u ⟨hb, hu⟩ => ⟨hb, by rw [hb]; exact hu⟩) (fun _ _ h => h) id)

end ValueStore

namespace OffsetTable

theorem reserve_empty_sat {w : OffsetWidth} {n : Nat}
    (h : Size.roundUp ((n + 1) * w.bytes) < Block.bound) (a : Allocator) :
    ((empty : OffsetTable w).reserve n 0 a).Sat
      (fun o u => o.block.size = Size.roundUp ((n + 1) * w.bytes) ∧ a.Grants o.block.size u)
      (fun _ _ => a.limit < a.allocated + Size.roundUp ((n + 1) * w.bytes)) False := by
  have hn := Allocator.le_maxRequest h
  rw [reserve_eq, if_neg (fun h0 => h0.2 rfl),
    if_neg (by simp only [Allocator.maxRequest] at hn; omega)]
  refine Call.sat_bind.2 ((Allocator.reallocate_empty_sat h a).mono (fun b u hbu => ?_)
    (fun _ _ h => h) id)
  obtain ⟨hb, hu⟩ := hbu
  refine Call.sat_bind.2 (Call.sat_require.2 ⟨fun v _ => ?_, fun hnone => ?_⟩)
  · rw [Call.pure_apply, Outcome.sat_done, size_fillFrom, hb]
    exact ⟨rfl, hu⟩
  · obtain ⟨v, hv⟩ := exists_get? (t := (mk b : OffsetTable w)) (Nat.zero_le _)
    rw [hv] at hnone
    cases hnone

end OffsetTable

namespace Column

variable {t : ColumnType} {source : Column t} {xs : Slots} {start length bytes : Nat}

/-- The memory that new buffers for a range take. -/
def rangeFootprint (w : OffsetWidth) (length bytes : Nat) : Nat :=
  Size.roundUp ((length + 1) * w.bytes) + Size.roundUp (Bits.byteCount length) + Size.roundUp bytes

/-- Whether the machine has such buffers. -/
structure Obtainable (w : OffsetWidth) (length bytes : Nat) : Prop where
  entries : Size.roundUp ((length + 1) * w.bytes) < Block.bound
  flags : Size.roundUp (Bits.byteCount length) < Block.bound
  values : Size.roundUp bytes < Block.bound

theorem reserve_new_sat (h : Obtainable t.width length bytes) (name : String) (nullable : Bool)
    (settings : Settings) (a : Allocator) :
    (reserve length bytes ⟨a, (new name nullable settings : Column t)⟩).Sat
      (fun _ u => a.allocated + rangeFootprint t.width length bytes ≤ a.limit ∧
        u.column.footprint = rangeFootprint t.width length bytes)
      (fun e _ => (∃ m, e = .allocation m) ∧
        a.limit < a.allocated + rangeFootprint t.width length bytes) False := by
  have hpos : 0 < Size.roundUp ((length + 1) * t.width.bytes) :=
    Nat.lt_of_lt_of_le (Nat.mul_pos length.succ_pos t.width.bytes_pos) (Size.le_roundUp _)
  simp only [rangeFootprint]
  refine Call.sat_bind.2 ((request_sat (ValueStore.reserve_empty_sat h.values a)).mono ?_ ?_ id)
  rotate_left
  · rintro _ _ ⟨m, _, hfull, rfl, -⟩
    exact ⟨⟨m, rfl⟩, by omega⟩
  rintro _ _ ⟨values, b, ⟨hvalues, hb⟩, rfl⟩
  refine Call.sat_bind.2 ((request_sat (OffsetTable.reserve_empty_sat h.entries b)).mono ?_ ?_ id)
  rotate_left
  · rintro _ _ ⟨m, _, hfull, rfl, -⟩
    rw [hb.eq, Allocator.limit_plus, Allocator.allocated_plus] at hfull
    exact ⟨⟨m, rfl⟩, by omega⟩
  rintro _ _ ⟨offsets, c, ⟨hoffsets, hc⟩, rfl⟩
  have hbc := hb.trans hc
  refine (request_sat (Validity.reserve_empty_sat h.flags c)).mono ?_ ?_ id
  rotate_left
  · rintro _ _ ⟨m, _, hfull, rfl, -⟩
    rw [hbc.eq, Allocator.limit_plus, Allocator.allocated_plus] at hfull
    exact ⟨⟨m, rfl⟩, by omega⟩
  rintro _ _ ⟨validity, d, ⟨hvalidity, hd⟩, rfl⟩
  have hall := (hbc.trans hd).le_limit (by omega)
  refine ⟨by omega, ?_⟩
  simp only [footprint]
  omega

/-- The machine has buffers for a range, since the source holds buffers that are no smaller. -/
theorem Encodes.obtainable (h : source.Encodes xs) (hlen : 0 < length)
    (hrange : start + length ≤ xs.length) :
    Obtainable t.width length (xs.slice start length).bytes.length := by
  have hround : ∀ {n : Nat} (b : Block), n ≤ b.size → Size.roundUp n < Block.bound :=
    fun b hn => Nat.lt_of_le_of_lt (b.roundUp_le hn) b.size_lt_bound
  have hslots := h.le_slotCapacity
  have hflags : xs.length ≤ source.validity.bitCapacity := Nat.le_trans hslots (Nat.min_le_left ..)
  have hentries : xs.length ≤ source.offsets.slotCapacity :=
    Nat.le_trans hslots (Nat.min_le_right ..)
  have hpos : 0 < source.offsets.block.size := Nat.pos_of_ne_zero fun h0 => by
    have := OffsetTable.slotCapacity_of_size_zero h0; omega
  refine ⟨hround source.offsets.block ?_, hround source.validity.block ?_,
    hround source.values.block ?_⟩
  · exact (OffsetTable.le_slotCapacity_iff hpos).1 (by omega)
  · simp only [Validity.bitCapacity] at hflags
    unfold Bits.byteCount
    split <;> omega
  · exact Nat.le_trans (Slots.length_bytes_slice_le ..) h.byteCapacity

/-! ## Copying -/

/-- Columns with the same buffers and extent stand for the same slots, whatever else they are. -/
theorem Encodes.withSlotsOf {c : Column t} (h : source.Encodes xs) :
    (c.withSlotsOf source).Encodes xs := ⟨h.extent, h.flags, h.offsets, h.values, h.fits⟩

/-- A new column that has grown has no flag set. -/
theorem GrowsTo.unset {c : Column t} {name : String} {nullable : Bool} {settings : Settings}
    (h : (new name nullable settings : Column t).GrowsTo c) (j : Nat) :
    c.validity.get? j ≠ some true := fun hj => by
  obtain ⟨-, hbit⟩ := Validity.get?_eq_some_iff.1 hj
  rw [Bits.get_growsTo h.flags] at hbit
  exact absurd (Bits.lt_of_get hbit) (Nat.not_lt_zero j)

theorem copyRange_of_lt (h : source.count < start + length) (s : Owned t) :
    copyRange source start length s = .refused (.outOfRange start length source.count) s := by
  unfold copyRange
  exact if_pos h

theorem copyRange_zero (h : start ≤ source.count) (s : Owned t) :
    copyRange source start 0 s = .done () s.clear := by
  unfold copyRange
  rw [if_neg (by omega)]
  rfl

theorem Encodes.copyRange_sat (h : source.Encodes xs) (hlen : 0 < length)
    (hrange : start + length ≤ xs.length) (s : Owned t) :
    (copyRange source start length s).Sat
      (fun _ u => s.allocator.allocated +
          rangeFootprint t.width length (xs.slice start length).bytes.length ≤ s.allocator.limit ∧
        u.column.Encodes (xs.slice start length) ∧ u.column.Clean ∧
        u.column.extent.last = some (length - 1) ∧
        u.column.footprint = rangeFootprint t.width length (xs.slice start length).bytes.length)
      (fun e u => (∃ m, e = .allocation m) ∧ s.allocator.limit < s.allocator.allocated +
          rangeFootprint t.width length (xs.slice start length).bytes.length ∧
        u.column = s.column ∧ ∀ k, s.allocator.Accounts k → u = s)
      False := by
  have hcount := h.count
  unfold copyRange
  rw [if_neg (by omega), if_neg (by omega), h.span? hrange]
  dsimp only
  have hreserve := ((reserve_new_sat (h.obtainable hlen hrange) s.column.name s.column.nullable
    .default s.allocator).and (reserve_sat length _ _)).and (reserve_settles length _ _)
  revert hreserve
  cases reserve length (xs.slice start length).bytes.length
    ⟨s.allocator, new s.column.name s.column.nullable .default⟩ with
  | breach => exact fun hreserve => hreserve.1.1
  | refused e fresh =>
    rintro ⟨⟨⟨herror, hfull⟩, -⟩, hsettles⟩
    refine ⟨herror, hfull, rfl, fun k hs => ?_⟩
    obtain ⟨haccount, hlimit⟩ := (hsettles.trans (Owned.clear_settles fresh)) k hs
    rw [hs.eq_of_limit haccount hlimit]
  | done _ fresh =>
    rintro ⟨⟨⟨hroom, hsize⟩, hgrows, hslots, hbytes⟩, -⟩
    obtain ⟨copy, hcopy, hencodes, hclean, hlast⟩ := h.exists_copiedFrom? hlen hrange hslots hbytes
      hgrows.column.unset
    simp only [hcopy, Outcome.sat_done]
    exact ⟨hroom, hencodes.withSlotsOf, hclean, hlast, (copiedFrom?_footprint hcopy).trans hsize⟩

/-- Without room for the new buffers beside the former ones, nothing changes. -/
theorem Encodes.copyRange_refused (h : source.Encodes xs) (hlen : 0 < length)
    (hrange : start + length ≤ xs.length) {s : Owned t} {k : Nat} (hs : s.allocator.Accounts k)
    (hfull : s.allocator.limit < s.allocator.allocated +
      rangeFootprint t.width length (xs.slice start length).bytes.length) :
    ∃ m, copyRange source start length s = .refused (.allocation m) s := by
  have hcopy := h.copyRange_sat hlen hrange s
  cases hr : copyRange source start length s with
  | breach => rw [hr] at hcopy; exact hcopy.elim
  | done _ u => rw [hr] at hcopy; exact absurd hcopy.1 (Nat.not_le_of_lt hfull)
  | refused e u =>
    rw [hr] at hcopy
    obtain ⟨⟨m, rfl⟩, -, -, hunchanged⟩ := hcopy
    exact ⟨m, by rw [hunchanged k hs]⟩

/-- With room for them the column holds the range, and no flag behind it is set. -/
theorem Encodes.copyRange_done (h : source.Encodes xs) (hlen : 0 < length)
    (hrange : start + length ≤ xs.length) {s : Owned t}
    (hroom : s.allocator.allocated +
      rangeFootprint t.width length (xs.slice start length).bytes.length ≤ s.allocator.limit) :
    ∃ u, copyRange source start length s = .done () u ∧
      u.column.Encodes (xs.slice start length) ∧ u.column.Clean ∧
      u.column.extent.last = some (length - 1) ∧
      u.column.footprint = rangeFootprint t.width length (xs.slice start length).bytes.length := by
  have hcopy := h.copyRange_sat hlen hrange s
  cases hr : copyRange source start length s with
  | breach => rw [hr] at hcopy; exact hcopy.elim
  | refused e u => rw [hr] at hcopy; exact absurd hroom (Nat.not_le_of_lt hcopy.2.1)
  | done _ u =>
    rw [hr] at hcopy
    exact ⟨u, rfl, hcopy.2⟩

end Column

end PackedColumn
