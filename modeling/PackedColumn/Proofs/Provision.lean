import PackedColumn.Proofs.Capacity
import PackedColumn.Proofs.Overlays

/-!
# Room for many writes

Writes to slots below a given number, whose values never take more than a given
number of bytes, can be provided for at once. A buffer that grows at most
doubles, or takes its first size, so none outgrows sizes that are known before
the first write (`Column.ample`), whatever the order of the writes; and an
account that has room for these refuses none of them.

* `roomSizes_le_ample`: what one write grows the buffers to, and `Encodes.set_ample`: that it leaves
  the others as much as it found.
* `Edit.doAll_ample`: writes one after the other, all of them done unless their values end past the
  largest offset.
* `Edit.allWithin_of_total`: a bound that no order of the writes exceeds.
-/

namespace PackedColumn

theorem Size.roundUp_mono {m n : Nat} (h : m ≤ n) : roundUp m ≤ roundUp n := by
  unfold roundUp
  omega

theorem Bits.byteCount_mono {m n : Nat} (h : m ≤ n) : byteCount m ≤ byteCount n := by
  unfold byteCount
  split <;> split <;> omega

theorem Sizes.Le.refl (z : Sizes) : z.Le z := ⟨Nat.le_refl _, Nat.le_refl _, Nat.le_refl _⟩

theorem Sizes.Le.trans {z z' z'' : Sizes} (h : z.Le z') (h' : z'.Le z'') : z.Le z'' :=
  ⟨Nat.le_trans h.flags h'.flags, Nat.le_trans h.entries h'.entries,
    Nat.le_trans h.values h'.values⟩

theorem Sizes.grown_le {held needed n : Nat} (h : held < needed → max needed (2 * held) ≤ n) :
    grown held needed ≤ max held (Size.roundUp n) := by
  unfold grown
  split
  · exact Nat.le_max_left ..
  · rename_i hgrows
    exact Nat.le_trans (Size.roundUp_mono (h (Nat.lt_of_not_le hgrows))) (Nat.le_max_right ..)

namespace Column

variable {t : ColumnType} {c d : Column t} {s : Owned t} {z : Sizes} {xs : Slots}
  {i needed slots bytes : Nat}

/-- Sizes that the buffers do not outgrow while the slots written are below `slots` and the values
take at most `bytes` bytes. -/
def ample (c : Column t) (slots bytes : Nat) : Sizes where
  flags := max c.sizes.flags (Size.roundUp (Bits.byteCount (max c.initialSlots (2 * slots))))
  entries :=
    max c.sizes.entries (Size.roundUp ((max c.initialSlots (2 * slots) + 1) * t.width.bytes))
  values := max c.sizes.values (Size.roundUp (max c.initialBytes (2 * bytes)))

/-- The values grow to their first size, or to at most twice the bytes there are to be. -/
theorem valueSizes_le_ample (hbytes : needed ≤ bytes) :
    (c.valueSizes needed).Le (c.ample slots bytes) := by
  have hcapacity : c.byteCapacity = c.sizes.values := rfl
  refine ⟨Nat.le_max_left .., Nat.le_max_left .., Sizes.grown_le fun hgrows => ?_⟩
  rw [hcapacity] at hgrows ⊢
  by_cases hzero : c.sizes.values = 0
  · rw [if_pos hzero]
    omega
  · rw [if_neg hzero] at hgrows ⊢
    omega

theorem roomSizes_le_ample (hi : i < slots) (hbytes : needed ≤ bytes) :
    (c.roomSizes i needed).Le (c.ample slots bytes) := by
  have hvalues : (c.valueSizes needed).Le (c.ample slots bytes) := valueSizes_le_ample hbytes
  unfold roomSizes
  dsimp only
  split
  · rename_i hfull
    -- The slots at most double, or take their first number, as well.
    have hwish : max (i + 1) (if c.slotCapacity = 0 then c.initialSlots else 2 * c.slotCapacity) ≤
        max c.initialSlots (2 * slots) := by
      split <;> omega
    refine ⟨Nat.max_le.2 ⟨hvalues.flags, ?_⟩, Nat.max_le.2 ⟨hvalues.entries, ?_⟩, hvalues.values⟩
    · exact Nat.le_trans (Size.roundUp_mono (Bits.byteCount_mono hwish)) (Nat.le_max_right ..)
    · exact Nat.le_trans (Size.roundUp_mono (Nat.mul_le_mul_right _ (Nat.succ_le_succ hwish)))
        (Nat.le_max_right ..)
  · exact hvalues

/-- A column that grew no further needs no more than it would have before. -/
theorem ample_le (hsizes : d.sizes.Le (c.ample slots bytes)) (hslots : d.initialSlots = c.initialSlots)
    (hbytes : d.initialBytes = c.initialBytes) : (d.ample slots bytes).Le (c.ample slots bytes) := by
  unfold ample at *
  rw [hslots, hbytes]
  exact ⟨Nat.max_le.2 ⟨hsizes.flags, Nat.le_max_right ..⟩,
    Nat.max_le.2 ⟨hsizes.entries, Nat.le_max_right ..⟩,
    Nat.max_le.2 ⟨hsizes.values, Nat.le_max_right ..⟩⟩

theorem InPlace.sizes_eq (h : c.InPlace d) : d.sizes = c.sizes :=
  Sizes.ext h.flags h.entries h.values

/-- The account has room for all writes within given sizes. -/
structure Provides (s : Owned t) (slots bytes : Nat) (z : Sizes) : Prop where
  hasRoom : s.HasRoom z
  ample_le : (s.column.ample slots bytes).Le z

theorem provides_ample (h : s.HasRoom (s.column.ample slots bytes)) :
    Provides s slots bytes (s.column.ample slots bytes) := ⟨h, .refl _⟩

/-- There are offsets far larger than what a machine has room for. -/
theorem Provides.le_max (h : Provides s slots bytes z) : bytes ≤ OffsetWidth.wide.max := by
  have hvalues := h.ample_le.values
  have hbound := h.hasRoom.values
  have hround := Size.le_roundUp (max s.column.initialBytes (2 * bytes))
  simp only [ample, Block.bound, OffsetWidth.max] at *
  omega

/-- A write within the sizes is done, and the account still has room for all others. -/
theorem Encodes.set_ample (h : s.column.Encodes xs) (hz : Provides s slots bytes z) {x : Option Blob}
    (hwithin : (Edit.set i x).Within slots (min bytes t.width.max) xs) :
    ∃ u, set i x s = .done () u ∧ u.column.Encodes (xs.put i (x.map Blob.toList)) ∧
      Provides u slots bytes z := by
  obtain ⟨hi, hbytes⟩ := hwithin
  have hput : (xs.put i (x.map Blob.toList)).bytes.length ≤ min bytes t.width.max := hbytes
  rw [Slots.length_bytes_put, Slots.length_value_map] at hput
  have hsizes := roomSizes_le_ample (c := s.column) hi (Nat.le_trans hput (Nat.min_le_left ..))
  obtain ⟨v, hroom, hv⟩ := h.makeRoom_done (Nat.le_trans hput (Nat.min_le_right ..))
    (hz.hasRoom.mono (hsizes.trans hz.ample_le))
  obtain ⟨hgrown, hslot, hcap, hmax⟩ := (h.makeRoom_sat i _).of_done hroom
  rw [← Slots.length_value_map, ← Slots.length_bytes_put] at hcap hmax
  obtain ⟨d, hd, hencodes, -⟩ := (h.growsTo hv.column).exists_put? _ hslot hcap hmax
  have hplace := put?_inPlace hd
  refine ⟨⟨v.allocator, d⟩, ?_, hencodes, ?_, ?_⟩
  · rw [set, Call.bind_of_done hroom]
    exact Op.change_of_some hd
  · have hleft := hv.hasRoom hz.hasRoom
    refine ⟨?_, hleft.flags, hleft.entries, hleft.values⟩
    rw [hplace.footprint_eq]
    exact hleft.account
  · have hsame := hplace.same
    rw [hv.column.same] at hsame
    rw [← hv.sizes, ← hplace.sizes_eq] at hsizes
    exact (ample_le hsizes (by rw [hsame]) (by rw [hsame])).trans hz.ample_le

end Column

/-! ## Writes one after the other -/

theorem Slots.length_bytes_put_le (xs : Slots) (i : Nat) (x : Option (List UInt8)) :
    (bytes (xs.put i x)).length ≤ (bytes xs).length + (value x).length := by
  rw [length_bytes_put]
  exact Nat.add_le_add_right (Nat.sub_le ..) _

namespace Edit

variable {t : ColumnType} {s : Owned t} {z : Sizes} {xs : Slots} {slots bytes : Nat}
  {ws : List (Nat × Option Blob)}

/-- Writes of slots, one after the other. -/
def sets (ws : List (Nat × Option Blob)) : List Edit := ws.map fun p => .set p.1 p.2

/-- What such writes put into the slots. -/
def values (ws : List (Nat × Option Blob)) : List (Nat × Option (List UInt8)) :=
  ws.map fun p => (p.1, p.2.map Blob.toList)

/-- Whatever their order, writes never take more bytes than there are and than they bring. -/
theorem allWithin_of_total (hslots : ∀ p ∈ ws, p.1 < slots)
    (hbytes : xs.bytes.length + Size.total (ws.map fun p => (p.2.map Blob.size).getD 0) ≤ bytes) :
    AllWithin slots bytes xs (sets ws) := by
  induction ws generalizing xs with
  | nil => trivial
  | cons p ws ih =>
    rw [List.map_cons, Size.total_cons] at hbytes
    have hput := xs.length_bytes_put_le p.1 (p.2.map Blob.toList)
    rw [Slots.length_value_map] at hput
    have hrest : (xs.put p.1 (p.2.map Blob.toList)).bytes.length +
        Size.total (ws.map fun p => (p.2.map Blob.size).getD 0) ≤ bytes := by omega
    refine ⟨⟨hslots p List.mem_cons_self, ?_⟩,
      ih (fun q hq => hslots q (List.mem_cons_of_mem p hq)) hrest⟩
    show (xs.put p.1 (p.2.map Blob.toList)).bytes.length ≤ bytes
    omega

/-- Before the first of the writes and after each, all values end at an offset. -/
def EndAtOffsets (w : OffsetWidth) (xs : Slots) (ws : List (Nat × Option Blob)) : Prop :=
  ∀ k, (xs.putAll (values (ws.take k))).bytes.length ≤ w.max

theorem endAtOffsets_of_allWithin {w : OffsetWidth} (hws : AllWithin slots bytes xs (sets ws))
    (hxs : xs.bytes.length ≤ w.max) (hmax : bytes ≤ w.max) : EndAtOffsets w xs ws := by
  induction ws generalizing xs with
  | nil => exact fun k => by rwa [List.take_nil]
  | cons p ws ih =>
    intro k
    cases k with
    | zero => exact hxs
    | succ k => exact ih hws.2 (Nat.le_trans hws.1.2 hmax) k

/-- With room for all of them, all writes are done, unless one takes the values past the largest
offset: the first that does is refused. -/
theorem doAll_ample (h : s.column.Encodes xs) (hz : Column.Provides s slots bytes z)
    (hws : AllWithin slots bytes xs (sets ws)) :
    (EndAtOffsets t.width xs ws ∧ ∃ u, doAll (sets ws) s = .done () u) ∨
      ∃ k u, (∀ j < k, (xs.putAll (values (ws.take j))).bytes.length ≤ t.width.max) ∧
        t.width.max < (xs.putAll (values (ws.take k))).bytes.length ∧
        doAll (sets ws) s =
          .refused (.offsetOverflow (xs.putAll (values (ws.take k))).bytes.length) u := by
  induction ws generalizing s xs with
  | nil => exact .inl ⟨fun k => by rw [List.take_nil]; exact h.fits, s, rfl⟩
  | cons p ws ih =>
    obtain ⟨⟨hslots, hbytes⟩, hrest⟩ := hws
    replace hbytes : (xs.put p.1 (p.2.map Blob.toList)).bytes.length ≤ bytes := hbytes
    by_cases hfits : (xs.put p.1 (p.2.map Blob.toList)).bytes.length ≤ t.width.max
    · obtain ⟨u, hdone, hu, hz'⟩ := h.set_ample hz ⟨hslots, Nat.le_min.2 ⟨hbytes, hfits⟩⟩
      have hrun : doAll (sets (p :: ws)) s = doAll (sets ws) u := Call.bind_of_done hdone
      rw [hrun]
      rcases ih hu hz' hrest with ⟨hends, hall⟩ | ⟨k, v, hbefore, hover, hrefused⟩
      · refine .inl ⟨fun k => ?_, hall⟩
        cases k with
        | zero => exact h.fits
        | succ k => exact hends k
      · refine .inr ⟨k + 1, v, fun j hj => ?_, hover, hrefused⟩
        cases j with
        | zero => exact h.fits
        | succ j => exact hbefore j (Nat.lt_of_succ_lt_succ hj)
    · have hover := Nat.lt_of_not_le hfits
      rw [Slots.length_bytes_put, Slots.length_value_map] at hbytes
      have hset : Column.set p.1 p.2 s = .refused (.offsetOverflow _) s :=
        h.set_refused (Nat.le_trans (Nat.le_add_left ..) (Nat.le_trans hbytes hz.le_max))
          (by rwa [Slots.length_bytes_put, Slots.length_value_map] at hover)
      rw [← Slots.length_value_map, ← Slots.length_bytes_put] at hset
      refine .inr ⟨1, s, fun j hj => ?_, hover, Call.bind_of_refused hset⟩
      obtain rfl := Nat.lt_one_iff.1 hj
      exact h.fits

end Edit

end PackedColumn
