import PackedColumn.Proofs.Edits
import PackedColumn.Proofs.Payments

/-!
# Room for an edit

How large the buffers of a column become is known before they grow: each takes
what is asked for, rounded up, and the values at least double (`Sizes`). When
the account of the column and the machine have room for these sizes
(`Owned.HasRoom`), no request for memory is refused, and the buffers take
exactly the sizes.

* `growValues_done`, `growSlots_done`, `makeRoom_done`: the steps of growing.
* `Edit.sizes`: the sizes that an edit asks for, and `Edit.Fits`: what stands in its way besides
  memory.
* `Edit.run_done`: with room for them, an edit that fits is done.
-/

namespace PackedColumn

/-- The sizes of the three buffers of a column. -/
@[ext] structure Sizes where
  flags : Nat
  entries : Nat
  values : Nat
  deriving DecidableEq

namespace Sizes

/-- All bytes together. -/
def total (z : Sizes) : Nat := z.flags + z.entries + z.values

/-- What values of `held` bytes grow to when `needed` are asked for. -/
def grown (held needed : Nat) : Nat :=
  if needed ≤ held then held else Size.roundUp (max needed (2 * held))

/-- Room made for `needed` value bytes. -/
def withValues (z : Sizes) (needed : Nat) : Sizes := { z with values := grown z.values needed }

/-- Room made for the flags and the offsets of `slots` slots. -/
def withSlots (z : Sizes) (w : OffsetWidth) (slots : Nat) : Sizes where
  flags := max z.flags (Size.roundUp (Bits.byteCount slots))
  entries := max z.entries (Size.roundUp ((slots + 1) * w.bytes))
  values := z.values

/-- Room made for the offsets alone. -/
def withEntries (z : Sizes) (w : OffsetWidth) (slots : Nat) : Sizes :=
  { z with entries := max z.entries (Size.roundUp ((slots + 1) * w.bytes)) }

/-- Room made for the flags alone. -/
def withFlags (z : Sizes) (slots : Nat) : Sizes :=
  { z with flags := max z.flags (Size.roundUp (Bits.byteCount slots)) }

/-- Sizes that are no larger, each by itself. -/
structure Le (z z' : Sizes) : Prop where
  flags : z.flags ≤ z'.flags
  entries : z.entries ≤ z'.entries
  values : z.values ≤ z'.values

theorem le_withSlots (z : Sizes) (w : OffsetWidth) (slots : Nat) : z.Le (z.withSlots w slots) :=
  ⟨Nat.le_max_left .., Nat.le_max_left .., Nat.le_refl _⟩

theorem withEntries_le_withSlots (z : Sizes) (w : OffsetWidth) (slots : Nat) :
    (z.withEntries w slots).Le (z.withSlots w slots) :=
  ⟨Nat.le_max_left .., Nat.le_refl _, Nat.le_refl _⟩

theorem le_withValues (z : Sizes) (needed : Nat) : z.Le (z.withValues needed) := by
  refine ⟨Nat.le_refl _, Nat.le_refl _, ?_⟩
  have := Size.le_roundUp (max needed (2 * z.values))
  simp only [withValues, grown]
  split <;> omega

/-- A table that the machine has is of fewer slots than it has bytes. -/
theorem slots_lt {z : Sizes} {w : OffsetWidth} {slots n : Nat}
    (h : (z.withSlots w slots).entries < n) : slots < n := by
  have hround := Size.le_roundUp ((slots + 1) * w.bytes)
  have hslots : slots + 1 ≤ (slots + 1) * w.bytes := Nat.le_mul_of_pos_right _ w.bytes_pos
  simp only [withSlots] at h
  omega

theorem withValues_of_le {z : Sizes} {needed : Nat} (h : needed ≤ z.values) :
    z.withValues needed = z := by
  rw [withValues, grown, if_pos h]

end Sizes

/-! ## Requests that are granted -/

namespace Allocator

theorem reallocate_done {b : Block} {n : Nat} {a : Allocator}
    (hmachine : Size.roundUp n < Block.bound)
    (hroom : a.allocated + max b.size (Size.roundUp n) ≤ a.limit + b.size) :
    ∃ c u, reallocate b n true a = .done c u ∧ c.size = max b.size (Size.roundUp n) := by
  have hmax := le_maxRequest hmachine
  rw [reallocate_apply_true, if_neg (by omega)]
  split
  · exact ⟨b, a, rfl, by omega⟩
  · rw [if_neg (by omega)]
    exact ⟨_, _, rfl, Block.size_grow ..⟩

end Allocator

namespace Validity

theorem reserve_done {v : Validity} {n : Nat} {a : Allocator}
    (hmachine : Size.roundUp (Bits.byteCount n) < Block.bound)
    (hroom : a.allocated + max v.block.size (Size.roundUp (Bits.byteCount n)) ≤
      a.limit + v.block.size) :
    ∃ u b, v.reserve n a = .done u b ∧
      u.block.size = max v.block.size (Size.roundUp (Bits.byteCount n)) := by
  rw [reserve_eq]
  split
  · rename_i hle
    have := v.block.roundUp_le hle
    exact ⟨v, a, rfl, by omega⟩
  · obtain ⟨c, b, hdone, hsize⟩ := Allocator.reallocate_done hmachine hroom
    exact ⟨⟨c⟩, b, by rw [map_eq_pure_bind, Call.bind_of_done hdone]; rfl, hsize⟩

end Validity

namespace ValueStore

theorem reserve_done {s : ValueStore} {n : Nat} {a : Allocator}
    (hmachine : Sizes.grown s.capacity n < Block.bound)
    (hroom : a.allocated + Sizes.grown s.capacity n ≤ a.limit + s.capacity) :
    ∃ u b, s.reserve n a = .done u b ∧ u.capacity = Sizes.grown s.capacity n := by
  rw [reserve_eq]
  unfold Sizes.grown at *
  split
  · exact ⟨s, a, rfl, rfl⟩
  · rename_i hlt
    rw [if_neg hlt] at hmachine hroom
    have hround := Size.le_roundUp (max n (2 * s.capacity))
    have hmax : max s.capacity (Size.roundUp (max n (2 * s.capacity))) =
        Size.roundUp (max n (2 * s.capacity)) := by omega
    obtain ⟨c, b, hdone, hsize⟩ := Allocator.reallocate_done hmachine (hmax.symm ▸ hroom)
    refine ⟨⟨c⟩, b, ?_, hsize.trans hmax⟩
    rw [map_eq_pure_bind]
    exact Call.bind_of_done hdone

end ValueStore

namespace OffsetTable

variable {w : OffsetWidth}

theorem reserve_done {o : OffsetTable w} {slots committed : Nat} {a : Allocator}
    (hcommitted : o.get? committed ≠ none)
    (hmachine : Size.roundUp ((slots + 1) * w.bytes) < Block.bound)
    (hroom : a.allocated + max o.block.size (Size.roundUp ((slots + 1) * w.bytes)) ≤
      a.limit + o.block.size) :
    ∃ u b, o.reserve slots committed a = .done u b ∧
      u.block.size = max o.block.size (Size.roundUp ((slots + 1) * w.bytes)) := by
  rw [reserve_eq]
  split
  · rename_i h
    have := o.block.roundUp_le ((le_slotCapacity_iff (Nat.pos_of_ne_zero h.2)).1 h.1)
    exact ⟨o, a, rfl, by omega⟩
  have hbytes := Size.le_roundUp ((slots + 1) * w.bytes)
  rw [if_neg (by simp only [Block.bound, Size.max] at *; omega)]
  obtain ⟨c, b, hdone, hsize⟩ := Allocator.reallocate_done hmachine hroom
  have hgrown := (Allocator.reallocate_sat ..).of_done hdone
  obtain ⟨v, hv⟩ := Option.ne_none_iff_exists'.1 hcommitted
  rw [Call.bind_of_done hdone, get?_growsTo (u := mk c) hgrown.1 hv]
  exact ⟨_, b, rfl, by rw [size_fillFrom]; exact hsize⟩

end OffsetTable

/-! ## Room -/

/-- A value among others that end at an offset could be in memory at all. -/
theorem Slots.addressable_of_sizeWith {xs : Slots} {w : OffsetWidth} {i length : Nat}
    (h : xs.sizeWith i length ≤ w.max) : length ≤ OffsetWidth.wide.max :=
  Nat.le_trans (xs.le_sizeWith i length) (Nat.le_trans h w.max_le)

/-- The sizes of the buffers of a column. -/
def Column.sizes {t : ColumnType} (c : Column t) : Sizes where
  flags := c.validity.block.size
  entries := c.offsets.block.size
  values := c.values.block.size

namespace Owned

variable {t : ColumnType} {s u v : Owned t} {z z' : Sizes}

/-- The account of a column has room for its buffers to take these sizes, and so has the machine. -/
structure HasRoom (s : Owned t) (z : Sizes) : Prop where
  account : s.allocator.allocated + z.total ≤ s.allocator.limit + s.column.footprint
  flags : z.flags < Block.bound
  entries : z.entries < Block.bound
  values : z.values < Block.bound

theorem HasRoom.mono (h : s.HasRoom z') (hz : z.Le z') : s.HasRoom z := by
  obtain ⟨hflags, hentries, hvalues⟩ := hz
  obtain ⟨haccount, hflags', hentries', hvalues'⟩ := h
  simp only [Sizes.total] at haccount
  exact ⟨by simp only [Sizes.total]; omega, by omega, by omega, by omega⟩

instance (s : Owned t) (z : Sizes) : Decidable (s.HasRoom z) :=
  decidable_of_iff (s.allocator.allocated + z.total ≤ s.allocator.limit + s.column.footprint ∧
      z.flags < Block.bound ∧ z.entries < Block.bound ∧ z.values < Block.bound)
    ⟨fun ⟨h, h₁, h₂, h₃⟩ => ⟨h, h₁, h₂, h₃⟩, fun ⟨h, h₁, h₂, h₃⟩ => ⟨h, h₁, h₂, h₃⟩⟩

/-- A column grows until its buffers have these sizes, and its account is charged what they grow by. -/
structure Takes (s u : Owned t) (z : Sizes) : Prop where
  column : s.column.GrowsTo u.column
  sizes : u.column.sizes = z
  allocated : u.allocator.allocated + s.column.footprint =
    s.allocator.allocated + u.column.footprint
  limit : u.allocator.limit = s.allocator.limit

namespace Takes

theorem refl (s : Owned t) : s.Takes s s.column.sizes := ⟨.refl _, rfl, rfl, rfl⟩

theorem trans (h : s.Takes u z) (h' : u.Takes v z') : s.Takes v z' where
  column := h.column.trans h'.column
  sizes := h'.sizes
  allocated := by
    have := h.allocated
    have := h'.allocated
    omega
  limit := h'.limit.trans h.limit

theorem of_grants {c : Column t} {a : Allocator} (hc : s.column.GrowsTo c)
    (ha : s.allocator.Grants (c.footprint - s.column.footprint) a) : s.Takes ⟨a, c⟩ c.sizes where
  column := hc
  sizes := rfl
  allocated := by
    have := hc.footprint_le
    rw [ha.eq, Allocator.allocated_plus]
    dsimp only
    omega
  limit := ha.limit_eq

theorem footprint_eq (h : s.Takes u z) : u.column.footprint = z.total := by
  rw [← h.sizes]
  rfl

/-- What is left of the room once some of it is taken. -/
theorem hasRoom (h : s.Takes u z) (hroom : s.HasRoom z') : u.HasRoom z' := by
  refine ⟨?_, hroom.flags, hroom.entries, hroom.values⟩
  have := hroom.account
  have := h.allocated
  rw [h.limit]
  omega

end Takes

end Owned

namespace Column

variable {t : ColumnType} {c : Column t} {s : Owned t} {xs : Slots}

theorem request_of_done {α : Type} {part : Column t → Allocator.Request α}
    {place : α → Column t → Column t} {x : α} {a : Allocator}
    (h : part s.column s.allocator = .done x a) :
    Op.request part place s = .done () ⟨a, place x s.column⟩ := by
  simp only [Op.request, h]

theorem growValues_done {needed : Nat} (hroom : s.HasRoom (s.column.sizes.withValues needed)) :
    ∃ u, growValues needed s = .done () u ∧ s.Takes u (s.column.sizes.withValues needed) := by
  have haccount := hroom.account
  simp only [Sizes.total, Sizes.withValues, footprint, sizes] at haccount
  obtain ⟨values, a, hdone, hsize⟩ := ValueStore.reserve_done (s := s.column.values) (n := needed)
    (a := s.allocator) hroom.values (by simp only [ValueStore.capacity]; omega)
  obtain ⟨hvalues, -, ha⟩ := (s.column.values.reserve_sat needed s.allocator).of_done hdone
  refine ⟨_, request_of_done hdone, ?_⟩
  rw [show s.column.sizes.withValues needed = sizes { s.column with values } from
    Sizes.ext rfl rfl hsize.symm]
  refine .of_grants ⟨rfl, .refl _, fun _ _ _ h => h, Nat.le_refl _, hvalues⟩ ?_
  simpa only [footprint, Nat.add_sub_add_left] using ha

/-- Makes room for the offsets of `slots` slots. -/
def growEntries (slots : Nat) : Op t Unit :=
  .request (fun c => c.offsets.reserve slots c.count) fun offsets c => { c with offsets }

/-- Makes room for the flags of `slots` slots. -/
def growFlags (slots : Nat) : Op t Unit :=
  .request (fun c => c.validity.reserve slots) fun validity c => { c with validity }

theorem growSlots_eq (slots : Nat) :
    (growSlots slots : Op t Unit) = growEntries slots >>= fun _ => growFlags slots := rfl

theorem growEntries_done {slots : Nat} (hcount : s.column.offsets.get? s.column.count ≠ none)
    (hroom : s.HasRoom (s.column.sizes.withEntries t.width slots)) :
    ∃ u, growEntries slots s = .done () u ∧
      s.Takes u (s.column.sizes.withEntries t.width slots) := by
  have haccount := hroom.account
  have hentries := hroom.entries
  simp only [Sizes.total, Sizes.withEntries, footprint, sizes] at haccount hentries
  have hmachine : Size.roundUp ((slots + 1) * t.width.bytes) < Block.bound := by omega
  obtain ⟨offsets, a, hdone, hsize⟩ := OffsetTable.reserve_done (a := s.allocator) hcount hmachine
    (by omega)
  obtain ⟨-, -, hkept, hle, ha⟩ :=
    (s.column.offsets.reserve_sat slots s.column.count s.allocator).of_done hdone
  refine ⟨_, request_of_done hdone, ?_⟩
  rw [show s.column.sizes.withEntries t.width slots = sizes { s.column with offsets } from
    Sizes.ext rfl hsize.symm rfl]
  refine .of_grants ⟨rfl, .refl _, hkept, hle, .refl _⟩ ?_
  simpa only [footprint, Nat.add_sub_add_left, Nat.add_sub_add_right] using ha

theorem growFlags_done {slots : Nat} (hroom : s.HasRoom (s.column.sizes.withFlags slots)) :
    ∃ u, growFlags slots s = .done () u ∧ s.Takes u (s.column.sizes.withFlags slots) := by
  have haccount := hroom.account
  have hflags := hroom.flags
  simp only [Sizes.total, Sizes.withFlags, footprint, sizes] at haccount hflags
  obtain ⟨validity, a, hdone, hsize⟩ := Validity.reserve_done (v := s.column.validity) (n := slots)
    (a := s.allocator) (by omega) (by omega)
  obtain ⟨hbits, -, ha⟩ := (s.column.validity.reserve_sat slots s.allocator).of_done hdone
  refine ⟨_, request_of_done hdone, ?_⟩
  rw [show s.column.sizes.withFlags slots = sizes { s.column with validity } from
    Sizes.ext hsize.symm rfl rfl]
  refine .of_grants ⟨rfl, hbits, fun _ _ _ h => h, Nat.le_refl _, .refl _⟩ ?_
  simpa only [footprint, Nat.add_sub_add_right] using ha

theorem growSlots_done {slots : Nat} (hcount : s.column.offsets.get? s.column.count ≠ none)
    (hroom : s.HasRoom (s.column.sizes.withSlots t.width slots)) :
    ∃ u, growSlots slots s = .done () u ∧
      s.Takes u (s.column.sizes.withSlots t.width slots) := by
  obtain ⟨u, hentries, hu⟩ :=
    growEntries_done hcount (hroom.mono (Sizes.withEntries_le_withSlots ..))
  -- The flags are asked for on an account that has paid for the offsets already.
  have hrest : u.HasRoom (u.column.sizes.withFlags slots) := by
    rw [hu.sizes]
    exact hu.hasRoom hroom
  obtain ⟨v, hflags, hv⟩ := growFlags_done hrest
  rw [hu.sizes] at hv
  exact ⟨v, by rw [growSlots_eq, Call.bind_of_done hentries, hflags], hu.trans hv⟩

theorem reserve_done {slots bytes : Nat} (hcount : s.column.offsets.get? s.column.count ≠ none)
    (hroom : s.HasRoom ((s.column.sizes.withValues bytes).withSlots t.width slots)) :
    ∃ u, reserve slots bytes s = .done () u ∧
      s.Takes u ((s.column.sizes.withValues bytes).withSlots t.width slots) := by
  obtain ⟨u, hvalues, hu⟩ := growValues_done (hroom.mono (Sizes.le_withSlots ..))
  obtain ⟨v, hslots, hv⟩ := growSlots_done (s := u) (fun hn => hcount (hu.column.get?_count hn))
    (by rw [hu.sizes]; exact hu.hasRoom hroom)
  exact ⟨v, by rw [reserve, Call.bind_of_done hvalues, hslots], by rw [← hu.sizes]; exact hu.trans hv⟩

/-! ## Room for a write -/

/-- The sizes once the values have room for `needed` bytes; the first time they take the initial size
if that is larger. -/
def valueSizes (c : Column t) (needed : Nat) : Sizes :=
  c.sizes.withValues (if c.byteCapacity = 0 then max needed c.initialBytes else needed)

/-- The sizes of the buffers once slot `i` has room, the values taking `needed` bytes. -/
def roomSizes (c : Column t) (i needed : Nat) : Sizes :=
  let z := c.sizes.withValues (if c.byteCapacity = 0 then max needed c.initialBytes else needed)
  if c.slotCapacity ≤ i then
    z.withSlots t.width
      (max (i + 1) (if c.slotCapacity = 0 then c.initialSlots else 2 * c.slotCapacity))
  else z

/-- The bytes of a column that stands for slots are counted without an overflow. -/
theorem Encodes.neededBytes_done (h : c.Encodes xs) {i length : Nat}
    (hlength : length ≤ OffsetWidth.wide.max) (s : Owned t) :
    c.neededBytes i length s = .done (xs.sizeWith i length) s := by
  have hfits := h.fits
  have hmax := t.width.max_le
  have hwide : OffsetWidth.wide.max + OffsetWidth.wide.max < Size.max := by decide
  unfold neededBytes
  rw [Call.bind_of_done (by rw [h.totalBytes?]; exact Call.require_some ..)]
  split
  · rename_i hi
    rw [h.count] at hi
    have hle := Slots.offset_succ hi
    have htotal := Slots.offset_le xs (i + 1)
    rw [Slots.sizeWith_of_lt hi]
    rw [Call.bind_of_done (by
      rw [h.length? (List.getElem?_eq_getElem hi)]; exact Call.require_some ..), if_pos (by omega),
      Size.add?_eq_some_iff.2 ⟨rfl, by omega⟩]
    rfl
  · rename_i hi
    rw [h.count] at hi
    rw [Slots.sizeWith_of_le (by omega)]
    rw [Size.add?_eq_some_iff.2 ⟨rfl, by omega⟩]
    rfl

theorem growValues_before_done {needed : Nat}
    (hroom : s.HasRoom (s.column.sizes.withValues needed)) :
    ∃ u, s.Takes u (s.column.sizes.withValues needed) ∧ ∀ rest : Op t Unit,
      (if s.column.byteCapacity < needed then growValues needed >>= fun _ => rest else rest) s =
        rest u := by
  split
  · obtain ⟨u, hdone, hu⟩ := growValues_done hroom
    exact ⟨u, hu, fun rest => Call.bind_of_done hdone⟩
  · rename_i hle
    rw [Sizes.withValues_of_le (Nat.le_of_not_lt hle)]
    exact ⟨s, .refl s, fun rest => rfl⟩

/-- Room for the values first, and then for the slots, if there are too few. -/
theorem Encodes.makeRoom_done (h : s.column.Encodes xs) {i length : Nat}
    (hfits : xs.sizeWith i length ≤ t.width.max)
    (hroom : s.HasRoom (s.column.roomSizes i (xs.sizeWith i length))) :
    ∃ u, makeRoom i length s = .done () u ∧
      s.Takes u (s.column.roomSizes i (xs.sizeWith i length)) := by
  unfold makeRoom
  rw [Call.bind_of_done (Op.column_apply s),
    Call.bind_of_done (h.neededBytes_done (Slots.addressable_of_sizeWith hfits) s),
    if_neg (Nat.not_lt_of_le hfits)]
  unfold roomSizes at *
  generalize (if s.column.byteCapacity = 0 then max (xs.sizeWith i length) s.column.initialBytes
    else xs.sizeWith i length) = needed at *
  dsimp only at *
  split at hroom
  · rename_i hi
    obtain ⟨u, hu, hrest⟩ := growValues_before_done (hroom.mono (Sizes.le_withSlots ..))
    obtain ⟨v, hslots, hv⟩ := growSlots_done (s := u) (h.growsTo hu.column).get?_count_ne_none
      (by rw [hu.sizes]; exact hu.hasRoom hroom)
    have hsize := Sizes.slots_lt hroom.entries
    have hadd : Size.add? i 1 = some (i + 1) := Size.add?_eq_some_iff.2 ⟨rfl, by
      simp only [Block.bound, Size.max] at *
      omega⟩
    refine ⟨v, ?_, by rw [if_pos hi, ← hu.sizes]; exact hu.trans hv⟩
    rw [hrest, if_pos hi, hadd]
    exact hslots
  · rename_i hi
    obtain ⟨u, hu, hrest⟩ := growValues_before_done hroom
    refine ⟨u, ?_, by rw [if_neg hi]; exact hu⟩
    rw [hrest, if_neg hi]
    rfl

/-- What room for slot `i` takes bounds the number of the slot. -/
theorem lt_max_of_hasRoom {i needed : Nat} (hroom : s.HasRoom (s.column.roomSizes i needed)) :
    i < Size.max := by
  unfold roomSizes at hroom
  dsimp only at hroom
  split at hroom
  · have := Sizes.slots_lt hroom.entries
    simp only [Block.bound, Size.max] at *
    omega
  · have := s.column.slotCapacity_lt
    omega

end Column

/-! ## Edits -/

namespace Op

variable {t : ColumnType} {s u : Owned t} {z : Sizes}

/-- A change of the column alone is done, or breaks its contract. -/
theorem change_sat (f : Column t → Option (Column t)) (s : Owned t) :
    (change f s).Sat (fun _ u => f s.column = some u.column) (fun _ _ => False) True := by
  cases hf : f s.column with
  | none => rw [change_of_none hf]; trivial
  | some d => rw [change_of_some hf]; rfl

/-- So nothing is refused once the column has grown. -/
theorem change_after {f : Column t → Option (Column t)}
    (hf : ∀ c d, f c = some d → d.footprint = c.footprint) (hu : s.Takes u z) :
    (change f u).Sat (fun _ v => v.column.footprint = z.total) (fun _ _ => False) True :=
  (change_sat f u).mono (fun _ _ hv => (hf _ _ hv).trans hu.footprint_eq) (fun _ _ h => h) id

end Op

namespace Edit

variable {t : ColumnType} {s : Owned t} {xs : Slots} {e : Edit}

/-- The edits that are done entirely or not at all. -/
def Atomic : Edit → Prop
  | set .. | setText .. | push _ | pushText _ | setCount _ | padTo _ | setLast _ | reserve .. => True
  | _ => False

/-- The sizes that the buffers of a column with the given slots take when an edit is done. -/
def sizes (c : Column t) (xs : Slots) : Edit → Sizes
  | set i x => c.roomSizes i (xs.sizeWith i ((x.map Blob.size).getD 0))
  | setText i text => c.roomSizes i (xs.sizeWith i (Blob.ofText text).size)
  | push x => c.roomSizes xs.length (xs.sizeWith xs.length ((x.map Blob.size).getD 0))
  | pushText text =>
    c.roomSizes xs.length (xs.sizeWith xs.length (((text.map Blob.ofText).map Blob.size).getD 0))
  | setCount n =>
    if c.slotCapacity < n then c.sizes.withSlots t.width (max n (2 * c.slotCapacity)) else c.sizes
  | padTo n => if 0 < n then c.roomSizes (n - 1) (xs.sizeWith (n - 1) 0) else c.sizes
  | reserve slots bytes => (c.sizes.withValues bytes).withSlots t.width slots
  | _ => c.sizes

/-- Nothing but memory stands in the way of an edit: its values end at an offset, and the slot that
it takes for the highest one written is there. -/
def Fits (w : OffsetWidth) (xs : Slots) : Edit → Prop
  | set i x => xs.sizeWith i ((x.map Blob.size).getD 0) ≤ w.max
  | setText i text => xs.sizeWith i (Blob.ofText text).size ≤ w.max
  | push x => xs.sizeWith xs.length ((x.map Blob.size).getD 0) ≤ w.max
  | pushText text => xs.sizeWith xs.length (((text.map Blob.ofText).map Blob.size).getD 0) ≤ w.max
  | setLast last => ∀ l ∈ last, l < xs.length
  | _ => True

theorem Atomic.safe (h : e.Atomic) : e.Safe := by
  cases e with
  | overwrite => exact h
  | _ => trivial

/-- The values do not move apart when slots become null. -/
theorem sizeWith_zero_le (h : s.column.Encodes xs) (i : Nat) : xs.sizeWith i 0 ≤ t.width.max :=
  Nat.le_trans (Nat.sub_le ..) h.fits

/-- With room for the sizes it asks for, an edit that fits is not refused, and its column takes them. -/
theorem run_room (h : s.column.Encodes xs) (hatomic : e.Atomic) (hfits : e.Fits t.width xs)
    (hroom : s.HasRoom (e.sizes s.column xs)) :
    (e.run s).Sat (fun _ u => u.column.footprint = (e.sizes s.column xs).total) (fun _ _ => False)
      True := by
  have hset : ∀ i x, xs.sizeWith i ((x.map Blob.size).getD 0) ≤ t.width.max →
      s.HasRoom (s.column.roomSizes i (xs.sizeWith i ((x.map Blob.size).getD 0))) →
      (Column.set i x s).Sat (fun _ u => u.column.footprint =
        (s.column.roomSizes i (xs.sizeWith i ((x.map Blob.size).getD 0))).total)
        (fun _ _ => False) True := fun i x hfits hroom => by
    obtain ⟨u, hdone, hu⟩ := h.makeRoom_done hfits hroom
    rw [Column.set, Call.bind_of_done hdone]
    exact Op.change_after (fun _ _ h => (Column.put?_inPlace h).footprint_eq) hu
  cases e with
  | set i x => exact hset i x hfits hroom
  | setText i text => exact hset i (some (.ofText text)) hfits hroom
  | push x =>
    rw [run, Column.push, h.count]
    exact hset _ x hfits hroom
  | pushText text =>
    rw [run, Column.pushText, Column.push, h.count]
    exact hset _ _ hfits hroom
  | setCount n =>
    have hfollow : ∀ c d : Column t, c.follow? (c.extent.planCount? n) = some d →
        d.footprint = c.footprint := fun _ _ h => (Column.follow?_inPlace h).footprint_eq
    simp only [sizes] at hroom ⊢
    rw [run, Column.setCount, Call.bind_of_done (Op.column_apply s)]
    split
    · rename_i hn
      rw [if_pos hn] at hroom
      obtain ⟨u, hdone, hu⟩ := Column.growSlots_done h.get?_count_ne_none hroom
      rw [Call.bind_of_done hdone]
      exact Op.change_after hfollow hu
    · exact Op.change_after hfollow (.refl s)
  | padTo n =>
    have hfollow : ∀ c d : Column t, c.follow? (c.extent.planPad? n) = some d →
        d.footprint = c.footprint := fun _ _ h => (Column.follow?_inPlace h).footprint_eq
    simp only [sizes] at hroom ⊢
    rw [run, Column.padTo]
    split
    · rename_i hn
      rw [if_pos hn] at hroom
      obtain ⟨u, hdone, hu⟩ := h.makeRoom_done (sizeWith_zero_le h _) hroom
      rw [Call.bind_of_done hdone]
      exact Op.change_after hfollow hu
    · exact Op.change_after hfollow (.refl s)
  | setLast last =>
    have hblank : ∀ c d : Column t, c.blank? ((last.map (· + 1)).getD 0) c.count
        { c.extent with last } = some d → d.footprint = c.footprint := fun _ _ h =>
      (Column.blank?_inPlace h).footprint_eq
    rw [run, Column.setLast, Call.bind_of_done (Op.column_apply s)]
    cases last with
    | none => exact Op.change_after hblank (.refl s)
    | some i =>
      have hi : i < s.column.count := by rw [h.count]; exact hfits i rfl
      simp only [if_neg (Nat.not_le_of_lt hi)]
      exact Op.change_after hblank (.refl s)
  | reserve slots bytes =>
    obtain ⟨u, hdone, hu⟩ := Column.reserve_done h.get?_count_ne_none hroom
    rw [run, hdone]
    exact hu.footprint_eq
  | _ => exact hatomic.elim

/-- What there is room for is of a size. -/
theorem sized_of_hasRoom (hfits : e.Fits t.width xs) (hatomic : e.Atomic)
    (hroom : s.HasRoom (e.sizes s.column xs)) : e.Sized := by
  cases e with
  | set i x => exact ⟨Column.lt_max_of_hasRoom hroom, Slots.addressable_of_sizeWith hfits⟩
  | setText i text => exact ⟨Column.lt_max_of_hasRoom hroom, Slots.addressable_of_sizeWith hfits⟩
  | push x => exact Slots.addressable_of_sizeWith hfits
  | pushText text => exact Slots.addressable_of_sizeWith hfits
  | padTo n =>
    simp only [sizes] at hroom
    show n ≤ Size.max
    split at hroom
    · have := Column.lt_max_of_hasRoom hroom
      omega
    · omega
  | setCount n => trivial
  | setLast last => trivial
  | reserve slots bytes => trivial
  | _ => exact hatomic.elim

/-- With room for the sizes it asks for, an edit that fits is done. -/
theorem run_done (h : s.column.Encodes xs) (hatomic : e.Atomic) (hfits : e.Fits t.width xs)
    (hroom : s.HasRoom (e.sizes s.column xs)) :
    ∃ u, e.run s = .done () u ∧ u.column.Encodes (e.onSlots xs) ∧
      u.column.footprint = (e.sizes s.column xs).total := by
  have hsat := (run_sat h e hatomic.safe).and (run_room h hatomic hfits hroom)
  cases hr : e.run s with
  | done _ u =>
    rw [hr] at hsat
    exact ⟨u, rfl, hsat⟩
  | refused err u =>
    rw [hr] at hsat
    exact hsat.2.elim
  | breach =>
    rw [hr] at hsat
    exact absurd (sized_of_hasRoom hfits hatomic hroom) hsat.1

end Edit

end PackedColumn
