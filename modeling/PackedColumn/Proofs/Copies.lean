import PackedColumn.Column.Handover
import PackedColumn.Proofs.Layout

/-!
# Copying a range of slots

The three parts of a copy, each entry by entry: flags bit by bit, whether by
whole bytes or singly, offsets less the first of them, and one stretch of
bytes.

* `Bits.get_copy?`: the bits of a copy are those of the source, and the others are as before.
* `OffsetTable.exists_rebase?`: the entries of a table moved to start at 0.
* `Encodes.exists_copiedFrom?`: the copy stands for the slots of the range.
* `Encodes.exists_buffers?`: the bytes of the defined slots depend on the slots alone, if no flag
  behind them is set.
-/

namespace PackedColumn

/-! ## Bits -/

namespace Bits

variable {src dst out : Bytes} {pos n : Nat}

theorem get_copyFrom {i : Nat} (h : i + n ≤ 8 * dst.size) (j : Nat) :
    get (copyFrom src pos dst i n) j =
      if i ≤ j ∧ j < i + n then get src (pos + j) else get dst j := by
  induction n generalizing dst i with
  | zero => rw [if_neg (by omega)]; rfl
  | succ n ih =>
    rw [copyFrom, ih (by rw [size_put]; omega), get_put (by omega)]
    by_cases hj : j = i
    · subst hj; rw [if_neg (by omega), if_pos rfl, if_pos (by omega)]
    · rw [if_neg hj]
      congr 1
      simp only [eq_iff_iff]; omega

theorem getD_slice {start stop k : Nat} (hk : start + k < stop) :
    (src.slice start stop).getD k 0 = src.getD (start + k) 0 := by
  rw [Bytes.slice_eq, List.getD_eq_getElem?_getD, List.getElem?_take_of_lt (by omega),
    List.getElem?_drop, Array.getD_eq_getD_getElem?, Array.getElem?_toList]

/-- Whole bytes put at the start. -/
theorem get_write_zero {xs : List UInt8} (h : xs.length ≤ dst.size) (j : Nat) :
    get (dst.write 0 xs) j =
      if j < 8 * xs.length then test (xs.getD (j / 8) 0) (j % 8) else get dst j := by
  simp only [get, Array.getD_eq_getD_getElem?, Bytes.getElem?_write]
  by_cases hj : j < 8 * xs.length
  · rw [if_pos hj, if_pos (by omega), Nat.sub_zero, List.getD_eq_getElem?_getD]
  · rw [if_neg hj, if_neg (by omega)]

theorem get_copy? (h : copy? src pos dst n = some out) (j : Nat) :
    get out j = if j < n then get src (pos + j) else get dst j := by
  unfold copy? at h
  split at h
  rotate_left
  · cases h
  rename_i hroom
  split at h <;> cases h
  · rename_i hpos
    have hlen : (src.slice (pos / 8) (pos / 8 + n / 8)).length = n / 8 := by
      rw [Bytes.length_slice (by omega), Nat.add_sub_cancel_left]
    rw [get_copyFrom (by rw [Bytes.size_write]; omega), get_write_zero (by omega), hlen]
    by_cases hwhole : j < 8 * (n / 8)
    · rw [if_neg (by omega), if_pos hwhole, if_pos (by omega), getD_slice (by omega), get]
      rw [show (pos + j) / 8 = pos / 8 + j / 8 by omega, show (pos + j) % 8 = j % 8 by omega]
    · rw [if_neg hwhole]
      congr 1
      simp only [eq_iff_iff]; omega
  · rw [get_copyFrom (by omega)]
    congr 1
    simp only [eq_iff_iff]; omega

theorem exists_copy? (hsrc : pos + n ≤ 8 * src.size) (hdst : n ≤ 8 * dst.size) :
    ∃ out, copy? src pos dst n = some out := by
  unfold copy?
  rw [if_pos ⟨hsrc, hdst⟩]
  split
  · exact ⟨_, rfl⟩
  · exact ⟨_, rfl⟩

/-- A byte is its bits. -/
theorem byte_ext {b c : UInt8} (h : ∀ k < 8, test b k = test c k) : b = c :=
  UInt8.toBitVec_inj.1 (BitVec.eq_of_getLsbD_eq h)

end Bits

namespace Validity

variable {v w : Validity} {n : Nat}

theorem exists_copyBits? {src : Bytes} {pos : Nat} (hsrc : pos + n ≤ 8 * src.size)
    (hn : n ≤ v.bitCapacity) : ∃ w, v.copyBits? src pos n = some w ∧
      ∀ j, w.get? j = if j < n then some (Bits.get src (pos + j)) else v.get? j := by
  obtain ⟨out, hout⟩ := Bits.exists_copy? hsrc
    (show n ≤ 8 * v.block.bytes.size by rw [Nat.mul_comm]; exact hn)
  have hsize := Bits.size_of_copy? hout
  refine ⟨⟨⟨out, by rw [hsize]; exact v.block.size_dvd, by rw [hsize]; exact v.block.size_le⟩⟩, ?_,
    fun j => ?_⟩
  · unfold copyBits?
    split
    · rename_i h
      rw [h] at hout
      cases hout
    · rename_i bytes h
      rw [h] at hout
      cases hout
      rfl
  · simp only [get?, bitCapacity, Block.size, hsize, Bits.get_copy? hout]
    simp only [bitCapacity, Block.size] at hn
    by_cases hj : j < n
    · rw [if_pos hj, if_pos hj, if_pos (by omega)]
    · rw [if_neg hj, if_neg hj]
      rfl

/-- The bytes that cover the first flags have them as their bits. -/
theorem exists_covering? (hn : n ≤ v.bitCapacity) : ∃ flags, v.covering? n = some flags ∧
    flags.length = Bits.byteCount n ∧
    ∀ j < 8 * flags.length, Bits.get flags.toArray j = Bits.get v.block.bytes j := by
  have hle : Bits.byteCount n ≤ v.block.size := by
    simp only [bitCapacity] at hn
    unfold Bits.byteCount; split <;> omega
  have hlen : (v.block.toList.take (Bits.byteCount n)).length = Bits.byteCount n := by
    rw [List.length_take, Block.length_toList]; omega
  refine ⟨v.block.toList.take (Bits.byteCount n), Block.read?_eq_some_iff.2 ⟨by omega, ?_⟩, hlen,
    fun j hj => ?_⟩
  · rw [List.drop_zero]
  · rw [hlen] at hj
    simp only [Bits.get, Array.getD_eq_getD_getElem?, List.getElem?_toArray]
    rw [List.getElem?_take_of_lt (by omega), Block.toList, Array.getElem?_toList]

theorem covering?_congr (hv : n ≤ v.bitCapacity) (hw : n ≤ w.bitCapacity)
    (h : ∀ j, Bits.get v.block.bytes j = Bits.get w.block.bytes j) :
    ∃ flags, v.covering? n = some flags ∧ w.covering? n = some flags := by
  obtain ⟨flags, hflags, hlen, hbits⟩ := exists_covering? hv
  obtain ⟨flags', hflags', hlen', hbits'⟩ := exists_covering? hw
  have hbit : ∀ j < 8 * flags.length, Bits.get flags.toArray j = Bits.get flags'.toArray j :=
    fun j hj => by rw [hbits j hj, h j, hbits' j (by omega)]
  have heq : flags = flags' := by
    refine List.ext_getElem (by omega) fun i hi hi' => Bits.byte_ext fun k hk => ?_
    have hb := hbit (8 * i + k) (by omega)
    simp only [Bits.get, Array.getD_eq_getD_getElem?, List.getElem?_toArray] at hb
    rw [show (8 * i + k) / 8 = i by omega, show (8 * i + k) % 8 = k by omega,
      List.getElem?_eq_getElem hi, List.getElem?_eq_getElem hi'] at hb
    exact hb
  exact ⟨flags, hflags, heq ▸ hflags'⟩

end Validity

/-! ## Offsets -/

namespace Column

variable {t : ColumnType} {w : OffsetWidth} {source dest : OffsetTable w} {start i n : Nat}

theorem exists_rebase? {base : Int} (hsrc : ∀ j, i ≤ j → j < i + n →
      ∃ e, source.get? (start + j) = some e ∧ w.Holds (e - base))
    (hs : (i + n) * w.bytes ≤ dest.block.size) :
    ∃ out, rebase? source start base dest i n = some out ∧
      ∀ j, out.get? j = if i ≤ j ∧ j < i + n then (source.get? (start + j)).map (· - base)
        else dest.get? j := by
  induction n generalizing dest i with
  | zero => exact ⟨dest, rfl, fun j => by rw [if_neg (by omega)]⟩
  | succ n ih =>
    obtain ⟨e, he, hholds⟩ := hsrc i (Nat.le_refl _) (by omega)
    have h1 : (i + 1) * w.bytes ≤ dest.block.size :=
      Nat.le_trans (Nat.mul_le_mul_right _ (by omega)) hs
    have hput := OffsetTable.get?_put hholds h1
    have hrest : (i + 1 + n) * w.bytes ≤ (dest.put i (e - base)).block.size := by
      rwa [OffsetTable.size_put, Nat.add_right_comm]
    obtain ⟨out, hout, hget⟩ := ih (fun j hj hj' => hsrc j (by omega) (by omega)) hrest
    refine ⟨out, ?_, fun j => ?_⟩
    · simp only [rebase?, he, Option.bind_eq_bind, Option.bind_some, if_pos hholds,
        OffsetTable.put?_eq_some_iff.2 ⟨h1, rfl⟩]
      exact hout
    · rw [hget, hput]
      by_cases hj : j = i
      · subst hj
        rw [if_neg (by omega), if_pos rfl, if_pos (by omega), he]
        rfl
      · rw [if_neg hj]
        congr 1
        simp only [eq_iff_iff]; omega

/-! ## Whole columns -/

variable {c d source fresh : Column t} {xs : Slots} {start length : Nat}

namespace Encodes

/-- The bytes of a range lie together. -/
theorem span? (h : c.Encodes xs) (hrange : start + length ≤ xs.length) :
    c.span? start (start + length) =
      some (xs.offset start, (xs.slice start length).bytes.length) := by
  have hstop := Slots.offset_slice xs (Nat.le_refl length) start
  have htotal := Slots.offset_length (xs.slice start length)
  rw [Slots.length_slice hrange] at htotal
  simp only [Column.span?, h.start? (show start ≤ xs.length by omega), h.start? hrange,
    Option.bind_eq_bind, Option.bind_some]
  rw [if_pos (by omega), show xs.offset (start + length) - xs.offset start =
    (xs.slice start length).bytes.length by omega]

theorem exists_rebase? (h : c.Encodes xs) (hrange : start + length ≤ xs.length)
    {table : OffsetTable t.width} (hsize : (length + 1) * t.width.bytes ≤ table.block.size) :
    ∃ offsets, rebase? c.offsets start (xs.offset start) table 0 (length + 1) = some offsets ∧
      offsets.Delimits (xs.slice start length) := by
  -- the entries of the range less its first one are the offsets of the slice
  have hentry : ∀ j ≤ length, ∃ e : Int, c.offsets.get? (start + j) = some e ∧
      e - xs.offset start = (xs.slice start length).offset j := fun j hj => by
    refine ⟨_, h.offsets (start + j) (by omega), ?_⟩
    rw [Slots.offset_slice xs hj start]
    omega
  have hfits : ∀ j, t.width.Holds ((xs.slice start length).offset j : Int) := fun j => by
    have := Slots.offset_le (xs.slice start length) j
    have := Slots.length_bytes_slice_le xs start length
    exact OffsetWidth.holds_natCast (Nat.le_trans (by omega) h.fits)
  have hmoved : ∀ j, 0 ≤ j → j < 0 + (length + 1) → ∃ e, c.offsets.get? (start + j) = some e ∧
      t.width.Holds (e - xs.offset start) := fun j _ hj => by
    obtain ⟨e, he, hdiff⟩ := hentry j (by omega)
    exact ⟨e, he, by rw [hdiff]; exact hfits j⟩
  have hroom : (0 + (length + 1)) * t.width.bytes ≤ table.block.size := by rwa [Nat.zero_add]
  obtain ⟨offsets, hoffsets, hget⟩ := Column.exists_rebase? hmoved hroom
  refine ⟨offsets, hoffsets, fun j hj => ?_⟩
  rw [Slots.length_slice hrange] at hj
  obtain ⟨e, he, hdiff⟩ := hentry j hj
  rw [hget, if_pos (by omega), he, Option.map_some, hdiff]

theorem readRange? (h : c.Encodes xs) :
    c.values.read? (xs.offset start) (xs.slice start length).bytes.length =
      some (xs.slice start length).bytes := by
  have hvalues := h.values
  rw [Slots.bytes_eq_slice xs start length] at hvalues
  exact ValueStore.read?_eq hvalues

theorem exists_copyFlags? (h : c.Encodes xs) (hrange : start + length ≤ xs.length)
    {v : Validity} (hcap : length ≤ v.bitCapacity) (hunset : ∀ j, v.get? j ≠ some true) :
    ∃ flags w, c.validity.covering? c.count = some flags ∧
      v.copyBits? flags.toArray start length = some w ∧ w.Marks (xs.slice start length) ∧
      ∀ j, w.get? j = some true → j < length := by
  have hcount : c.count ≤ c.validity.bitCapacity := by
    rw [h.count]; exact Nat.le_trans h.le_slotCapacity (Nat.min_le_left ..)
  obtain ⟨flags, hflags, hlen, hbits⟩ := Validity.exists_covering? hcount
  have hcover := Bits.le_byteCount c.count
  rw [← hlen, h.count] at hcover
  have hread : start + length ≤ 8 * flags.toArray.size := by rw [List.size_toArray]; omega
  obtain ⟨w, hw, hget⟩ := Validity.exists_copyBits? hread hcap
  refine ⟨flags, w, hflags, hw, fun j x hx => ?_, fun j hj => ?_⟩
  · have hj := (List.getElem?_eq_some_iff.1 hx).1
    rw [Slots.length_slice hrange] at hj
    rw [Slots.getElem?_slice hj] at hx
    rw [hget, if_pos hj, hbits _ (by omega)]
    exact congrArg some (Validity.get?_eq_some_iff.1 (h.flags _ x hx)).2
  · rw [hget] at hj
    split at hj
    · assumption
    · exact absurd hj (hunset j)

theorem exists_copiedFrom? (h : source.Encodes xs) (hlen : 0 < length)
    (hrange : start + length ≤ xs.length) (hslots : length ≤ fresh.slotCapacity)
    (hbytes : (xs.slice start length).bytes.length ≤ fresh.byteCapacity)
    (hunset : ∀ j, fresh.validity.get? j ≠ some true) :
    ∃ d, fresh.copiedFrom? source start length = some d ∧ d.Encodes (xs.slice start length) ∧
      d.Clean ∧ d.extent.last = some (length - 1) := by
  have hslice := Slots.length_slice hrange
  have hcap : length ≤ fresh.offsets.slotCapacity := Nat.le_trans hslots (Nat.min_le_right ..)
  have hpos : 0 < fresh.offsets.block.size := Nat.pos_of_ne_zero fun h0 => by
    have := OffsetTable.slotCapacity_of_size_zero h0; omega
  obtain ⟨offsets, hoffsets, hdelimits⟩ :=
    h.exists_rebase? hrange ((OffsetTable.le_slotCapacity_iff hpos).1 hcap)
  obtain ⟨values, hvalues, hprefix⟩ : ∃ u,
      fresh.values.write? 0 (xs.slice start length).bytes = some u ∧
        (xs.slice start length).bytes <+: u.block.toList := by
    have hroom : ([] : List UInt8).length + (xs.slice start length).bytes.length ≤
        fresh.values.capacity := by rw [List.length_nil, Nat.zero_add]; exact hbytes
    obtain ⟨u, hu, hp, -⟩ := ValueStore.exists_write?_append List.nil_prefix hroom
    exact ⟨u, hu, hp⟩
  obtain ⟨flags, validity, hflags, hvalidity, hmarks, hclean⟩ :=
    h.exists_copyFlags? hrange (Nat.le_trans hslots (Nat.min_le_left ..)) hunset
  have hcopy : fresh.copiedFrom? source start length = some { fresh with
      offsets, values, validity, extent := { count := length, last := some (length - 1) } } := by
    simp only [copiedFrom?, h.offsets start (by omega), h.span? hrange, hoffsets, h.readRange?,
      hvalues, hflags, hvalidity, Option.bind_eq_bind, Option.bind_some]
    rfl
  have hcovers : Extent.Covers { count := length, last := some (length - 1) }
      (xs.slice start length) := by
    refine ⟨hslice.symm, fun l hl => ?_, fun j hj hjl => ?_⟩
    · cases hl; omega
    · have := Extent.next_le_iff.1 hj _ rfl
      omega
  exact ⟨_, hcopy, ⟨hcovers, hmarks, hdelimits, hprefix,
    Nat.le_trans (Slots.length_bytes_slice_le ..) h.fits⟩, hclean, rfl⟩

/-! ## The bytes of the defined slots -/

theorem get_bits (h : c.Encodes xs) (hclean : c.Clean) (j : Nat) :
    Bits.get c.validity.block.bytes j = (xs[j]?).any Option.isSome := by
  by_cases hj : j < xs.length
  · rw [List.getElem?_eq_getElem hj]
    exact (Validity.get?_eq_some_iff.1 (h.flags j _ (List.getElem?_eq_getElem hj))).2
  · rw [List.getElem?_eq_none (by omega)]
    by_cases hbit : Bits.get c.validity.block.bytes j = true
    · have := hclean j (Validity.get?_eq_some_iff.2 ⟨Bits.lt_of_get hbit, hbit⟩)
      rw [h.count] at this
      exact absurd this hj
    · rw [Option.any_none]
      simpa using hbit

theorem leading? (h : c.Encodes xs) : c.values.leading? xs.bytes.length = some xs.bytes := by
  obtain ⟨r, hr⟩ := h.values
  have hl := congrArg List.length hr
  rw [List.length_append, Block.length_toList] at hl
  refine Block.read?_eq_some_iff.2 ⟨by omega, ?_⟩
  rw [← hr, List.drop_zero, List.take_left]

/-- Two columns with the same slots and the same flags have the same bytes. -/
theorem exists_buffers?_of_bits (hc : c.Encodes xs) (hd : d.Encodes xs)
    (hbits : ∀ j, Bits.get c.validity.block.bytes j = Bits.get d.validity.block.bytes j) :
    ∃ b, c.buffers? = some b ∧ d.buffers? = some b := by
  have hflags : ∃ flags, c.validity.covering? c.count = some flags ∧
      d.validity.covering? d.count = some flags := by
    rw [hd.count, hc.count]
    exact Validity.covering?_congr (Nat.le_trans hc.le_slotCapacity (Nat.min_le_left ..))
      (Nat.le_trans hd.le_slotCapacity (Nat.min_le_left ..)) hbits
  have hentries : ∃ entries, c.offsets.entries? c.count = some entries ∧
      d.offsets.entries? d.count = some entries := by
    rw [hd.count, hc.count]
    exact ⟨_, OffsetTable.entries?_eq hc.offsets, OffsetTable.entries?_eq hd.offsets⟩
  obtain ⟨flags, hcf, hdf⟩ := hflags
  obtain ⟨entries, hce, hde⟩ := hentries
  refine ⟨⟨flags, entries, xs.bytes⟩, ?_, ?_⟩
  · simp only [buffers?, hcf, hce, hc.totalBytes?, hc.leading?, Option.bind_eq_bind,
      Option.bind_some]
    rfl
  · simp only [buffers?, hdf, hde, hd.totalBytes?, hd.leading?, Option.bind_eq_bind,
      Option.bind_some]
    rfl

/-- So have two with the same slots of which no flag behind the slots is set: growing, shrinking and
copying leave different bytes behind, but none that are given out. -/
theorem exists_buffers? (hc : c.Encodes xs) (hd : d.Encodes xs) (hcc : c.Clean) (hdc : d.Clean) :
    ∃ b, c.buffers? = some b ∧ d.buffers? = some b :=
  hc.exists_buffers?_of_bits hd fun j => by rw [hc.get_bits hcc, hd.get_bits hdc]

end Encodes

end Column

end PackedColumn
