import PackedColumn.Proofs.Readers

/-!
# Rewriting a slot

A slot that is written anew moves the bytes of the slots behind it, over
themselves as a rule, and their offsets with them. On any column with a sound
layout that fits, the slots behind keep their values and nothing else is
touched, whether the new value is longer than the old one, shorter, or as long.

* `wellFormed_iff`: a layout is sound exactly when the buffers stand for the slots read off them.
* `get?_replace?_past`, `drop_replace?_past`: entries and bytes that a rewrite leaves alone.
* `WellFormed.exists_rewritten`: what a rewrite makes of entries and bytes (`Rewritten`).
-/

namespace PackedColumn

namespace Column

open Slots (value bytes)

variable {t : ColumnType} {c : Column t} {w : OffsetWidth} {o o' : OffsetTable w}
  {s s' : ValueStore} {xs : Slots} {x : List UInt8} {i j n : Nat}

/-! ## The slots of a sound layout -/

/-- Entry `i` as a byte position, 0 where there is none. -/
def position (c : Column t) (i : Nat) : Nat := (c.offsets.start? i).getD 0

/-- The slots as flags, offsets and bytes have them, whether or not the layout is sound. -/
def stored (c : Column t) : Slots :=
  (List.range c.count).map fun i =>
    if c.validity.get? i = some true then
      some ((c.values.block.toList.drop (c.position i)).take (c.position (i + 1) - c.position i))
    else none

theorem length_stored (c : Column t) : c.stored.length = c.count := by
  rw [stored, List.length_map, List.length_range]

namespace WellFormed

variable (h : c.WellFormed)

include h

/-- Offsets ascend from 0, so none is negative. -/
theorem get?_eq (hi : i ≤ c.count) : c.offsets.get? i = some (c.position i : Int) := by
  suffices hnat : ∃ k : Nat, c.offsets.get? i = some (k : Int) by
    obtain ⟨k, hk⟩ := hnat
    rw [position, OffsetTable.start?_of_get? hk, hk]
    rfl
  induction i with
  | zero => exact ⟨0, h.start⟩
  | succ i ih =>
    obtain ⟨k, hk⟩ := ih (Nat.le_of_succ_le hi)
    obtain ⟨m, n, hm, hn, hle⟩ := h.ascending i hi
    obtain rfl : m = k := Option.some.inj (hm.symm.trans hk)
    exact ⟨n.toNat, by rw [hn, Int.toNat_of_nonneg (by omega)]⟩

theorem position_zero : c.position 0 = 0 := by
  have hzero := (h.get?_eq (Nat.zero_le _)).symm.trans h.start
  exact Int.ofNat.inj (Option.some.inj hzero)

theorem position_le_succ (hi : i < c.count) : c.position i ≤ c.position (i + 1) := by
  obtain ⟨m, n, hm, hn, hle⟩ := h.ascending i hi
  rw [h.get?_eq (Nat.le_of_lt hi)] at hm
  rw [h.get?_eq hi] at hn
  cases hm
  cases hn
  exact Int.ofNat_le.1 hle

theorem exists_flag (hi : i < c.count) : ∃ b, c.validity.get? i = some b :=
  Option.isSome_iff_exists.1 (Validity.get?_isSome_iff.2
    (Nat.lt_of_lt_of_le hi (Nat.le_trans h.count_le (Nat.min_le_left ..))))

theorem flag_stored (hi : i < c.stored.length) :
    c.validity.get? i = some c.stored[i].isSome := by
  obtain ⟨b, hb⟩ := h.exists_flag (by rwa [length_stored] at hi)
  simp only [stored, List.getElem_map, List.getElem_range, hb]
  cases b <;> simp

/-- A null slot is empty, so the bytes between two offsets are those of the slot. -/
theorem value_stored (hi : i < c.stored.length) : value c.stored[i] =
    (c.values.block.toList.drop (c.position i)).take (c.position (i + 1) - c.position i) := by
  have hcount : i < c.count := by rwa [length_stored] at hi
  obtain ⟨b, hb⟩ := h.exists_flag hcount
  simp only [stored, List.getElem_map, List.getElem_range, hb]
  cases b with
  | true => rfl
  | false =>
    have hempty := h.null_empty i hcount hb
    rw [h.get?_eq (Nat.le_of_lt hcount), h.get?_eq hcount, Option.some.injEq, Int.ofNat_inj]
      at hempty
    rw [hempty, Nat.sub_self, List.take_zero]
    rfl

theorem bytes_take_stored (hi : i ≤ c.count) :
    bytes (c.stored.take i) = c.values.block.toList.take (c.position i) := by
  induction i with
  | zero => rw [h.position_zero, List.take_zero, List.take_zero, Slots.bytes_nil]
  | succ i ih =>
    have hlt : i < c.stored.length := by rwa [length_stored]
    rw [Slots.bytes_take_succ hlt, ih (Nat.le_of_succ_le hi), h.value_stored hlt, ← List.take_add,
      Nat.add_sub_cancel' (h.position_le_succ hi)]

theorem position_count : c.position c.count ≤ c.byteCapacity ∧
    c.position c.count ≤ t.width.max := by
  obtain ⟨n, hn, hcapacity, hmax⟩ := h.total
  rw [h.get?_eq (Nat.le_refl _), Option.some.injEq, Int.ofNat_inj] at hn
  exact hn ▸ ⟨hcapacity, hmax⟩

theorem position_mono (hij : i ≤ j) (hj : j ≤ c.count) : c.position i ≤ c.position j := by
  induction hij with
  | refl => exact Nat.le_refl _
  | step _ ih => exact Nat.le_trans (ih (Nat.le_of_succ_le hj)) (h.position_le_succ hj)

theorem offset_stored (hi : i ≤ c.count) : c.stored.offset i = c.position i := by
  have hle : c.position i ≤ c.values.block.size :=
    Nat.le_trans (h.position_mono hi (Nat.le_refl _)) h.position_count.1
  rw [Slots.offset, h.bytes_take_stored hi, List.length_take, Block.length_toList,
    Nat.min_eq_left hle]

/-- A sound layout stands for the slots read off it. -/
theorem encodes : c.Encodes c.stored where
  extent := by
    refine ⟨(length_stored c).symm, fun l hl => ?_, fun i hnext hi => ?_⟩
    · rw [length_stored]
      exact h.last_lt l hl
    · have hcount : i < c.count := by rwa [length_stored] at hi
      have hflag := h.flag_stored hi
      rw [(h.blank i hcount (Extent.next_le_iff.1 hnext)).1, Option.some.injEq] at hflag
      rw [List.getElem?_eq_getElem hi,
        Option.isNone_iff_eq_none.1 (Option.isSome_eq_false_iff.1 hflag.symm)]
  flags := fun i x hx => by
    obtain ⟨hi, rfl⟩ := List.getElem?_eq_some_iff.1 hx
    exact h.flag_stored hi
  offsets := fun i hi => by
    rw [length_stored] at hi
    rw [h.offset_stored hi, h.get?_eq hi]
  values := by
    have hall := h.bytes_take_stored (Nat.le_refl _)
    rw [← length_stored, List.take_length] at hall
    rw [hall]
    exact List.take_prefix ..
  fits := by
    rw [← Slots.offset_length, length_stored, h.offset_stored (Nat.le_refl _)]
    exact h.position_count.2

end WellFormed

theorem wellFormed_iff : c.WellFormed ↔ c.Encodes c.stored :=
  ⟨WellFormed.encodes, Encodes.wellFormed⟩

/-! ## What a rewrite leaves alone -/

theorem get?_shift?_of_outside {delta : Int} (h : o.shift? delta i n = some o')
    (hj : j < i ∨ i + n ≤ j) : o'.get? j = o.get? j := by
  induction n generalizing o i with
  | zero =>
    cases h
    rfl
  | succ n ih =>
    simp only [OffsetTable.shift?, Option.bind_eq_bind, Option.bind_eq_some_iff] at h
    obtain ⟨start, -, h⟩ := h
    split at h
    · obtain ⟨o₁, hput, hrest⟩ := Option.bind_eq_some_iff.1 h
      have hholds : w.Holds (if w.Holds (start + delta) then start + delta else 0) := by
        split
        · assumption
        · exact w.holds_zero
      rw [ih hrest (by omega), OffsetTable.get?_put? hholds hput, if_neg (by omega)]
    · cases h

theorem get?_replace?_past {count : Nat} (h : replace? o s count i x = some (o', s'))
    (hi : i ≤ count) (hj : count < j) : o'.get? j = o.get? j := by
  simp only [replace?, Option.bind_eq_bind, Option.bind_eq_some_iff] at h
  obtain ⟨start, -, former, -, h⟩ := h
  split at h
  · obtain ⟨s₁, -, h⟩ := Option.bind_eq_some_iff.1 h
    cases h
    rfl
  · simp only [Option.bind_eq_some_iff] at h
    obtain ⟨total, -, m, -, o₁, hshift, s₁, -, h⟩ := h
    cases h
    exact get?_shift?_of_outside hshift (by omega)

theorem drop_write?_past {pos : Nat} (h : s.write? pos x = some s') (hn : pos + x.length ≤ n) :
    s'.block.toList.drop n = s.block.toList.drop n := by
  obtain ⟨hroom, rfl⟩ := ValueStore.write?_eq_some_iff.1 h
  have hlength : (s.block.toList.take pos).length = pos := by
    rw [List.length_take, Block.length_toList]
    exact Nat.min_eq_left (Nat.le_trans (Nat.le_add_right ..) hroom)
  rw [Block.toList_write hroom, List.drop_append, List.drop_of_length_le (by simp; omega),
    List.nil_append, List.drop_drop, List.length_append, hlength, Nat.add_sub_cancel' hn]

/-- Neither what is moved nor the value itself reaches past the new end of all values. -/
theorem drop_replace?_past {count start former total : Nat}
    (h : replace? o s count i x = some (o', s')) (hstart : o.start? i = some start)
    (hformer : o.stop? i = some former) (htotal : o.start? count = some total)
    (hn : start + x.length + (total - former) ≤ n) :
    s'.block.toList.drop n = s.block.toList.drop n := by
  simp only [replace?, hstart, hformer, htotal, Option.bind_eq_bind, Option.bind_some] at h
  split at h
  · obtain ⟨s₁, hwrite, h⟩ := Option.bind_eq_some_iff.1 h
    cases h
    exact drop_write?_past hwrite (by omega)
  · simp only [Option.bind_eq_some_iff] at h
    obtain ⟨m, hm, o₁, -, s₁, hwrite, h⟩ := h
    cases h
    obtain ⟨b, hb, rfl⟩ := Option.map_eq_some_iff.1 hm
    obtain ⟨hle, hin, hroom, rfl⟩ := Block.move?_eq_some_iff.1 hb
    have hlength : ((s.block.toList.drop former).take (total - former)).length = total - former := by
      simp only [List.length_take, List.length_drop, Block.length_toList]
      omega
    rw [drop_write?_past hwrite (by omega)]
    exact drop_write?_past (s := s) (ValueStore.write?_eq_some_iff.2
      ⟨by simp only [hlength, ValueStore.capacity]; exact hroom, rfl⟩) (by rw [hlength]; exact hn)

/-! ## What it changes -/

/-- Column `d` is column `c`, which has `total` bytes, with `x` for the `length` of them that slot `i`
has from `start` on. -/
structure Rewritten (c : Column t) (i start length total : Nat) (x : List UInt8) (d : Column t) :
    Prop where
  same : d = { c with offsets := d.offsets, values := d.values }
  entries_size : d.offsets.block.size = c.offsets.block.size
  values_size : d.values.block.size = c.values.block.size
  entries_upto : ∀ j ≤ i, d.offsets.get? j = c.offsets.get? j
  /-- Where the slots behind end and start is moved by the difference of the lengths, up or down. -/
  entries_behind : ∀ j, i < j → j ≤ c.count →
    ∃ e, c.offsets.get? j = some e ∧ d.offsets.get? j = some (e + (x.length - length : Int))
  entries_past : ∀ j, c.count < j → d.offsets.get? j = c.offsets.get? j
  bytes_before : d.values.block.toList.take start = c.values.block.toList.take start
  bytes_of_slot : d.values.read? start x.length = some x
  bytes_past : d.values.block.toList.drop (total - length + x.length) =
    c.values.block.toList.drop (total - length + x.length)
  /-- The slots behind have the bytes they had, and so do those before. -/
  others : ∀ j < c.count, j ≠ i → ∃ y, c.bytes? j = some y ∧ d.bytes? j = some y

/-- In any column with a sound layout any of its slots can be rewritten with any value with which the
bytes of all slots fit the memory held and the width of the offsets. -/
theorem WellFormed.exists_rewritten (h : c.WellFormed) (hi : i < c.count) :
    ∃ start length total, c.offsets.start? i = some start ∧ c.offsets.length? i = some length ∧
      c.totalBytes? = some total ∧ start + length ≤ total ∧
      ∀ x, total - length + x.length ≤ min c.byteCapacity t.width.max → ∃ d,
        replace? c.offsets c.values c.count i x = some (d.offsets, d.values) ∧
          c.Rewritten i start length total x d := by
  -- From here on the layout is the list of slots that it stands for.
  have hxs := h.encodes
  generalize c.stored = xs at hxs
  have hlt : i < xs.length := by rwa [hxs.count] at hi
  have hstop := Slots.offset_succ hlt
  have hle := Slots.offset_le xs (i + 1)
  refine ⟨_, _, _, hxs.start? (Nat.le_of_lt hlt), hxs.length? (List.getElem?_eq_getElem hlt),
    hxs.totalBytes?, by omega, fun x hx => ?_⟩
  have hsize : (bytes (xs.set i (some x))).length =
      xs.bytes.length - (value xs[i]).length + x.length := by
    rw [← Slots.put_of_lt hlt, Slots.length_bytes_put, Slots.sizeWith_of_lt hlt]
    rfl
  rw [← hsize] at hx
  obtain ⟨o', s', hreplace, ho, hs⟩ := Column.exists_replace? hxs.offsets hxs.values (some x) hlt
    (Nat.le_trans hx (Nat.min_le_left ..)) (Nat.le_trans hx (Nat.min_le_right ..))
  rw [← hxs.count, Slots.value_some] at hreplace
  obtain ⟨hosize, hssize⟩ := replace?_sizes hreplace
  have hset : (xs.set i (some x)).length = xs.length := List.length_set ..
  refine ⟨{ c with offsets := o', values := s' }, hreplace, rfl, hosize, hssize, fun j hj => ?_,
    fun j hij hj => ?_, fun j hj => get?_replace?_past hreplace (Nat.le_of_lt hi) hj, ?_, ?_,
    drop_replace?_past hreplace (hxs.start? (Nat.le_of_lt hlt)) (hxs.start? hlt) hxs.totalBytes?
      (by omega), fun j hj hne => ?_⟩
  · rw [ho j (by omega), hxs.offsets j (by omega), Slots.offset_set_of_le hj]
  · rw [hxs.count] at hj
    refine ⟨_, hxs.offsets j hj, ?_⟩
    rw [ho j (by omega), Slots.offset_set_eq hlt hij]
    rfl
  · -- Both stores begin with the bytes of the slots before.
    have hold := hxs.values
    rw [Slots.bytes_eq_of_lt hlt, List.append_assoc] at hold
    rw [Slots.bytes_set hlt, List.append_assoc] at hs
    rw [Slots.offset, ← List.prefix_iff_eq_take.1 ((List.prefix_append ..).trans hold),
      ← List.prefix_iff_eq_take.1 ((List.prefix_append ..).trans hs)]
  · rw [Slots.bytes_set hlt] at hs
    exact ValueStore.read?_eq hs
  · rw [hxs.count] at hj
    have hget := List.getElem?_eq_getElem hj
    refine ⟨_, hxs.bytes? hget, bytes?_of_delimits ho hs ?_⟩
    rw [List.getElem?_set_ne (Ne.symm hne), hget]

/-- A longer value and a shorter one in a column of four slots; each time the bytes behind move over
themselves. -/
theorem exists_rewritten_of_overlapping : ∃ c d e : Column ⟨.bytes, .narrow⟩,
    c.WellFormed ∧ c.count = 4 ∧ c.totalBytes? = some 8 ∧
      replace? c.offsets c.values c.count 0 [7, 8, 9] = some (d.offsets, d.values) ∧
      c.Rewritten 0 0 2 8 [7, 8, 9] d ∧
      replace? c.offsets c.values c.count 1 [7] = some (e.offsets, e.values) ∧
      c.Rewritten 1 2 3 8 [7] e := by
  have hrun : Workspace.Yields [2048]
      [.create 0 0 { name := "a", type := ⟨.bytes, .narrow⟩ } { initialSlots := 4 },
        .edit 0 (.pushAll [some ⟨[1, 2], 1⟩, some ⟨[3, 4, 5], 1⟩, none, some ⟨[6, 7, 8], 1⟩])]
      (fun (seat : Seat ⟨.bytes, .narrow⟩) _ => seat.column.count = 4 ∧
        seat.column.offsets.start? 0 = some 0 ∧ seat.column.offsets.length? 0 = some 2 ∧
        seat.column.offsets.start? 1 = some 2 ∧ seat.column.offsets.length? 1 = some 3 ∧
        seat.column.totalBytes? = some 8 ∧ seat.column.byteCapacity = 64) = true := by
    decide +kernel
  obtain ⟨w, seat, a, hreach, hseat, -, hend⟩ :=
    Workspace.Reachable.of_yields hrun (by simp [Command.Safe, Edit.Safe])
  obtain ⟨hcount, hstart, hlength, hstart', hlength', htotal, hcapacity⟩ := of_decide_eq_true hend
  obtain ⟨xs, hxs⟩ := hreach.encoded _ 0 seat (Session.seatAt?_eq_some.2 hseat)
  have hwell := hxs.wellFormed
  obtain ⟨start, length, total, h₁, h₂, h₃, -, hlonger⟩ :=
    hwell.exists_rewritten (i := 0) (by omega)
  cases hstart.symm.trans h₁
  cases hlength.symm.trans h₂
  cases htotal.symm.trans h₃
  obtain ⟨start, length, total, h₁, h₂, h₃, -, hshorter⟩ :=
    hwell.exists_rewritten (i := 1) (by omega)
  cases hstart'.symm.trans h₁
  cases hlength'.symm.trans h₂
  cases htotal.symm.trans h₃
  obtain ⟨d, hd, hrewritten⟩ := hlonger [7, 8, 9] (by rw [hcapacity]; decide)
  obtain ⟨e, he, hrewritten'⟩ := hshorter [7] (by rw [hcapacity]; decide)
  exact ⟨seat.column, d, e, hwell, hcount, htotal, hd, hrewritten, he, hrewritten'⟩

end Column

end PackedColumn
