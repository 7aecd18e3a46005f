import PackedColumn.Proofs.Capacity

/-!
# Room made ahead

Making room asks for the three buffers one after the other. A column that has
got the room has it for good: the same request once more asks for nothing
(`reserve_again`), also where the flags still have no memory because no slot
was asked for. Allocating anew gives everything back first, and either gets
all three buffers, every byte of them 0, or is left with none.

* `of_reserve_done`: the three requests that a reserve which is done consists of.
* `Block.Zeroed`: blocks of zero bytes, and that tables and flags stay so as they grow.
* `renewWith_outcome`: how allocating anew ends.
* `Reachable.reserves`: both, on any column that ever arises.
-/

namespace PackedColumn

/-! ## Zero bytes -/

/-- Every byte of the block is 0. -/
def Block.Zeroed (b : Block) : Prop := ∀ x ∈ b.toList, x = 0

namespace Block

variable {b c : Block}

theorem zeroed_empty : empty.Zeroed := nofun

theorem Zeroed.growsTo (h : b.Zeroed) (hg : b.GrowsTo c) : c.Zeroed := by
  obtain ⟨n, hn⟩ := hg
  intro x hx
  rw [hn, List.mem_append] at hx
  exact hx.elim (h x) List.eq_of_mem_replicate

theorem Zeroed.write (h : b.Zeroed) (pos : Nat) {xs : List UInt8} (hxs : ∀ x ∈ xs, x = 0) :
    (b.write pos xs).Zeroed := by
  intro x hx
  obtain ⟨i, hi⟩ := List.mem_iff_getElem?.1 hx
  rw [toList, Array.getElem?_toList] at hi
  have hwrite := Bytes.getElem?_write b.bytes pos xs i
  rw [show (b.bytes.write pos xs)[i]? = some x from hi] at hwrite
  split at hwrite
  · exact hxs x (List.mem_of_getElem? hwrite.symm)
  · rw [← Array.getElem?_toList] at hwrite
    exact h x (List.mem_of_getElem? hwrite.symm)

end Block

theorem Validity.get?_of_zeroed {v : Validity} (h : v.block.Zeroed) {i : Nat}
    (hi : i < v.bitCapacity) : v.get? i = some false := by
  have hbyte : v.block.bytes.getD (i / 8) 0 = 0 := by
    rw [Array.getD_eq_getD_getElem?, ← Array.getElem?_toList]
    cases hx : v.block.bytes.toList[i / 8]? with
    | none => rfl
    | some x => exact h x (List.mem_of_getElem? hx)
  refine Validity.get?_eq_some_iff.2 ⟨hi, ?_⟩
  rw [Bits.get, hbyte, Bits.test]
  exact BitVec.getLsbD_zero

namespace OffsetTable

variable {w : OffsetWidth} {o u : OffsetTable w} {slots committed i : Nat} {a b : Allocator}

theorem get?_of_zeroed (h : o.block.Zeroed) (hi : i ≤ o.slotCapacity) : o.get? i = some 0 := by
  obtain ⟨v, hv⟩ := exists_get? hi
  rw [hv]
  rcases get?_cases hv with ⟨-, -, rfl⟩ | ⟨hle, rfl⟩
  · rfl
  · have hzeros : (o.block.toList.drop (i * w.bytes)).take w.bytes = w.encode 0 := by
      rw [OffsetWidth.encode_zero, List.eq_replicate_iff]
      rw [Nat.add_mul, Nat.one_mul] at hle
      refine ⟨?_, fun x hx => h x (List.mem_of_mem_drop (List.mem_of_mem_take hx))⟩
      rw [List.length_take, List.length_drop, Block.length_toList]
      omega
    rw [hzeros, OffsetWidth.decode_encode w.holds_zero]

theorem zeroed_fillFrom (h : o.block.Zeroed) (i n : Nat) : (o.fillFrom 0 i n).block.Zeroed := by
  induction n generalizing o i with
  | zero => exact h
  | succ n ih =>
    refine ih (h.write _ fun x hx => ?_) _
    rw [OffsetWidth.encode_zero] at hx
    exact List.eq_of_mem_replicate hx

/-- The entries that a table of zeros grows by repeat a zero. -/
theorem zeroed_of_reserve (h : o.block.Zeroed) (hdone : o.reserve slots committed a = .done u b) :
    u.block.Zeroed := by
  rw [reserve_eq] at hdone
  split at hdone
  · cases hdone
    exact h
  split at hdone
  · cases hdone
  obtain ⟨block, c, hblock, hrest⟩ := Outcome.bind_eq_done_iff.1 hdone
  obtain ⟨last, d, hlast, hrest⟩ := Outcome.bind_eq_done_iff.1 hrest
  have hgrown : block.Zeroed := h.growsTo ((Allocator.reallocate_sat ..).of_done hblock).1
  cases hget : (mk block : OffsetTable w).get? committed with
  | none => rw [hget] at hlast; cases hlast
  | some v =>
    have hzero := get?_of_zeroed (o := mk block) hgrown (le_slotCapacity_of_get? hget)
    rw [hget, Option.some.injEq] at hzero
    rw [hget, hzero] at hlast
    cases hlast
    cases hrest
    exact zeroed_fillFrom hgrown _ _

end OffsetTable

theorem ValueStore.capacity_of_reserve {n : Nat} {s : ValueStore} {a b : Allocator}
    (h : empty.reserve n a = .done s b) : s.capacity = Size.roundUp n := by
  rw [reserve_eq] at h
  split at h
  · rename_i hn
    cases h
    rw [show n = 0 from Nat.le_zero.1 hn]
    rfl
  · obtain ⟨block, c, hblock, hs⟩ := Outcome.bind_eq_done_iff.1 h
    cases hs
    have hsize := ((Allocator.reallocate_sat ..).of_done hblock).2.1
    rw [show max n (2 * empty.capacity) = n from Nat.max_zero n] at hsize
    exact hsize.trans (Nat.zero_max _)

namespace Column

variable {t : ColumnType} {s u : Owned t} {xs : Slots} {slots bytes : Nat}

/-! ## The requests of a reserve -/

theorem of_request_done {α : Type} {part : Column t → Allocator.Request α}
    {place : α → Column t → Column t} (h : Op.request part place s = .done () u) :
    ∃ x, part s.column s.allocator = .done x u.allocator ∧ u.column = place x s.column := by
  simp only [Op.request] at h
  cases hr : part s.column s.allocator with
  | done x a => rw [hr] at h; cases h; exact ⟨x, rfl, rfl⟩
  | refused e a => rw [hr] at h; cases h
  | breach => rw [hr] at h; cases h

theorem of_reserve_done (h : reserve slots bytes s = .done () u) :
    ∃ a b, s.column.values.reserve bytes s.allocator = .done u.column.values a ∧
      s.column.offsets.reserve slots s.column.count a = .done u.column.offsets b ∧
      s.column.validity.reserve slots b = .done u.column.validity u.allocator ∧
      u.column.extent = s.column.extent := by
  obtain ⟨_, v, hvalues, hslots⟩ := Outcome.bind_eq_done_iff.1 h
  obtain ⟨_, v', hentries, hflags⟩ := Outcome.bind_eq_done_iff.1 hslots
  obtain ⟨values, hvalues, hv⟩ := of_request_done hvalues
  obtain ⟨offsets, hentries, hv'⟩ := of_request_done hentries
  obtain ⟨validity, hflags, hu⟩ := of_request_done hflags
  rw [hv] at hentries hv'
  rw [hv'] at hflags hu
  rw [hu]
  exact ⟨_, _, hvalues, hentries, hflags, rfl⟩

/-- Where there is room for everything, and the table has memory, nothing is asked for. -/
theorem reserve_of_le (hbytes : bytes ≤ s.column.byteCapacity)
    (hslots : slots ≤ s.column.slotCapacity) (htable : 0 < s.column.offsets.block.size) :
    reserve slots bytes s = .done () s := by
  have hflags : Bits.byteCount slots ≤ s.column.validity.block.size := by
    have := Nat.le_trans hslots (Nat.min_le_left ..)
    simp only [Validity.bitCapacity] at this
    unfold Bits.byteCount
    split <;> omega
  have hentries : slots ≤ s.column.offsets.slotCapacity := Nat.le_trans hslots (Nat.min_le_right ..)
  have hvalues : growValues bytes s = .done () s :=
    request_of_done (x := s.column.values) (a := s.allocator)
      (by rw [ValueStore.reserve_of_le hbytes]; rfl)
  have htable : growEntries slots s = .done () s :=
    request_of_done (x := s.column.offsets) (a := s.allocator)
      (by rw [OffsetTable.reserve_eq, if_pos ⟨hentries, Nat.ne_of_gt htable⟩]; rfl)
  have hbits : growFlags slots s = .done () s :=
    request_of_done (x := s.column.validity) (a := s.allocator)
      (by rw [Validity.reserve_eq, if_pos hflags]; rfl)
  rw [reserve, Call.bind_of_done hvalues, growSlots_eq, Call.bind_of_done htable, hbits]

/-- Room that was made is there: the same request once more asks for nothing. -/
theorem reserve_again (h : reserve slots bytes s = .done () u) :
    reserve slots bytes u = .done () u := by
  obtain ⟨a, b, hvalues, hentries, hflags, -⟩ := of_reserve_done h
  have hbytes := ((ValueStore.reserve_sat ..).of_done hvalues).2.1
  obtain ⟨hslots, htable, -⟩ := (OffsetTable.reserve_sat ..).of_done hentries
  have hbits := ((Validity.reserve_sat ..).of_done hflags).2.1
  exact reserve_of_le hbytes (Nat.le_min.2 ⟨hbits, hslots⟩) htable

/-! ## Allocating anew -/

/-- No slots, room for as many slots and exactly as many value bytes as asked for, rounded up, and
nothing but zeros in the three buffers. -/
structure Renewed (c : Column t) (bytes slots : Nat) : Prop where
  extent : c.extent = .empty
  slots_le : slots ≤ c.slotCapacity
  byteCapacity : c.byteCapacity = Size.roundUp bytes
  blocks : ∀ b ∈ c.blocks, b.Zeroed
  offsets : ∀ i ≤ c.offsets.slotCapacity, c.offsets.get? i = some 0
  flags : ∀ i < c.validity.bitCapacity, c.validity.get? i = some false

/-- No slots and no buffers. -/
structure Bare (c : Column t) : Prop where
  extent : c.extent = .empty
  blocks : ∀ b ∈ c.blocks, b = .empty

theorem bare_clear (s : Owned t) : s.clear.column.Bare :=
  ⟨rfl, fun b hb => by simpa [blocks, Owned.clear, Validity.empty, OffsetTable.empty,
    ValueStore.empty] using hb⟩

theorem renewed_of_done (h : reserve slots bytes s.clear = .done () u) :
    u.column.Renewed bytes slots := by
  obtain ⟨a, b, hvalues, hentries, hflags, hextent⟩ := of_reserve_done h
  have hstart : s.clear.column.offsets.get? s.clear.column.count ≠ none :=
    (encodes_clear s).get?_count_ne_none
  have hroom := (reserve_sat slots bytes s.clear).of_done h
  have hvaluesZero : u.column.values.block.Zeroed :=
    Block.zeroed_empty.growsTo ((ValueStore.reserve_sat ..).of_done hvalues).1
  have hentriesZero : u.column.offsets.block.Zeroed :=
    OffsetTable.zeroed_of_reserve (o := s.clear.column.offsets) Block.zeroed_empty hentries
  have hflagsZero : u.column.validity.block.Zeroed :=
    Block.zeroed_empty.growsTo ((Validity.reserve_sat ..).of_done hflags).1
  refine ⟨hextent, hroom.2.1, ValueStore.capacity_of_reserve hvalues, fun block hblock => ?_,
    fun i hi => OffsetTable.get?_of_zeroed hentriesZero hi,
    fun i hi => Validity.get?_of_zeroed hflagsZero hi⟩
  simp only [blocks, List.mem_cons, List.not_mem_nil, or_false] at hblock
  rcases hblock with rfl | rfl | rfl
  · exact hflagsZero
  · exact hentriesZero
  · exact hvaluesZero

/-- Allocating anew gets all three buffers or leaves the column with none. -/
theorem renewWith_outcome (bytes slots : Nat) (s : Owned t) :
    (renewWith bytes slots s).Sat (fun _ u => u.column.Renewed bytes slots)
      (fun _ u => u.column.Bare) False := by
  have hreserve := reserve_sat slots bytes s.clear
  unfold renewWith
  cases hr : reserve slots bytes s.clear with
  | done _ u => exact renewed_of_done hr
  | refused e u => exact bare_clear u
  | breach =>
    rw [hr] at hreserve
    exact (encodes_clear s).get?_count_ne_none hreserve

end Column

namespace Workspace

variable {t : ColumnType} {w : Workspace} {limits : List Nat} {place : Nat} {seat : Seat t}
  {a : Allocator}

/-- The account of a column holds what the column holds, beside what it holds for others. -/
theorem Reachable.exists_accounts (h : Reachable limits w) (hlimits : ∀ l ∈ limits, l ≤ Size.max)
    (hseat : (w.places t)[place]? = some (some seat)) (ha : w.allocators[seat.home]? = some a) :
    ∃ k, a.Accounts (k + seat.column.footprint) := by
  have hat : (w.session t).seatAt? place = some seat := Session.seatAt?_eq_some.2 hseat
  have hheld := (((h.balanced hlimits).session t).take (Session.lt_of_seatAt? hat)).held
    seat.home a ha
  rw [hat, Seat.share, if_pos rfl, ← Nat.add_assoc] at hheld
  exact ⟨_, hheld⟩

/-- Making room and allocating anew, for a column of a reachable workspace. Room is made by growing
alone, so no capacity is lowered even where it is refused, and once made the same request does
nothing. Allocating anew gets all buffers, or the column is left with none and its account with what
it held for others. -/
theorem Reachable.reserves (h : Reachable limits w) (hlimits : ∀ l ∈ limits, l ≤ Size.max)
    (hseat : (w.places t)[place]? = some (some seat)) (ha : w.allocators[seat.home]? = some a)
    (slots bytes : Nat) :
    (Column.reserve slots bytes ⟨a, seat.column⟩).Sat
        (fun _ u => slots ≤ u.column.slotCapacity ∧ bytes ≤ u.column.byteCapacity ∧
          seat.column.slotCapacity ≤ u.column.slotCapacity ∧
          seat.column.byteCapacity ≤ u.column.byteCapacity ∧
          Column.reserve slots bytes u = .done () u)
        (fun _ u => seat.column.slotCapacity ≤ u.column.slotCapacity ∧
          seat.column.byteCapacity ≤ u.column.byteCapacity) False ∧
      (Column.renewWith bytes slots ⟨a, seat.column⟩).Sat
        (fun _ u => u.column.Renewed bytes slots)
        (fun _ u => u.column.Bare ∧
          u.allocator.allocated + seat.column.footprint = a.allocated ∧
          u.allocator.limit = a.limit ∧ u.allocator.overdrawn = a.overdrawn) False := by
  obtain ⟨xs, hxs⟩ := h.encoded t place seat (Session.seatAt?_eq_some.2 hseat)
  obtain ⟨k, hk⟩ := h.exists_accounts hlimits hseat ha
  constructor
  · have hgrows := Column.reserve_sat slots bytes ⟨a, seat.column⟩
    cases hr : Column.reserve slots bytes ⟨a, seat.column⟩ with
    | done _ u =>
      rw [hr] at hgrows
      obtain ⟨hgrown, hslots, hbytes⟩ := hgrows
      exact ⟨hslots, hbytes, hgrown.column.slotCapacity_le, hgrown.column.byteCapacity_le,
        Column.reserve_again hr⟩
    | refused e u =>
      rw [hr] at hgrows
      exact ⟨hgrows.column.slotCapacity_le, hgrows.column.byteCapacity_le⟩
    | breach =>
      rw [hr] at hgrows
      exact hxs.get?_count_ne_none hgrows
  · refine ((Column.renewWith_outcome bytes slots ⟨a, seat.column⟩).and
      (Column.renewWith_settles bytes slots ⟨a, seat.column⟩)).mono (fun _ _ hu => hu.1)
      (fun _ u ⟨hbare, hsettles⟩ => ?_) And.left
    obtain ⟨hu, hlimit⟩ := hsettles k hk
    have hfootprint : u.column.footprint = 0 := by
      have hempty : ∀ b ∈ u.column.blocks, b.size = 0 := fun b hb => by rw [hbare.blocks b hb]; rfl
      simp only [Column.blocks, List.forall_mem_cons] at hempty
      simp only [Column.footprint, hempty]
    have hallocated := hu.allocated
    rw [hfootprint] at hallocated
    exact ⟨hbare, by rw [hallocated, hk.allocated]; rfl, hlimit,
      hu.overdrawn.trans hk.overdrawn.symm⟩

/-- Room made for more slots than there are, and a column allocated anew whose flags are refused when
the values and the offsets have their memory. -/
theorem reserves_of_pushed : ∃ (w : Workspace) (seat : Seat ⟨.bytes, .narrow⟩) (a : Allocator)
    (u v : Owned ⟨.bytes, .narrow⟩), Reachable [520] w ∧
      (w.places ⟨.bytes, .narrow⟩)[0]? = some (some seat) ∧ w.allocators[seat.home]? = some a ∧
      Column.reserve 20 70 ⟨a, seat.column⟩ = .done () u ∧ 20 ≤ u.column.slotCapacity ∧
      70 ≤ u.column.byteCapacity ∧ Column.reserve 20 70 u = .done () u ∧
      Column.renewWith 10 100 ⟨a, seat.column⟩ =
        .refused (.allocation (.limitExceeded 64 512 520)) v ∧ v.column.Bare ∧
      v.allocator.allocated + seat.column.footprint = a.allocated := by
  have hrun : Yields [520]
      [.create 0 0 { name := "a", type := ⟨.bytes, .narrow⟩ } { initialSlots := 1 },
        .edit 0 (.pushAll [some ⟨[1, 2], 1⟩, none])]
      (fun (seat : Seat ⟨.bytes, .narrow⟩) a =>
        (Column.reserve 20 70 ⟨a, seat.column⟩).state?.isSome ∧
        (Column.reserve 20 70 ⟨a, seat.column⟩).refusal? = none ∧
        (Column.renewWith 10 100 ⟨a, seat.column⟩).refusal? =
          some (.allocation (.limitExceeded 64 512 520))) = true := by
    decide +kernel
  obtain ⟨w, seat, a, hreach, hseat, ha, hend⟩ :=
    Reachable.of_yields hrun (by simp [Command.Safe, Edit.Safe])
  obtain ⟨hkept, hnone, hshort⟩ := of_decide_eq_true hend
  obtain ⟨⟨⟩, u, hdone⟩ := Outcome.exists_done hkept hnone
  obtain ⟨v, hrefused⟩ := Outcome.exists_refused hshort
  obtain ⟨hroom, -⟩ := hreach.reserves (by decide) hseat ha 20 70
  obtain ⟨-, hanew⟩ := hreach.reserves (by decide) hseat ha 100 10
  rw [hdone] at hroom
  rw [hrefused] at hanew
  exact ⟨w, seat, a, u, v, hreach, hseat, ha, hdone, hroom.1, hroom.2.1, hroom.2.2.2.2, hrefused,
    hanew.1, hanew.2.1⟩

end Workspace

end PackedColumn
