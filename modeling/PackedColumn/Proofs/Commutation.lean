import PackedColumn.Proofs.Overwrites
import PackedColumn.Proofs.Provision

/-!
# Writes to different slots in any order

Which slots are made null on the way, and whether a value is put behind all
others or moves those behind it, depends on the order of the writes. What is
left in the end does not: the slots and the extent are those of all the writes,
and the flags behind the last slot, which the bytes of a column show as well,
are never touched (`Column.Writes`).

* `put?_writes`: one value, written within the memory held.
* `Encodes.doAll_sets`: growing writes one after the other.
* `Writes.looksLike`: two orders of the same slots.
* `Reachable.writes_commute`: all orders, on any column that ever arises.
* `not_commute`: orders of which only one is done.
-/

namespace PackedColumn

/-! ## Extents and flags -/

namespace Extent

/-- The extent once slot `i` is written. -/
def written (e : Extent) (i : Nat) : Extent where
  count := max e.count (i + 1)
  last := some (max (e.last.getD 0) i)

theorem written_right_comm (e : Extent) (i j : Nat) :
    (e.written i).written j = (e.written j).written i := by
  simp only [written, Option.getD_some, Nat.max_right_comm]

theorem count_le_foldl_written (e : Extent) (is : List Nat) :
    e.count ≤ (is.foldl written e).count := by
  induction is generalizing e with
  | nil => exact Nat.le_refl _
  | cons i is ih => exact Nat.le_trans (Nat.le_max_left ..) (ih (e.written i))

end Extent

namespace Column

variable {t : ColumnType} {w : OffsetWidth} {v v' : Validity} {o o' : OffsetTable w}
  {c d e : Column t} {xs zs : Slots} {i j n : Nat} {is js : List Nat}

/-- One column comes from the other by writing these slots. -/
structure Writes (is : List Nat) (c d : Column t) : Prop where
  extent : d.extent = is.foldl Extent.written c.extent
  /-- The flags behind the last slot are those from before. -/
  behind : ∀ j, d.count ≤ j →
    Bits.get d.validity.block.bytes j = Bits.get c.validity.block.bytes j

theorem Writes.nil (c : Column t) : Writes [] c c := ⟨rfl, fun _ _ => rfl⟩

/-- There are never fewer slots, so a flag that is behind the last one was so all along. -/
theorem Writes.append (h : Writes is c d) (h' : Writes js d e) : Writes (is ++ js) c e where
  extent := by rw [h'.extent, h.extent, List.foldl_append]
  behind := fun j hj => by
    have hcount : d.count ≤ e.count := by
      rw [count, count, h'.extent]
      exact d.extent.count_le_foldl_written js
    rw [h'.behind j hj, h.behind j (Nat.le_trans hcount hj)]

theorem GrowsTo.writes (h : c.GrowsTo d) : Writes [] c d :=
  ⟨h.extent_eq, fun j _ => Bits.get_growsTo h.flags j⟩

/-- Slots that are made null leave the flags behind them alone. -/
theorem blankSlots?_behind (h : blankSlots? v o i n = some (v', o')) (hj : i + n ≤ j) :
    Bits.get v'.block.bytes j = Bits.get v.block.bytes j := by
  induction n generalizing v o i with
  | zero =>
    cases h
    rfl
  | succ n ih =>
    simp only [blankSlots?, Option.bind_eq_bind, Option.bind_eq_some_iff] at h
    obtain ⟨f, hf, -, -, p, -, hrest⟩ := h
    obtain ⟨hi, rfl⟩ := Validity.put?_eq_some_iff.1 hf
    simp only [Validity.bitCapacity, Block.size] at hi
    rw [ih hrest (by omega), Validity.put, Bits.get_put (by omega), if_neg (by omega)]

/-- The slots skipped over lie before the one written, and the others made null are defined. -/
theorem put?_writes (h : c.Encodes xs) {x : Option (List UInt8)} (hput : c.put? i x = some d) :
    Writes [i] c d := by
  obtain ⟨plan, v', o', o₂, s₂, hplan, hfill, -, hi, rfl⟩ := put?_eq_some_iff.1 hput
  obtain ⟨first, hfirst, -, rfl⟩ := Extent.planSet?_eq_some_iff.1 hplan
  rw [h.nextFree?] at hfirst
  cases hfirst
  have hnext : c.extent.next ≤ c.extent.count := by
    rw [h.extent.count]
    exact h.extent.next_le
  refine ⟨rfl, fun j hj => ?_⟩
  replace hj : max c.extent.count (i + 1) ≤ j := hj
  simp only [Validity.bitCapacity, Block.size] at hi
  show Bits.get (v'.put i x.isSome).block.bytes j = _
  rw [Validity.put, Bits.get_put (by omega), if_neg (by omega)]
  exact blankSlots?_behind hfill (by dsimp only; omega)

namespace Writes

/-- With the same slots, orders of the same writes leave columns that look alike. -/
theorem looksLike (hd : d.Encodes zs) (he : e.Encodes zs) (h : Writes is c d)
    (h' : Writes js c e) (hperm : is.Perm js) : d.LooksLike e := by
  have hextent : e.extent = d.extent := by
    rw [h.extent, h'.extent]
    exact (hperm.foldl_eq' (fun i _ j _ z => z.written_right_comm i j) c.extent).symm
  refine hd.looksLike he hextent fun j => ?_
  by_cases hj : j < zs.length
  · have hx := List.getElem?_eq_getElem hj
    rw [(Validity.get?_eq_some_iff.1 (hd.flags j _ hx)).2,
      (Validity.get?_eq_some_iff.1 (he.flags j _ hx)).2]
  · rw [h.behind j (by rw [hd.count]; omega), h'.behind j (by rw [he.count]; omega)]

end Writes

/-! ## Growing writes -/

theorem Encodes.set_writes {s u : Owned t} (h : s.column.Encodes xs) {x : Option Blob}
    (hdone : set i x s = .done () u) :
    u.column.Encodes (xs.put i (x.map Blob.toList)) ∧ Writes [i] s.column u.column := by
  obtain ⟨v, hgrown, hput, hu⟩ := h.of_set_done hdone
  exact ⟨hu, hgrown.column.writes.append (put?_writes (h.growsTo hgrown.column) hput)⟩

theorem Encodes.doAll_sets {s u : Owned t} {ws : List (Nat × Option Blob)}
    (h : s.column.Encodes xs) (hdone : Edit.doAll (Edit.sets ws) s = .done () u) :
    u.column.Encodes (xs.putAll (Edit.values ws)) ∧
      Writes (ws.map Prod.fst) s.column u.column := by
  induction ws generalizing s xs with
  | nil =>
    cases hdone
    exact ⟨h, .nil _⟩
  | cons p ws ih =>
    obtain ⟨⟨⟩, v, hset, hrest⟩ := Outcome.bind_eq_done_iff.1 hdone
    obtain ⟨hv, hwrites⟩ := h.set_writes hset
    obtain ⟨hu, hwrites'⟩ := ih hv hrest
    exact ⟨hu, hwrites.append hwrites'⟩

end Column

/-! ## Columns of a workspace -/

namespace Workspace

variable {t : ColumnType} {w : Workspace} {limits : List Nat} {place : Nat} {seat : Seat t}
  {ws : List (Nat × Option Blob)}

/-- On a column with slots `xs`, the order of the writes makes no difference to what they leave,
though it may to whether they are done. -/
structure Commute (c : Column t) (ws : List (Nat × Option Blob)) (xs : Slots) : Prop where
  /-- With room for the slots and bytes that an order of them keeps within, all writes are done if
  the values end at an offset throughout. -/
  done : ∀ (ws' : List (Nat × Option Blob)) (a : Allocator) (slots bytes : Nat), ws'.Perm ws →
    Edit.AllWithin slots bytes xs (Edit.sets ws') →
      (Owned.mk a c).HasRoom (c.ample slots bytes) → Edit.EndAtOffsets t.width xs ws' →
        ∃ u, Edit.doAll (Edit.sets ws') ⟨a, c⟩ = .done () u
  /-- If they do not, then the first write after which they would end past the largest offset is
  refused for that. -/
  overflow : ∀ (ws' : List (Nat × Option Blob)) (a : Allocator) (slots bytes : Nat), ws'.Perm ws →
    Edit.AllWithin slots bytes xs (Edit.sets ws') →
      (Owned.mk a c).HasRoom (c.ample slots bytes) → ¬ Edit.EndAtOffsets t.width xs ws' →
        ∃ k u, (∀ j < k, (xs.putAll (Edit.values (ws'.take j))).bytes.length ≤ t.width.max) ∧
          t.width.max < (xs.putAll (Edit.values (ws'.take k))).bytes.length ∧
          Edit.doAll (Edit.sets ws') ⟨a, c⟩ =
            .refused (.offsetOverflow (xs.putAll (Edit.values (ws'.take k))).bytes.length) u
  /-- Two orders of which all writes are done leave the same, whatever the accounts. -/
  same : ∀ (ws₁ ws₂ : List (Nat × Option Blob)) (a b : Allocator) (u v : Owned t), ws₁.Perm ws →
    ws₂.Perm ws → Edit.doAll (Edit.sets ws₁) ⟨a, c⟩ = .done () u →
      Edit.doAll (Edit.sets ws₂) ⟨b, c⟩ = .done () v →
        u.column.Shows (xs.putAll (Edit.values ws)) ∧ u.column.LooksLike v.column

theorem commute_of_encodes {c : Column t} {xs : Slots} (hc : c.Encodes xs)
    (hnodup : (ws.map Prod.fst).Nodup) : Commute c ws xs where
  done := fun ws' a slots bytes _ hwithin hroom hends => by
    rcases Edit.doAll_ample (s := ⟨a, c⟩) hc (Column.provides_ample hroom) hwithin with
      ⟨-, hdone⟩ | ⟨k, -, -, hover, -⟩
    · exact hdone
    · exact absurd (hends k) (Nat.not_le_of_lt hover)
  overflow := fun ws' a slots bytes _ hwithin hroom hnot =>
    (Edit.doAll_ample (s := ⟨a, c⟩) hc (Column.provides_ample hroom) hwithin).resolve_left
      fun h => hnot h.1
  same := fun ws₁ ws₂ a b u v hws₁ hws₂ hu hv => by
    have hkeys : ((Edit.values ws).map Prod.fst).Nodup := by
      rwa [Edit.values, List.map_map]
    have hput : ∀ ws', ws'.Perm ws → xs.putAll (Edit.values ws') = xs.putAll (Edit.values ws) :=
      fun ws' hws' => (xs.putAll_perm (hws'.symm.map _) hkeys).symm
    obtain ⟨hu', hwrites⟩ := Column.Encodes.doAll_sets (s := ⟨a, c⟩) hc hu
    obtain ⟨hv', hwrites'⟩ := Column.Encodes.doAll_sets (s := ⟨b, c⟩) hc hv
    rw [hput ws₁ hws₁] at hu'
    rw [hput ws₂ hws₂] at hv'
    exact ⟨hu'.shows, hwrites.looksLike hu' hv' hwrites' ((hws₁.trans hws₂.symm).map Prod.fst)⟩

/-- In every reachable workspace, writes to different slots of a column can be made in any order in
which they are done: where there is room they are done in each that does not take the values past
the largest offset on the way, and any two orders leave columns that cannot be told apart, in which
each of these slots has its value, and every other one is as it was, or null where it was not
there. -/
theorem Reachable.writes_commute (h : Reachable limits w)
    (hseat : (w.places t)[place]? = some (some seat)) (hnodup : (ws.map Prod.fst).Nodup) :
    ∃ xs : Slots, seat.column.slots? = some xs ∧ seat.column.Shows xs ∧
      xs.Overlays (Edit.values ws) (xs.putAll (Edit.values ws)) ∧ Commute seat.column ws xs := by
  obtain ⟨xs, hxs⟩ := h.encoded t place seat (Session.seatAt?_eq_some.2 hseat)
  exact ⟨xs, hxs.slots?, hxs.shows, xs.overlays_putAll _, commute_of_encodes hxs hnodup⟩

/-- A column was dropped to fewer slots, with a flag left behind them, and the last of these is no
longer written. Then one slot is written anew, one made null, and one appended behind others. -/
theorem writes_commute_of_lowered : ∃ (w : Workspace) (seat : Seat ⟨.bytes, .narrow⟩)
    (a : Allocator) (u v : Owned ⟨.bytes, .narrow⟩), Reachable [512] w ∧
      (w.places ⟨.bytes, .narrow⟩)[0]? = some (some seat) ∧
      w.allocators[seat.home]? = some a ∧
      seat.column.slots? = some [some [1, 2], some [3], none] ∧
      seat.column.extent.last = some 1 ∧ seat.column.validity.get? 3 = some true ∧
      Edit.doAll (Edit.sets [(5, some ⟨[7], 2⟩), (1, none), (0, some ⟨[8], 3⟩)])
        ⟨a, seat.column⟩ = .done () u ∧
      Edit.doAll (Edit.sets [(0, some ⟨[8], 3⟩), (1, none), (5, some ⟨[7], 2⟩)])
        ⟨a, seat.column⟩ = .done () v ∧
      u.column.Shows [some [8, 8, 8], none, none, none, none, some [7, 7]] ∧
      u.column.LooksLike v.column := by
  have hrun : Yields [512]
      [.create 0 0 { name := "a", type := ⟨.bytes, .narrow⟩ } { initialSlots := 1 },
        .edit 0 (.pushAll [some ⟨[1, 2], 1⟩, some ⟨[3], 1⟩, some ⟨[4], 1⟩, some ⟨[5], 1⟩]),
        .edit 0 (.setCount 3), .edit 0 (.setLast (some 1))]
      (fun (seat : Seat ⟨.bytes, .narrow⟩) a =>
        seat.column.slots? = some [some [1, 2], some [3], none] ∧
          seat.column.extent.last = some 1 ∧ seat.column.validity.get? 3 = some true ∧
            (Owned.mk a seat.column).HasRoom (seat.column.ample 6 8)) = true := by
    decide +kernel
  obtain ⟨w, seat, a, hreach, hseat, ha, hend⟩ :=
    Reachable.of_yields hrun (by simp [Command.Safe, Edit.Safe])
  obtain ⟨hslots, hlast, hflag, hroom⟩ := of_decide_eq_true hend
  let ws : List (Nat × Option Blob) := [(5, some ⟨[7], 2⟩), (1, none), (0, some ⟨[8], 3⟩)]
  obtain ⟨xs, hxs, -, -, hcommute⟩ := hreach.writes_commute hseat
    (show (ws.map Prod.fst).Nodup by decide)
  cases hslots.symm.trans hxs
  have hdone : ∀ ws' : List (Nat × Option Blob), ws'.Perm ws →
      Edit.AllWithin 6 8 [some [1, 2], some [3], none] (Edit.sets ws') →
        ∃ u, Edit.doAll (Edit.sets ws') ⟨a, seat.column⟩ = .done () u := fun ws' hperm hwithin =>
    hcommute.done ws' a 6 8 hperm hwithin hroom
      (Edit.endAtOffsets_of_allWithin hwithin (by decide) (by decide))
  obtain ⟨u, hu⟩ := hdone ws (.refl _) (Edit.allWithin_of_total (by decide) (by decide))
  obtain ⟨v, hv⟩ := hdone ws.reverse ws.reverse_perm
    (Edit.allWithin_of_total (by decide) (by decide))
  obtain ⟨hshows, hlike⟩ := hcommute.same ws ws.reverse a a u v (.refl _) ws.reverse_perm hu hv
  exact ⟨w, seat, a, u, v, hreach, hseat, ha, hslots, hlast, hflag, hu, hv, hshows, hlike⟩

/-! ## Where the order decides -/

/-- The account of some column that can arise has room for buffers of sizes that hold two slots and
the values of both orders of two writes on the way, but only the first order is done. -/
def OrderDecides (limits : List Nat) (z : Sizes) (p q : Nat × Option Blob) (err : ColumnError) :
    Prop :=
  ∃ (w : Workspace) (seat : Seat ⟨.bytes, .narrow⟩) (a : Allocator) (xs : Slots)
    (u v : Owned ⟨.bytes, .narrow⟩), Reachable limits w ∧
      (w.places ⟨.bytes, .narrow⟩)[0]? = some (some seat) ∧
      w.allocators[seat.home]? = some a ∧ seat.column.slots? = some xs ∧
      (Owned.mk a seat.column).HasRoom z ∧
      Edit.AllWithin 2 z.values xs (Edit.sets [p, q]) ∧
      Edit.AllWithin 2 z.values xs (Edit.sets [q, p]) ∧
      Edit.doAll (Edit.sets [p, q]) ⟨a, seat.column⟩ = .done () u ∧
      Edit.doAll (Edit.sets [q, p]) ⟨a, seat.column⟩ = .refused err v

/-- A column whose only value ends at the largest offset, with room for another one. -/
theorem exists_filled : ∃ (w : Workspace) (seat : Seat ⟨.bytes, .narrow⟩) (a : Allocator)
    (v : List UInt8), Reachable [Size.max] w ∧
      (w.places ⟨.bytes, .narrow⟩)[0]? = some (some seat) ∧ w.allocators[seat.home]? = some a ∧
      seat.column.Encodes [some v] ∧ v.length = OffsetWidth.narrow.max ∧
      Column.Provides ⟨a, seat.column⟩ 2 0x80000000 ⟨64, 64, 0x100000000⟩ := by
  have hrun : Yields [Size.max]
      [.create 0 0 { name := "a", type := ⟨.bytes, .narrow⟩ } { initialSlots := 1 }]
      (fun (seat : Seat ⟨.bytes, .narrow⟩) a => seat.column.slots? = some [] ∧
        seat.column.ample 2 0x80000000 = ⟨64, 64, 0x100000000⟩ ∧
          (Owned.mk a seat.column).HasRoom (seat.column.ample 2 0x80000000)) = true := by
    decide +kernel
  obtain ⟨w, seat, a, hreach, hseat, ha, hend⟩ :=
    Reachable.of_yields hrun (by simp [Command.Safe])
  obtain ⟨hslots, hample, hroom⟩ := of_decide_eq_true hend
  obtain ⟨xs, hxs⟩ := hreach.encoded _ 0 seat (Session.seatAt?_eq_some.2 hseat)
  cases hslots.symm.trans hxs.slots?
  -- The value is too long to be looked at byte by byte.
  obtain ⟨v, hv⟩ : ∃ v, (Blob.mk [0] 0x7fffffff).toList = v := ⟨_, rfl⟩
  have hlength : v.length = OffsetWidth.narrow.max := hv ▸ Blob.length_toList _
  have hput : Slots.put [] 0 ((some (Blob.mk [0] 0x7fffffff)).map Blob.toList) = [some v] := by
    rw [Option.map_some, hv]
    rfl
  obtain ⟨u, hset, hu, hz⟩ := hxs.set_ample (s := ⟨a, seat.column⟩) (Column.provides_ample hroom)
    (i := 0) (x := some ⟨[0], 0x7fffffff⟩) ⟨by decide, by
      show (Slots.put [] 0 _).bytes.length ≤ _
      rw [hput, Slots.bytes_cons, Slots.bytes_nil, List.append_nil, Slots.value_some, hlength]
      decide⟩
  rw [hput] at hu
  obtain ⟨hreach', hseat', ha'⟩ :=
    hreach.edit (e := .set 0 (some ⟨[0], 0x7fffffff⟩)) hseat ha trivial hset
  exact ⟨_, _, u.allocator, v, hreach', hseat', ha', hu, hlength, hample ▸ hz⟩

/-- The value has to go before another one comes. -/
theorem orderDecides_of_large :
    OrderDecides [Size.max] ⟨64, 64, 0x100000000⟩ (0, none) (1, some ⟨[1], 1⟩)
      (.offsetOverflow 0x80000000) := by
  obtain ⟨w, seat, a, v, hreach, hseat, ha, hxs, hlength, hz⟩ := exists_filled
  have hbytes : (Slots.bytes [some v]).length = 0x7fffffff := by
    rw [Slots.bytes_cons, Slots.bytes_nil, List.append_nil, Slots.value_some, hlength]
    rfl
  have hwithin : ∀ n, 1 ≤ n →
      Edit.AllWithin 2 n [some v] (Edit.sets [(0, none), (1, some ⟨[1], 1⟩)]) := fun n hn =>
    ⟨⟨by decide, Nat.zero_le n⟩, ⟨by decide, hn⟩, trivial⟩
  have hends : Edit.EndAtOffsets .narrow [some v] [(0, none), (1, some ⟨[1], 1⟩)] :=
    Edit.endAtOffsets_of_allWithin (hwithin 1 (Nat.le_refl 1)) (Nat.le_of_eq hbytes) (by decide)
  obtain ⟨u, hdone⟩ := (commute_of_encodes hxs (by decide)).done _ a 2 0x80000000 (.refl _)
    (hwithin _ (by decide)) (hz.hasRoom.mono hz.ample_le) hends
  have hsize : Slots.sizeWith [some v] 1 1 = 0x80000000 := by
    rw [Slots.sizeWith_of_le (Nat.le_refl 1), hbytes]
  have hrefused : Column.set 1 (some ⟨[1], 1⟩) ⟨a, seat.column⟩ =
      .refused (.offsetOverflow (Slots.sizeWith [some v] 1 1)) ⟨a, seat.column⟩ :=
    hxs.set_refused (show (Blob.mk [1] 1).size ≤ OffsetWidth.wide.max by decide)
      (hsize ▸ by decide)
  rw [hsize] at hrefused
  exact ⟨w, seat, a, _, u, _, hreach, hseat, ha, hxs.slots?, hz.hasRoom, hwithin _ (by decide),
    Edit.allWithin_of_total (by decide) (by rw [hbytes]; decide), hdone,
    Call.bind_of_refused hrefused⟩

/-- So has one that the memory held cannot keep beside another, where a limit leaves room for both but
not for that memory to double. -/
theorem orderDecides_of_tight :
    OrderDecides [320] ⟨64, 64, 192⟩ (0, none) (1, some ⟨[8], 128⟩)
      (.allocation (.limitExceeded 128 256 320)) := by
  have hrun : Yields [320]
      [.create 0 0 { name := "a", type := ⟨.bytes, .narrow⟩ } { initialSlots := 1 },
        .edit 0 (.reserve 1 128), .edit 0 (.push (some ⟨[7], 1⟩))]
      (fun (seat : Seat ⟨.bytes, .narrow⟩) a =>
        seat.column.slots? = some [some [7]] ∧
          (Owned.mk a seat.column).HasRoom ⟨64, 64, 192⟩ ∧
          2 ≤ seat.column.slotCapacity ∧ 128 ≤ seat.column.byteCapacity ∧
          (Edit.doAll (Edit.sets [(1, some ⟨[8], 128⟩), (0, none)]) ⟨a, seat.column⟩).refusal? =
            some (.allocation (.limitExceeded 128 256 320))) = true := by
    decide +kernel
  obtain ⟨w, seat, a, hreach, hseat, ha, hend⟩ :=
    Reachable.of_yields hrun (by simp [Command.Safe, Edit.Safe])
  obtain ⟨hslots, hroom, hslotCapacity, hbyteCapacity, hrefused⟩ := of_decide_eq_true hend
  obtain ⟨v, hrefused⟩ := Outcome.exists_refused hrefused
  obtain ⟨xs, hxs⟩ := hreach.encoded _ 0 seat (Session.seatAt?_eq_some.2 hseat)
  cases hslots.symm.trans hxs.slots?
  have hsecond : Edit.AllWithin 2 128 [none] (Edit.sets [(1, some ⟨[8], 128⟩)]) :=
    Edit.allWithin_of_total (by decide) (by decide)
  have hwithin : Edit.AllWithin 2 128 [some [7]] (Edit.sets [(0, none), (1, some ⟨[8], 128⟩)]) :=
    ⟨⟨by decide, by decide⟩, hsecond⟩
  obtain ⟨d, hdone, -⟩ := Edit.doAll_within (s := ⟨a, seat.column⟩) hxs
    (.inl (.inl (Nat.ne_of_gt (Nat.lt_of_lt_of_le (by decide) hbyteCapacity)))) hslotCapacity
    hbyteCapacity (by decide) hwithin
  exact ⟨w, seat, a, _, _, v, hreach, hseat, ha, hslots, hroom,
    Edit.allWithin_of_total (by decide) (by decide),
    Edit.allWithin_of_total (by decide) (by decide), hdone, hrefused⟩

/-- Room for all that there is on the way does not mean that writes are done in every order: the
values may end past the largest offset in one of them, or a buffer may double in it. -/
theorem not_commute :
    OrderDecides [Size.max] ⟨64, 64, 0x100000000⟩ (0, none) (1, some ⟨[1], 1⟩)
        (.offsetOverflow 0x80000000) ∧
      OrderDecides [320] ⟨64, 64, 192⟩ (0, none) (1, some ⟨[8], 128⟩)
        (.allocation (.limitExceeded 128 256 320)) :=
  ⟨orderDecides_of_large, orderDecides_of_tight⟩

end Workspace

end PackedColumn
