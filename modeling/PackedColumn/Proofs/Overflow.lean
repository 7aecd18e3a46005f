import PackedColumn.Proofs.Refusals

/-!
# Values that end past the largest offset

Whether all values still end at an offset is settled by one number, before any
memory is asked for: the bytes that there are, less those of the slot written
anew, and those of its value (`Column.bytesWith?`). If it is no offset, then
the write is refused and nothing has changed. If it is one, then everything
that the write computes is an offset too (`Column.StaysInOffsets`).

* `Encodes.makeRoom_overflow`, `Encodes.makeRoom_wantsMemory`: the two sides of the check.
* `Encodes.set_overflows`: what follows for a write.
* `Encodes.staysInOffsets`: the one number bounds the end of an appended value and every entry that
  moves.
* `Reachable.reportsOverflow`: all operations that could overflow, on any column that ever arises.
-/

namespace PackedColumn

/-! ## Refusals for want of memory -/

namespace Op

variable {t : ColumnType} {α β : Type} {s : Owned t}

/-- An operation is refused with an offset overflow exactly if there would be more bytes than the
largest offset; the refusal names their number, and nothing has changed. -/
def Overflows (op : Op t α) (s : Owned t) (needed : Int) : Prop :=
  ∀ (m : Nat) (u : Owned t), op s = .refused (.offsetOverflow m) u ↔
    t.width.max < needed ∧ m = needed ∧ u = s

/-- An operation is not refused with an offset overflow. -/
def NeverOverflows (op : Op t α) (s : Owned t) : Prop :=
  ∀ (m : Nat) (u : Owned t), op s ≠ .refused (.offsetOverflow m) u

/-- An operation is refused for want of memory only, if it is refused. -/
def WantsMemory (op : Op t α) (s : Owned t) : Prop :=
  (op s).Sat (fun _ _ => True) (fun e _ => ∃ m, e = .allocation m) True

theorem WantsMemory.neverOverflows {op : Op t α} (h : op.WantsMemory s) :
    op.NeverOverflows s := by
  intro m u hrefused
  rw [WantsMemory, hrefused, Outcome.sat_refused] at h
  obtain ⟨m', hm⟩ := h
  cases hm

theorem wantsMemory_bind {op : Op t α} {next : α → Op t β} (h : op.WantsMemory s)
    (hnext : ∀ a u, (next a).WantsMemory u) : Op.WantsMemory (op >>= next) s :=
  Call.sat_bind.2 (h.mono (fun a u _ => hnext a u) (fun _ _ h => h) id)

theorem wantsMemory_change (f : Column t → Option (Column t)) (s : Owned t) :
    (change f).WantsMemory s := change_unrefused f s

theorem wantsMemory_require (x : Option α) (s : Owned t) :
    WantsMemory (Call.require x : Op t α) s :=
  Call.sat_require.2 ⟨fun _ _ => trivial, fun _ => trivial⟩

theorem wantsMemory_request (part : Column t → Allocator.Request α)
    (place : α → Column t → Column t) (s : Owned t) : (request part place).WantsMemory s :=
  (Column.request_sat (D := fun _ _ => True) (R := fun _ _ => True) (B := True)
    (Outcome.sat_of_forall _ (fun _ _ => trivial) (fun _ _ => trivial) trivial)).mono
    (fun _ _ _ => trivial) (fun _ _ ⟨m, _, _, he, _⟩ => ⟨m, he⟩) id

end Op

namespace Column

variable {t : ColumnType} {c : Column t} {s : Owned t} {xs : Slots} {i length : Nat}

theorem growSlots_wantsMemory (slots : Nat) (s : Owned t) : (growSlots slots).WantsMemory s :=
  Op.wantsMemory_bind (Op.wantsMemory_request ..) fun _ u => Op.wantsMemory_request _ _ u

/-! ## The check -/

/-- The number of value bytes of a column once slot `i` holds `n` of them, as an integer without
bounds. -/
def bytesWith? (c : Column t) (i n : Nat) : Option Int := do
  let total ← c.totalBytes?
  if i < c.count then
    let former ← c.offsets.length? i
    return (total : Int) - former + n
  else
    return (total : Int) + n

namespace Encodes

theorem bytesWith? (h : c.Encodes xs) (i n : Nat) :
    c.bytesWith? i n = some (xs.sizeWith i n : Int) := by
  simp only [Column.bytesWith?, h.totalBytes?, h.count, Option.bind_eq_bind, Option.bind_some]
  split
  · rename_i hi
    have hsucc := Slots.offset_succ hi
    have hle := Slots.offset_le xs (i + 1)
    rw [h.length? (List.getElem?_eq_getElem hi), Slots.sizeWith_of_lt hi]
    simp only [Option.bind_some, Option.pure_def, Option.some.injEq]
    omega
  · rename_i hi
    rw [Slots.sizeWith_of_le (by omega)]
    rfl

/-- No memory is asked for if the values would end past the largest offset. -/
theorem makeRoom_overflow (h : s.column.Encodes xs) (hlength : length ≤ OffsetWidth.wide.max)
    (hmax : t.width.max < xs.sizeWith i length) :
    makeRoom i length s = .refused (.offsetOverflow (xs.sizeWith i length)) s := by
  unfold makeRoom
  rw [Call.bind_of_done (Op.column_apply s), Call.bind_of_done (h.neededBytes_done hlength s),
    if_pos hmax]
  rfl

/-- So is the write. -/
theorem set_refused (h : s.column.Encodes xs) {x : Option Blob} (hx : Blob.Addressable x)
    (hmax : t.width.max < xs.sizeWith i ((x.map Blob.size).getD 0)) :
    set i x s = .refused (.offsetOverflow (xs.sizeWith i ((x.map Blob.size).getD 0))) s :=
  Call.bind_of_refused (h.makeRoom_overflow hx hmax)

/-- If they end at an offset, then nothing but memory can be missing. -/
theorem makeRoom_wantsMemory (h : s.column.Encodes xs)
    (hfits : xs.sizeWith i length ≤ t.width.max) : (makeRoom i length).WantsMemory s := by
  have hslots : ∀ (capacity wish : Nat) (u : Owned t),
      Op.WantsMemory (t := t) (if capacity ≤ i then do
        let slots ← Call.require (Size.add? i 1)
        growSlots (max slots wish)
      else pure ()) u := by
    intro capacity wish u
    split
    · exact Op.wantsMemory_bind (Op.wantsMemory_require _ u) fun _ v => growSlots_wantsMemory _ v
    · trivial
  unfold Op.WantsMemory makeRoom
  rw [Call.bind_of_done (Op.column_apply s),
    Call.bind_of_done (h.neededBytes_done (Slots.addressable_of_sizeWith hfits) s),
    if_neg (Nat.not_lt_of_le hfits)]
  generalize (if s.column.byteCapacity = 0 then max (xs.sizeWith i length) s.column.initialBytes
    else xs.sizeWith i length) = needed
  dsimp only
  split
  · exact Op.wantsMemory_bind (Op.wantsMemory_request _ _ s) fun _ u => hslots _ _ u
  · exact hslots _ _ s

theorem set_wantsMemory (h : s.column.Encodes xs) {x : Option Blob}
    (hfits : xs.sizeWith i ((x.map Blob.size).getD 0) ≤ t.width.max) :
    (set i x).WantsMemory s :=
  Op.wantsMemory_bind (h.makeRoom_wantsMemory hfits) fun _ u => Op.wantsMemory_change _ u

/-- A write is refused with an overflow for the one number alone. -/
theorem set_overflows (h : s.column.Encodes xs) (i : Nat) {b : Blob}
    (hb : Blob.Addressable (some b)) :
    (set i (some b)).Overflows s (xs.sizeWith i b.size) := by
  intro m u
  by_cases hfits : xs.sizeWith i b.size ≤ t.width.max
  · have hnever := (h.set_wantsMemory (x := some b) hfits).neverOverflows m u
    exact ⟨fun hrefused => absurd hrefused hnever, fun ⟨hmax, _⟩ => absurd hmax (by omega)⟩
  · have hrefused : set i (some b) s = .refused (.offsetOverflow (xs.sizeWith i b.size)) s :=
      h.set_refused hb (Nat.lt_of_not_le hfits)
    rw [hrefused]
    constructor
    · intro heq
      cases heq
      exact ⟨by omega, rfl, rfl⟩
    · rintro ⟨-, hm, rfl⟩
      rw [Int.ofNat.inj hm]

/-- Slots that become null take no bytes. -/
theorem makeRoom_zero_wantsMemory (h : s.column.Encodes xs) (i : Nat) :
    (makeRoom i 0).WantsMemory s := h.makeRoom_wantsMemory (Edit.sizeWith_zero_le h i)

theorem set_none_neverOverflows (h : s.column.Encodes xs) (i : Nat) :
    (set i none).NeverOverflows s :=
  (h.set_wantsMemory (x := none) (Edit.sizeWith_zero_le h i)).neverOverflows

theorem padTo_neverOverflows (h : s.column.Encodes xs) (n : Nat) : (padTo n).NeverOverflows s := by
  refine Op.WantsMemory.neverOverflows ?_
  unfold padTo
  split
  · exact Op.wantsMemory_bind (h.makeRoom_zero_wantsMemory _) fun _ u => Op.wantsMemory_change _ u
  · exact Op.wantsMemory_change _ s

end Encodes

theorem setCount_neverOverflows (n : Nat) (s : Owned t) : (setCount n).NeverOverflows s := by
  refine Op.WantsMemory.neverOverflows (Op.wantsMemory_bind (s := s) trivial fun c u => ?_)
  split
  · exact Op.wantsMemory_bind (growSlots_wantsMemory _ u) fun _ v => Op.wantsMemory_change _ v
  · exact Op.wantsMemory_change _ u

/-! ## Slots of another column -/

theorem Encodes.addressable (h : c.Encodes xs) {v : List UInt8} (hv : xs[i]? = some (some v)) :
    Blob.Addressable (some (.ofList v)) := by
  obtain ⟨hi, hx⟩ := List.getElem?_eq_some_iff.1 hv
  have hsucc := Slots.offset_succ hi
  rw [hx, Slots.value_some] at hsucc
  have hle := Slots.offset_le xs (i + 1)
  have hfits := h.fits
  have hmax := t.width.max_le
  show (Blob.ofList v).size ≤ OffsetWidth.wide.max
  rw [Blob.size_ofList]
  omega

/-- Whatever is read of a slot is short enough to be in memory. -/
theorem Encodes.addressable_slot (h : c.Encodes xs) (i : Nat) :
    Blob.Addressable ((xs[i]?).join.map Blob.ofList) := by
  cases hx : (xs[i]?).join with
  | none => exact Nat.zero_le _
  | some v => exact h.addressable (Option.join_eq_some_iff.1 hx)

/-! ## What a write computes -/

/-- Everything that writing the bytes of slot `i` computes is an offset. Where the value lies behind
all others, its end is one, so that it can be stored; where it lies among them, every entry that
moves becomes one, so that none is stored as 0. -/
structure StaysInOffsets (c : Column t) (i : Nat) (x : List UInt8) : Prop where
  appended : ∀ plan v o start, c.extent.planSet? i = some plan →
    blankSlots? c.validity c.offsets plan.fillStart (plan.fillStop - plan.fillStart) = some (v, o) →
    plan.defined = false → o.start? i = some start → start + x.length ≤ t.width.max
  moved : ∀ plan v o start former, c.extent.planSet? i = some plan →
    blankSlots? c.validity c.offsets plan.fillStart (plan.fillStop - plan.fillStart) = some (v, o) →
    plan.defined = true → o.start? i = some start → o.stop? i = some former →
    ∀ j e, i < j → j ≤ c.extent.count → o.start? j = some e →
      t.width.Holds (e + ((start + x.length : Nat) - former : Int))

/-- The bytes of all slots bound what a write computes. -/
theorem Encodes.staysInOffsets (h : c.Encodes xs) {x : Option (List UInt8)}
    (hi : i < c.slotCapacity) (hfits : (xs.put i x).bytes.length ≤ t.width.max) :
    c.StaysInOffsets i (Slots.value x) := by
  -- Both parts start from the slots before the written one, null ones included.
  have hstage : ∀ plan v o, c.extent.planSet? i = some plan →
      blankSlots? c.validity c.offsets plan.fillStart (plan.fillStop - plan.fillStart) =
        some (v, o) → plan.defined = decide (i < xs.length) ∧ o.Delimits (xs.padTo i) := by
    intro plan v o hplan hfill
    obtain ⟨first, hfirst, -, rfl⟩ := Extent.planSet?_eq_some_iff.1 hplan
    cases h.nextFree?.symm.trans hfirst
    obtain ⟨v', o', hfill', -, hd, -⟩ := h.exists_fill (Nat.le_of_lt hi)
    cases hfill.symm.trans hfill'
    have hcount : c.extent.count = xs.length := h.count
    exact ⟨by rw [hcount], hd⟩
  refine ⟨fun plan v o start hplan hfill hdefined hstart => ?_,
    fun plan v o start former hplan hfill hdefined hstart hformer j e hij hj hentry => ?_⟩
  · obtain ⟨hlt, hd⟩ := hstage plan v o hplan hfill
    rw [hdefined, eq_comm, decide_eq_false_iff_not] at hlt
    have hl : (xs.padTo i).length = i := by rw [Slots.length_padTo]; omega
    have htotal := hd.total?
    rw [hl, hstart, Option.some.injEq, Slots.bytes_padTo] at htotal
    rw [Slots.length_bytes_put, Slots.sizeWith_of_le (by omega)] at hfits
    omega
  · obtain ⟨hlt, hd⟩ := hstage plan v o hplan hfill
    rw [hdefined, eq_comm, decide_eq_true_iff] at hlt
    rw [Slots.padTo_of_le (Nat.le_of_lt hlt)] at hd
    have hcount : c.extent.count = xs.length := h.count
    rw [hcount] at hj
    rw [Slots.put_of_lt hlt] at hfits
    have hsucc := Slots.offset_succ hlt
    have hle := Slots.offset_le (xs.set i x) j
    cases hstart.symm.trans (hd.start? (Nat.le_of_lt hlt))
    cases hformer.symm.trans (hd.start? hlt)
    cases hentry.symm.trans (hd.start? hj)
    have hmoved : (xs.offset j : Int) +
        ((xs.offset i + (Slots.value x).length : Nat) - (xs.offset (i + 1) : Nat) : Int) =
          Slots.offset (xs.set i x) j := by
      rw [Slots.offset_set_eq hlt hij]
      omega
    rw [hmoved]
    exact OffsetWidth.holds_natCast (by omega)

end Column

/-! ## Columns of a workspace -/

namespace Workspace

open Column

variable {t : ColumnType} {w : Workspace} {limits : List Nat} {place : Nat} {seat : Seat t}

/-- On a column of a workspace, under any allocator, values that would end past the largest offset
are reported, and nothing else is, before anything has changed; and once room is made for a value,
writing it keeps to the offsets. -/
structure ReportsOverflow (w : Workspace) (c : Column t) (a : Allocator) : Prop where
  set : ∀ (i : Nat) (b : Blob), Blob.Addressable (some b) →
    ∃ needed, c.bytesWith? i b.size = some needed ∧ (Column.set i (some b)).Overflows ⟨a, c⟩ needed
  push : ∀ b : Blob, Blob.Addressable (some b) →
    ∃ needed, c.bytesWith? c.count b.size = some needed ∧
      (Column.push (some b)).Overflows ⟨a, c⟩ needed
  copySlot : ∀ (source : Nat) (giver : Seat t), (w.places t)[source]? = some (some giver) →
    ∀ (i j : Nat) (v : List UInt8), giver.column.get i = some (.ok (some v)) →
      ∃ needed, c.bytesWith? j v.length = some needed ∧
        (giver.column.copySlot i j).Overflows ⟨a, c⟩ needed
  copySlot_null : ∀ (source : Nat) (giver : Seat t), (w.places t)[source]? = some (some giver) →
    ∀ i j : Nat, (∀ v, giver.column.get i ≠ some (.ok (some v))) →
      (giver.column.copySlot i j).NeverOverflows ⟨a, c⟩
  set_null : ∀ i : Nat, (Column.set i none).NeverOverflows ⟨a, c⟩
  push_null : (Column.push none).NeverOverflows ⟨a, c⟩
  setCount : ∀ n : Nat, (Column.setCount n).NeverOverflows ⟨a, c⟩
  padTo : ∀ n : Nat, (Column.padTo n).NeverOverflows ⟨a, c⟩
  write : ∀ (i : Nat) (x : Option Blob) (u : Owned t),
    makeRoom i ((x.map Blob.size).getD 0) ⟨a, c⟩ = .done () u →
      (∃ d, u.column.put? i (x.map Blob.toList) = some d) ∧
        u.column.StaysInOffsets i (Slots.value (x.map Blob.toList))

theorem reportsOverflow_of_encodes {c : Column t} {xs : Slots} (h : w.Encoded) (hc : c.Encodes xs)
    (a : Allocator) : w.ReportsOverflow c a where
  set := fun i b hb => ⟨_, hc.bytesWith? i b.size, Encodes.set_overflows (s := ⟨a, c⟩) hc i hb⟩
  push := fun b hb =>
    ⟨_, hc.bytesWith? c.count b.size, Encodes.set_overflows (s := ⟨a, c⟩) hc c.count hb⟩
  copySlot := fun source giver hgiver i j v hv => by
    obtain ⟨zs, hzs⟩ := h t source giver (Session.seatAt?_eq_some.2 hgiver)
    obtain ⟨hi, hx⟩ := hzs.shows.getElem?_of_get hv
    have haddressable : Blob.Addressable (some (.ofList v)) := hzs.addressable hx
    rw [hzs.shows.copySlot_of_lt hi, hx]
    have hset := Encodes.set_overflows (s := ⟨a, c⟩) hc j haddressable
    rw [Blob.size_ofList] at hset
    exact ⟨_, hc.bytesWith? j v.length, hset⟩
  copySlot_null := fun source giver hgiver i j hnull => by
    obtain ⟨zs, hzs⟩ := h t source giver (Session.seatAt?_eq_some.2 hgiver)
    rcases Nat.lt_or_ge i zs.length with hi | hi
    · have hx := List.getElem?_eq_getElem hi
      have hget := hzs.shows.2 i _ hx
      cases hslot : zs[i] with
      | none =>
        rw [hzs.shows.copySlot_of_lt hi, hx, hslot]
        exact Encodes.set_none_neverOverflows (s := ⟨a, c⟩) hc j
      | some v =>
        rw [hslot] at hget
        exact absurd hget (hnull v)
    · intro m u hrefused
      rw [hzs.shows.copySlot_of_le hi] at hrefused
      cases hrefused
  set_null := Encodes.set_none_neverOverflows (s := ⟨a, c⟩) hc
  push_null := Encodes.set_none_neverOverflows (s := ⟨a, c⟩) hc c.count
  setCount := fun n => setCount_neverOverflows n _
  padTo := Encodes.padTo_neverOverflows (s := ⟨a, c⟩) hc
  write := fun i x u hroom => by
    obtain ⟨hgrown, hi, hcap, hmax⟩ :=
      (Encodes.makeRoom_sat (s := ⟨a, c⟩) hc i ((x.map Blob.size).getD 0)).of_done hroom
    have hu := hc.growsTo hgrown.column
    rw [← Slots.length_value_map, ← Slots.length_bytes_put] at hcap hmax
    obtain ⟨d, hd, -⟩ := hu.exists_put? _ hi hcap hmax
    exact ⟨⟨d, hd⟩, hu.staysInOffsets hi hmax⟩

/-- In every reachable workspace, whatever its history and whatever its allocators would answer,
an overflow of the offsets is reported for exactly the values that cause one, and it is neither
reported nor met by anything else. -/
theorem Reachable.reportsOverflow (h : Reachable limits w)
    (hseat : (w.places t)[place]? = some (some seat)) (a : Allocator) :
    w.ReportsOverflow seat.column a := by
  obtain ⟨xs, hxs⟩ := h.encoded t place seat (Session.seatAt?_eq_some.2 hseat)
  exact reportsOverflow_of_encodes h.encoded hxs a

/-- A slot behind the one taken for the last written, for whose value two bytes are left too few. -/
theorem reportsOverflow_of_lowered : ∃ (w : Workspace) (seat : Seat ⟨.bytes, .narrow⟩)
    (a : Allocator), Reachable [512] w ∧ (w.places ⟨.bytes, .narrow⟩)[0]? = some (some seat) ∧
      w.allocators[0]? = some a ∧ seat.column.slots? = some [some [1, 2], none, none, none] ∧
      w.ReportsOverflow seat.column a ∧
      Column.set 1 (some ⟨[0], 0x7fffffff⟩) ⟨a, seat.column⟩ =
        .refused (.offsetOverflow 0x80000001) ⟨a, seat.column⟩ := by
  have hrun : Yields [512]
      [.create 0 0 { name := "a", type := ⟨.bytes, .narrow⟩ } { initialSlots := 1 },
        .edit 0 (.push (some ⟨[1, 2], 1⟩)), .edit 0 (.set 3 (some ⟨[7], 5⟩)),
        .edit 0 (.setLast (some 0))]
      (fun (seat : Seat ⟨.bytes, .narrow⟩) _ => seat.home = 0 ∧
        seat.column.slots? = some [some [1, 2], none, none, none] ∧
          seat.column.bytesWith? 1 0x7fffffff = some 0x80000001) = true := by
    decide +kernel
  obtain ⟨w, seat, a, hreach, hseat, ha, hend⟩ :=
    Reachable.of_yields hrun (by simp [Command.Safe, Edit.Safe])
  obtain ⟨hhome, hslots, hneeded⟩ := of_decide_eq_true hend
  have hreports := hreach.reportsOverflow hseat a
  have hsize : (Blob.mk [0] 0x7fffffff).size = 0x7fffffff := rfl
  have haddressable : Blob.Addressable (some ⟨[0], 0x7fffffff⟩) :=
    show (Blob.mk [0] 0x7fffffff).size ≤ OffsetWidth.wide.max by decide
  obtain ⟨needed, hcounted, hoverflows⟩ := hreports.set 1 ⟨[0], 0x7fffffff⟩ haddressable
  rw [hsize] at hcounted
  cases hneeded.symm.trans hcounted
  exact ⟨w, seat, a, hreach, hseat, hhome ▸ ha, hslots, hreports,
    (hoverflows _ _).2 ⟨by decide, rfl, rfl⟩⟩

end Workspace

end PackedColumn
