import PackedColumn.Proofs.Shortages

/-!
# Arguments at the ends of their ranges

An operation that reports its failures has an answer for every size that it may
be given, the largest ones included: it is done, or it names what is out of
range, or it is refused memory (`Edit.Ends`, `Column.Reads`, `Column.CopiesTo`).
No size computed on the way leaves the range of sizes (`Column.Computes`). One
slot number is an exception: the slot after the last one that is a size is
computed without a check, so writing slot `Size.max` breaks the contract as
soon as there is room for its value (`Column.SetsLast`).

* `Edit.ends`: edits, with `Edit.run_unfit` for those that name an error of their own.
* `Encodes.makeRoom_last`, `Encodes.setsLast`: the exception.
* `Reachable.answers`: all operations on any column that ever arises.
* `set_last_breaches`: that the exception can be met.
-/

namespace PackedColumn

/-! ## Edits -/

namespace Edit

variable {t : ColumnType} {s : Owned t} {xs : Slots} {e : Edit}

/-- The error that an edit which does not fit is refused with: a slot that is not there, or values
that do not end at an offset. -/
def Complains (c : Column t) (err : ColumnError) : Edit → Prop
  | setLast last => ∃ i ∈ last, err = .indexOutOfBounds i c.count
  | _ => ∃ n, t.width.max < n ∧ err = .offsetOverflow n

/-- How an edit that is done entirely or not at all ends. -/
structure Ends (e : Edit) (s : Owned t) (xs : Slots) : Prop where
  done : e.Fits t.width xs → s.HasRoom (e.sizes s.column xs) →
    ∃ u, e.run s = .done () u ∧ u.column.Shows (e.onSlots xs)
  short : e.Fits t.width xs → ¬ s.HasRoom (e.sizes s.column xs) →
    ∃ m u, e.run s = .refused (.allocation m) u ∧ s.column.LooksLike u.column
  unfit : ¬ e.Fits t.width xs → ∃ err, e.run s = .refused err s ∧ e.Complains s.column err

/-- An edit that does not fit changes nothing. -/
theorem run_unfit (h : s.column.Encodes xs) (hatomic : e.Atomic) (hsized : e.Sized)
    (hfits : ¬ e.Fits t.width xs) : ∃ err, e.run s = .refused err s ∧ e.Complains s.column err := by
  have hset : ∀ i x, Blob.Addressable x → ¬ xs.sizeWith i ((x.map Blob.size).getD 0) ≤ t.width.max →
      ∃ err, Column.set i x s = .refused err s ∧ ∃ n, t.width.max < n ∧ err = .offsetOverflow n :=
    fun i x hx hmax => ⟨_, Call.bind_of_refused (h.makeRoom_overflow hx (Nat.lt_of_not_le hmax)), _,
      Nat.lt_of_not_le hmax, rfl⟩
  cases e with
  | set i x => exact hset i x hsized.2 hfits
  | setText i text => exact hset i (some (.ofText text)) hsized.2 hfits
  | push x =>
    rw [run, Column.push, h.count]
    exact hset _ x hsized hfits
  | pushText text =>
    rw [run, Column.pushText, Column.push, h.count]
    exact hset _ _ hsized hfits
  | setLast last =>
    cases last with
    | none => exact (hfits fun l hl => absurd hl (Option.not_mem_none l)).elim
    | some i =>
      have hi : s.column.count ≤ i := by
        rw [h.count]
        refine Nat.le_of_not_lt fun hlt => hfits fun l hl => ?_
        cases hl
        exact hlt
      refine ⟨_, ?_, i, rfl, rfl⟩
      rw [run, Column.setLast, Call.bind_of_done (Op.column_apply s)]
      simp only [if_pos hi]
      rfl
  | setCount | padTo | reserve => exact absurd trivial hfits
  | _ => exact hatomic.elim

theorem ends (h : s.column.Encodes xs) (hs : s.Solvent) (hatomic : e.Atomic) (hsized : e.Sized) :
    e.Ends s xs where
  done := fun hfits hroom => by
    obtain ⟨u, hdone, hu, -⟩ := run_done h hatomic hfits hroom
    exact ⟨u, hdone, hu.shows⟩
  short := fun hfits hshort => by
    obtain ⟨m, u, hrefused, hu⟩ := run_short h hs hatomic hsized hfits hshort
    exact ⟨m, u, hrefused, hu.column.looksLike h⟩
  unfit := run_unfit h hatomic hsized

end Edit

/-! ## The last slot number -/

namespace Column

variable {t : ColumnType} {c : Column t} {s : Owned t} {xs : Slots} {length : Nat}

/-- How writing slot `Size.max` ends. Room for its value is made first, so the contract is broken only
once there is some. -/
structure SetsLast (s : Owned t) (x : Option Blob) (needed : Nat) : Prop where
  breach_iff : set Size.max x s = .breach ↔
    needed ≤ t.width.max ∧ s.HasRoom (s.column.valueSizes needed)
  overflow : t.width.max < needed → set Size.max x s = .refused (.offsetOverflow needed) s
  short : needed ≤ t.width.max → ¬ s.HasRoom (s.column.valueSizes needed) →
    ∃ m, set Size.max x s = .refused (.allocation m) s

namespace Encodes

/-- The slot after the last one is no size. -/
theorem makeRoom_last (h : s.column.Encodes xs)
    (hfits : xs.sizeWith Size.max length ≤ t.width.max)
    (hroom : s.HasRoom (s.column.valueSizes (xs.sizeWith Size.max length))) :
    makeRoom Size.max length s = .breach := by
  have hcapacity : s.column.slotCapacity ≤ Size.max := Nat.le_of_lt s.column.slotCapacity_lt
  have hadd : Size.add? Size.max 1 = none := Size.add?_eq_none_iff.2 (Nat.lt_succ_self _)
  unfold makeRoom
  rw [Call.bind_of_done (Op.column_apply s),
    Call.bind_of_done (h.neededBytes_done (Slots.addressable_of_sizeWith hfits) s),
    if_neg (Nat.not_lt_of_le hfits)]
  obtain ⟨u, -, hrest⟩ := growValues_before_done hroom
  refine (hrest _).trans ?_
  rw [if_pos hcapacity, hadd]
  rfl

theorem setsLast (h : s.column.Encodes xs) (hs : s.Solvent) {x : Option Blob}
    (hx : Blob.Addressable x) : SetsLast s x (xs.sizeWith Size.max ((x.map Blob.size).getD 0)) := by
  generalize hneeded : xs.sizeWith Size.max ((x.map Blob.size).getD 0) = needed
  have hoverflow : t.width.max < needed →
      set Size.max x s = .refused (.offsetOverflow needed) s := fun hmax => by
    subst hneeded
    exact Call.bind_of_refused (h.makeRoom_overflow hx hmax)
  have hshort : needed ≤ t.width.max → ¬ s.HasRoom (s.column.valueSizes needed) →
      ∃ m, set Size.max x s = .refused (.allocation m) s := fun hfits hroom => by
    subst hneeded
    obtain ⟨m, hm⟩ := h.makeRoom_short hs hfits hroom
    exact ⟨m, Call.bind_of_refused hm⟩
  refine ⟨⟨fun hbreach => ?_, fun ⟨hfits, hroom⟩ => ?_⟩, hoverflow, hshort⟩
  · have hfits : needed ≤ t.width.max := Nat.le_of_not_lt fun hmax => by
      rw [hoverflow hmax] at hbreach
      cases hbreach
    refine ⟨hfits, Decidable.byContradiction fun hroom => ?_⟩
    obtain ⟨m, hm⟩ := hshort hfits hroom
    rw [hm] at hbreach
    cases hbreach
  · subst hneeded
    rw [set, Call.bind_apply, h.makeRoom_last hfits hroom]
    rfl

end Encodes

/-! ## Readers and copies -/

/-- What the checked readers say of slot `i` of a column with the given slots. -/
structure Reads (c : Column t) (xs : Slots) (i : Nat) : Prop where
  inside : ∀ x, xs[i]? = some x → c.get i = some (.ok x) ∧
    c.length i = some (.ok (Slots.value x).length) ∧
    c.startOffset i = some (.ok (xs.offset i)) ∧ c.stopOffset i = some (.ok (xs.offset (i + 1)))
  outside : c.count ≤ i → c.get i = some (.error (.indexOutOfBounds i c.count)) ∧
    c.length i = some (.error (.indexOutOfBounds i c.count)) ∧
    c.startOffset i = some (.error (.indexOutOfBounds i c.count)) ∧
    c.stopOffset i = some (.error (.indexOutOfBounds i c.count))

theorem Encodes.reads (h : c.Encodes xs) (i : Nat) : c.Reads xs i where
  inside := fun x hx => by
    have hi := (List.getElem?_eq_some_iff.1 hx).1
    have hcount : i < c.count := by rw [h.count]; exact hi
    have hstop : c.offsets.stop? i = some (xs.offset (i + 1)) := h.start? hi
    refine ⟨h.get hx, ?_, ?_, ?_⟩
    · rw [Column.length, atSlot_of_lt hcount, h.length? hx]
      rfl
    · rw [startOffset, atSlot_of_lt hcount, h.start? (Nat.le_of_lt hi)]
      rfl
    · rw [stopOffset, atSlot_of_lt hcount, hstop]
      rfl
  outside := fun hi => ⟨atSlot_of_le hi _, atSlot_of_le hi _, atSlot_of_le hi _, atSlot_of_le hi _⟩

/-- How copying a range of a source with the given slots ends: it is reported if it is not there, and
whatever is refused changes nothing. -/
structure CopiesTo (source : Column t) (zs : Slots) (s : Owned t) (start length : Nat) : Prop where
  outside : source.count < start + length →
    copyRange source start length s = .refused (.outOfRange start length source.count) s
  inside : start + length ≤ source.count →
    (∃ u, copyRange source start length s = .done () u ∧ u.column.Shows (zs.slice start length)) ∨
      ∃ m, copyRange source start length s = .refused (.allocation m) s

theorem Encodes.copiesTo (h : c.Encodes xs) {k : Nat} (hs : s.allocator.Accounts k)
    (start length : Nat) : CopiesTo c xs s start length where
  outside := fun hrange => copyRange_of_lt hrange s
  inside := fun hrange => by
    rcases Nat.eq_zero_or_pos length with rfl | hpos
    · exact .inl ⟨_, copyRange_zero hrange s, (encodes_clear s).shows⟩
    have hcopy := h.copyRange_sat hpos (h.count ▸ hrange) s
    cases hr : copyRange c start length s with
    | done _ u =>
      rw [hr] at hcopy
      exact .inl ⟨u, rfl, hcopy.2.1.shows⟩
    | refused e u =>
      rw [hr] at hcopy
      obtain ⟨⟨m, rfl⟩, -, -, hsame⟩ := hcopy
      exact .inr ⟨m, by rw [hsame k hs]⟩
    | breach =>
      rw [hr] at hcopy
      exact hcopy.elim

/-! ## Sizes on the way -/

/-- The sizes that the operations on a column compute are sizes, or are refused instead. -/
structure Computes (c : Column t) : Prop where
  doubledSlots : 2 * c.slotCapacity ≤ Size.max
  doubledBytes : 2 * c.byteCapacity ≤ Size.max
  bits : c.validity.bitCapacity ≤ Size.max
  next : c.extent.next ≤ Size.max
  entries : ∀ (slots committed : Nat) (a : Allocator), Size.max < (slots + 1) * t.width.bytes →
    c.offsets.reserve slots committed a = .refused .tooLarge a
  flags : ∀ slots ≤ Size.max, Bits.byteCount slots ≤ Allocator.maxRequest
  rounded : ∀ n ≤ Allocator.maxRequest, Size.roundUp n ≤ Size.max
  request : ∀ (b : Block) (n : Nat) (granted : Bool) (a : Allocator), Allocator.maxRequest < n →
    (Allocator.allocate n granted : Call MemoryRefusal Allocator Block) a =
        .refused .tooLarge a ∧
      Allocator.reallocate b n granted a = .refused .tooLarge a

theorem Encodes.computes (h : c.Encodes xs) : c.Computes where
  doubledSlots := by
    have hsize := c.validity.block.size_lt_bound
    simp only [slotCapacity, Validity.bitCapacity, Block.bound, Size.max] at *
    omega
  doubledBytes := by
    have hsize : c.byteCapacity < Block.bound := c.values.block.size_lt_bound
    simp only [Block.bound, Size.max] at *
    omega
  bits := by
    have hsize := c.validity.block.size_lt_bound
    simp only [Validity.bitCapacity, Block.bound, Size.max] at *
    omega
  next := Nat.le_trans h.extent.next_le (Nat.le_of_lt h.count_lt_max)
  entries := fun slots committed a hmax => by
    have hheld : ¬ (slots ≤ c.offsets.slotCapacity ∧ c.offsets.block.size ≠ 0) := by
      rintro ⟨hslots, hne⟩
      have hle := (OffsetTable.le_slotCapacity_iff (Nat.pos_of_ne_zero hne)).1 hslots
      have hsize := c.offsets.block.size_lt_bound
      simp only [Block.bound, Size.max] at *
      omega
    rw [OffsetTable.reserve_eq, if_neg hheld, if_pos hmax]
    rfl
  flags := fun slots hslots => by
    unfold Bits.byteCount Allocator.maxRequest Size.max at *
    split <;> omega
  rounded := fun n hn => by
    have hround := Size.roundUp_lt n
    unfold Allocator.maxRequest Size.max at *
    omega
  request := fun b n granted a hn => by
    rw [Allocator.allocate, Allocator.reallocate, if_pos hn, if_pos hn]
    exact ⟨rfl, rfl⟩

end Column

/-! ## Columns of a workspace -/

namespace Workspace

open Column

variable {t : ColumnType} {w : Workspace} {limits : List Nat} {place : Nat} {seat : Seat t}

/-- What the operations on a column of a workspace that report their failures answer, for all
arguments that are sizes and values that could be in memory at all. -/
structure Answers (w : Workspace) (c : Column t) (a : Allocator) (xs : Slots) : Prop where
  edit : ∀ e : Edit, e.Atomic → e.Sized → e.Ends ⟨a, c⟩ xs
  /-- The one slot number that an edit of that kind leaves out. -/
  setsLast : ∀ x, Blob.Addressable x →
    SetsLast ⟨a, c⟩ x (xs.sizeWith Size.max ((x.map Blob.size).getD 0))
  /-- Copying a slot is such an edit. -/
  copySlot : ∀ (source : Nat) (giver : Seat t), (w.places t)[source]? = some (some giver) →
    ∀ i j : Nat, i < giver.column.count → ∃ x, giver.column.get i = some (.ok x) ∧
      Blob.Addressable (x.map Blob.ofList) ∧
      giver.column.copySlot i j = (Edit.set j (x.map Blob.ofList)).run
  copySlot_outside : ∀ (source : Nat) (giver : Seat t),
    (w.places t)[source]? = some (some giver) → ∀ i j : Nat, giver.column.count ≤ i →
      giver.column.copySlot i j ⟨a, c⟩ =
        .refused (.indexOutOfBounds i giver.column.count) ⟨a, c⟩
  copyRange : ∀ (source : Nat) (giver : Seat t), (w.places t)[source]? = some (some giver) →
    ∃ zs, giver.column.slots? = some zs ∧
      ∀ start length : Nat, CopiesTo giver.column zs ⟨a, c⟩ start length
  reads : ∀ i : Nat, c.Reads xs i
  computes : c.Computes

/-- In every reachable workspace, the operations on a column have an answer for arguments next to the
largest size as for any other: none breaks its contract, but for a write to slot `Size.max`. -/
theorem Reachable.answers (h : Reachable limits w) (hlimits : ∀ l ∈ limits, l ≤ Size.max)
    (hseat : (w.places t)[place]? = some (some seat)) {a : Allocator}
    (ha : w.allocators[seat.home]? = some a) :
    ∃ xs, seat.column.slots? = some xs ∧ w.Answers seat.column a xs := by
  obtain ⟨xs, hxs⟩ := h.encoded t place seat (Session.seatAt?_eq_some.2 hseat)
  have hsolvent := h.solvent hlimits ha seat.column
  have haccounts := (h.balanced hlimits).held seat.home a ha
  refine ⟨xs, hxs.slots?, fun e => Edit.ends (s := ⟨a, seat.column⟩) hxs hsolvent,
    fun x => Encodes.setsLast (s := ⟨a, seat.column⟩) hxs hsolvent,
    fun source giver hgiver i j hi => ?_, fun source giver hgiver i j hi => ?_,
    fun source giver hgiver => ?_, hxs.reads, hxs.computes⟩ <;>
    obtain ⟨zs, hzs⟩ := h.encoded t source giver (Session.seatAt?_eq_some.2 hgiver)
  · rw [hzs.count] at hi
    have hx := List.getElem?_eq_getElem hi
    have haddressable := hzs.addressable_slot i
    rw [hx] at haddressable
    exact ⟨zs[i], hzs.get hx, haddressable, copySlot_of_get (hzs.get hx) j⟩
  · exact hzs.shows.copySlot_of_le (hzs.count ▸ hi) j _
  · exact ⟨zs, hzs.slots?, fun start length => hzs.copiesTo haccounts start length⟩

/-- The number of slots is to be the largest size, which no table has. -/
theorem answers_of_counted : ∃ (w : Workspace) (seat : Seat ⟨.bytes, .narrow⟩) (a : Allocator)
    (m : MemoryRefusal) (u : Owned ⟨.bytes, .narrow⟩),
    Reachable [Size.max] w ∧ (w.places ⟨.bytes, .narrow⟩)[0]? = some (some seat) ∧
      w.allocators[seat.home]? = some a ∧ w.Answers seat.column a [some [1]] ∧
      (Edit.setCount Size.max).run ⟨a, seat.column⟩ = .refused (.allocation m) u ∧
      seat.column.LooksLike u.column ∧
      (Edit.setLast (some Size.max)).run ⟨a, seat.column⟩ =
        .refused (.indexOutOfBounds Size.max 1) ⟨a, seat.column⟩ := by
  have hrun : Yields [Size.max]
      [.create 0 0 { name := "a", type := ⟨.bytes, .narrow⟩ } { initialSlots := 1 },
        .edit 0 (.push (some ⟨[1], 1⟩))]
      (fun (seat : Seat ⟨.bytes, .narrow⟩) a => seat.column.slots? = some [some [1]] ∧
        seat.column.count = 1 ∧ ¬ (Owned.mk a seat.column).HasRoom
          ((Edit.setCount Size.max).sizes seat.column [some [1]])) = true := by
    decide +kernel
  obtain ⟨w, seat, a, hreach, hseat, ha, hend⟩ :=
    Reachable.of_yields hrun (by simp [Command.Safe, Edit.Safe])
  obtain ⟨hslots, hcount, hshort⟩ := of_decide_eq_true hend
  obtain ⟨xs, hxs, hanswers⟩ := hreach.answers (by decide) hseat ha
  cases hslots.symm.trans hxs
  have hlast : ¬ (Edit.setLast (some Size.max)).Fits OffsetWidth.narrow [some [1]] := fun hfits =>
    absurd (hfits Size.max rfl) (by decide)
  obtain ⟨m, u, hrefused, hlooks⟩ :=
    (hanswers.edit (.setCount Size.max) trivial trivial).short trivial hshort
  obtain ⟨err, houtside, i, hi, herr⟩ :=
    (hanswers.edit (.setLast (some Size.max)) trivial trivial).unfit hlast
  cases hi
  rw [herr, hcount] at houtside
  exact ⟨w, seat, a, m, u, hreach, hseat, ha, hanswers, hrefused, hlooks, houtside⟩

/-- A null slot is written to the last slot number, where room for values is there already. -/
theorem set_last_breaches : ∃ (w : Workspace) (seat : Seat ⟨.bytes, .narrow⟩) (a : Allocator),
    Reachable [Size.max] w ∧ (w.places ⟨.bytes, .narrow⟩)[0]? = some (some seat) ∧
      w.allocators[seat.home]? = some a ∧ seat.column.slots? = some [] ∧
      (Edit.set Size.max none).run ⟨a, seat.column⟩ = .breach := by
  have hrun : Yields [Size.max]
      [.create 0 0 { name := "a", type := ⟨.bytes, .narrow⟩ } {}, .edit 0 (.reserve 1 64)]
      (fun (seat : Seat ⟨.bytes, .narrow⟩) a => seat.column.slots? = some [] ∧
        (Edit.set Size.max none).run ⟨a, seat.column⟩ = .breach) = true := by
    decide +kernel
  obtain ⟨w, seat, a, hreach, hseat, ha, hend⟩ :=
    Reachable.of_yields hrun (by simp [Command.Safe, Edit.Safe])
  exact ⟨w, seat, a, hreach, hseat, ha, of_decide_eq_true hend⟩

end Workspace

end PackedColumn
