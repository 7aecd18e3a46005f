import PackedColumn.Proofs.Shortages

/-!
# What refused edits leave behind

An edit that is refused for want of memory does not give back what it had been
granted by then. The column looks as before (`Column.LooksLike`), but its
buffers have the last sizes on the way to those asked for that there was room
for, and the account pays for them (`Owned.Keeps`).

* `Takes.keeps`: what follows from the sizes taken, and when nothing is kept.
* `Reachable.refused_keeps`: what an edit that is refused keeps of any column that ever arises.
* `not_refused_unchanged`: that this may be more than the column held before.
-/

namespace PackedColumn

namespace Owned

variable {t : ColumnType} {s u : Owned t} {zs : List Sizes} {xs : Slots}

/-- What a refusal leaves of a column whose buffers were to take several sizes in turn. -/
structure Keeps (s u : Owned t) (zs : List Sizes) : Prop where
  /-- Some of the sizes are out of reach. -/
  short : ∃ z ∈ zs, ¬ s.HasRoom z
  looksLike : s.column.LooksLike u.column
  /-- The buffers have the last sizes before those. -/
  sizes : u.column.sizes = s.kept s.column.sizes zs
  /-- The account is charged for what they grew by. -/
  allocated : u.allocator.allocated + s.column.footprint =
    s.allocator.allocated + u.column.footprint
  limit : u.allocator.limit = s.allocator.limit
  /-- Nothing is kept exactly if these are the sizes that they had. -/
  unchanged_iff : u.column.slotCapacity = s.column.slotCapacity ∧
    u.column.byteCapacity = s.column.byteCapacity ∧
    u.allocator.allocated = s.allocator.allocated ↔ s.kept s.column.sizes zs = s.column.sizes

theorem Takes.keeps (h : s.Takes u (s.kept s.column.sizes zs)) (hxs : s.column.Encodes xs)
    (hshort : ∃ z ∈ zs, ¬ s.HasRoom z) : s.Keeps u zs where
  short := hshort
  looksLike := h.column.looksLike hxs
  sizes := h.sizes
  allocated := h.allocated
  limit := h.limit
  unchanged_iff := by
    have hallocated := h.allocated
    have hflags := h.column.flags.size_le
    have hentries := h.column.table_le
    have hvalues := h.column.values.size_le
    rw [← h.sizes]
    simp only [Sizes.ext_iff, Column.sizes, Column.slotCapacity, Column.byteCapacity,
      Column.footprint, Validity.bitCapacity, OffsetTable.slotCapacity,
      ValueStore.capacity] at hallocated ⊢
    constructor
    · rintro ⟨-, -, hsame⟩
      omega
    · rintro ⟨hf, he, hv⟩
      rw [hf, he, hv]
      exact ⟨rfl, rfl, by omega⟩

end Owned

namespace Workspace

variable {t : ColumnType} {w : Workspace} {limits : List Nat} {place : Nat} {seat : Seat t}

/-- In every reachable workspace, an edit that is refused for want of memory leaves a column that
looks as before, in buffers of the last sizes on the way to those asked for that there was room for.
The account is charged for them, and nothing is kept exactly if they are what the column held. -/
theorem Reachable.refused_keeps (h : Reachable limits w) (hlimits : ∀ l ∈ limits, l ≤ Size.max)
    (hseat : (w.places t)[place]? = some (some seat)) {a : Allocator}
    (ha : w.allocators[seat.home]? = some a) {e : Edit} (he : e.Atomic) {m : MemoryRefusal}
    {u : Owned t} (hrefused : e.run ⟨a, seat.column⟩ = .refused (.allocation m) u) :
    ∃ xs, seat.column.slots? = some xs ∧
      Owned.Keeps ⟨a, seat.column⟩ u (e.stages seat.column xs) := by
  obtain ⟨xs, hxs⟩ := h.encoded t place seat (Session.seatAt?_eq_some.2 hseat)
  have hsolvent := h.solvent hlimits ha seat.column
  have hfits := Edit.run_fits (s := ⟨a, seat.column⟩) hxs he
  rw [hrefused, Outcome.sat_refused] at hfits
  have hasks := Edit.run_asks (s := ⟨a, seat.column⟩) hxs hsolvent he (hfits m rfl)
  rw [Op.RefusedAmong, hrefused, Outcome.sat_refused] at hasks
  obtain ⟨-, hshort, htakes⟩ := hasks
  exact ⟨xs, hxs.slots?, htakes.keeps hxs hshort⟩

/-- A column on an account that has room for the offsets of 600 slots, but not for their flags, nor
for larger values as well. -/
theorem exists_halfRoom : ∃ (w : Workspace) (seat : Seat ⟨.bytes, .narrow⟩) (a : Allocator),
    Reachable [2600] w ∧ (w.places ⟨.bytes, .narrow⟩)[0]? = some (some seat) ∧
      w.allocators[seat.home]? = some a ∧ a.allocated = 192 ∧
      seat.column.slots? = some [some [1]] ∧ seat.column.sizes = ⟨64, 64, 64⟩ ∧
      ∀ p ∈ [(Edit.setCount 600, Sizes.mk 64 2432 64), (.set 600 (some ⟨[7], 65⟩), ⟨64, 64, 128⟩)],
        ¬ (Owned.mk a seat.column).HasRoom (p.1.sizes seat.column [some [1]]) ∧
          Owned.kept ⟨a, seat.column⟩ seat.column.sizes (p.1.stages seat.column [some [1]]) =
            p.2 := by
  have hrun : Yields [2600]
      [.create 0 0 { name := "a", type := ⟨.bytes, .narrow⟩ } { initialSlots := 1 },
        .edit 0 (.push (some ⟨[1], 1⟩))]
      (fun (seat : Seat ⟨.bytes, .narrow⟩) a => a.allocated = 192 ∧
        seat.column.slots? = some [some [1]] ∧ seat.column.sizes = ⟨64, 64, 64⟩ ∧
        ∀ p ∈ [(Edit.setCount 600, Sizes.mk 64 2432 64),
            (.set 600 (some ⟨[7], 65⟩), ⟨64, 64, 128⟩)],
          ¬ (Owned.mk a seat.column).HasRoom (p.1.sizes seat.column [some [1]]) ∧
            Owned.kept ⟨a, seat.column⟩ seat.column.sizes (p.1.stages seat.column [some [1]]) =
              p.2) = true := by
    decide +kernel
  obtain ⟨w, seat, a, hreach, hseat, ha, hend⟩ :=
    Reachable.of_yields hrun (by simp [Command.Safe, Edit.Safe])
  exact ⟨w, seat, a, hreach, hseat, ha, of_decide_eq_true hend⟩

/-- The offsets that there was room for are kept when the flags are refused. -/
theorem refused_keeps_of_halfRoom : ∃ (w : Workspace) (seat : Seat ⟨.bytes, .narrow⟩)
    (a : Allocator) (m : MemoryRefusal) (u : Owned ⟨.bytes, .narrow⟩),
    Reachable [2600] w ∧ (w.places ⟨.bytes, .narrow⟩)[0]? = some (some seat) ∧
      w.allocators[seat.home]? = some a ∧
      (Edit.setCount 600).run ⟨a, seat.column⟩ = .refused (.allocation m) u ∧
      Owned.Keeps ⟨a, seat.column⟩ u ((Edit.setCount 600).stages seat.column [some [1]]) ∧
      u.column.sizes = ⟨64, 2432, 64⟩ := by
  obtain ⟨w, seat, a, hreach, hseat, ha, -, hslots, -, hall⟩ := exists_halfRoom
  obtain ⟨hshort, hkept⟩ := hall _ List.mem_cons_self
  obtain ⟨xs, hxs⟩ := hreach.encoded _ 0 seat (Session.seatAt?_eq_some.2 hseat)
  cases hslots.symm.trans hxs.slots?
  have hatomic : (Edit.setCount 600).Atomic := trivial
  obtain ⟨m, u, hrefused, -⟩ := Edit.run_short (s := ⟨a, seat.column⟩) hxs
    (hreach.solvent (by decide) ha seat.column) hatomic trivial trivial hshort
  obtain ⟨ys, hys, hkeeps⟩ := hreach.refused_keeps (by decide) hseat ha hatomic hrefused
  cases hslots.symm.trans hys
  exact ⟨w, seat, a, m, u, hreach, hseat, ha, hrefused, hkeeps, hkeeps.sizes.trans hkept⟩

/-- A column on an account that refuses an edit, and what the column and the account are then. -/
def RefusedWith (c : Column ⟨.bytes, .narrow⟩) (a : Allocator) (e : Edit)
    (slots bytes allocated : Nat) : Prop :=
  ∃ m u, e.run ⟨a, c⟩ = .refused (.allocation m) u ∧ u.column.slotCapacity = slots ∧
    u.column.byteCapacity = bytes ∧ u.allocator.allocated = allocated

/-- A refused edit can leave a column with larger capacities, and its account with less room: the
number of slots goes up when they are counted anew, and the room for values when one is written. -/
theorem not_refused_unchanged : ∃ (w : Workspace) (seat : Seat ⟨.bytes, .narrow⟩) (a : Allocator),
    Reachable [2600] w ∧ (w.places ⟨.bytes, .narrow⟩)[0]? = some (some seat) ∧
      w.allocators[seat.home]? = some a ∧ a.allocated = 192 ∧
      seat.column.slotCapacity = 15 ∧ seat.column.byteCapacity = 64 ∧
      RefusedWith seat.column a (.setCount 600) 512 64 2560 ∧
      RefusedWith seat.column a (.set 600 (some ⟨[7], 65⟩)) 15 128 256 := by
  obtain ⟨w, seat, a, hreach, hseat, ha, hallocated, hslots, hsizes, hall⟩ := exists_halfRoom
  obtain ⟨xs, hxs⟩ := hreach.encoded _ 0 seat (Session.seatAt?_eq_some.2 hseat)
  cases hslots.symm.trans hxs.slots?
  have hsolvent := hreach.solvent (by decide) ha seat.column
  have hkeeps : ∀ (e : Edit) (z : Sizes), e.Atomic → e.Sized → e.Fits .narrow [some [1]] →
      (e, z) ∈ [(Edit.setCount 600, Sizes.mk 64 2432 64), (.set 600 (some ⟨[7], 65⟩), ⟨64, 64, 128⟩)] →
      RefusedWith seat.column a e (min (z.flags * 8) (z.entries / 4 - 1)) z.values z.total := by
    intro e z hatomic hsized hfits hmem
    obtain ⟨hshort, hkept⟩ := hall _ hmem
    obtain ⟨m, u, hrefused, htakes⟩ :=
      Edit.run_short (s := ⟨a, seat.column⟩) hxs hsolvent hatomic hsized hfits hshort
    have htotal := htakes.allocated
    rw [htakes.footprint_eq, hkept, show seat.column.footprint = 192 by
      rw [show seat.column.footprint = seat.column.sizes.total from rfl, hsizes]; rfl] at htotal
    rw [hkept] at htakes
    obtain rfl := htakes.sizes
    exact ⟨m, u, hrefused, rfl, rfl, by dsimp only at htotal; omega⟩
  have hslotCapacity : seat.column.slotCapacity =
      min (seat.column.sizes.flags * 8) (seat.column.sizes.entries / 4 - 1) := rfl
  have hbyteCapacity : seat.column.byteCapacity = seat.column.sizes.values := rfl
  refine ⟨w, seat, a, hreach, hseat, ha, hallocated, ?_, ?_, ?_, ?_⟩
  · rw [hslotCapacity, hsizes]
    rfl
  · rw [hbyteCapacity, hsizes]
  · exact hkeeps (.setCount 600) ⟨64, 2432, 64⟩ trivial trivial trivial List.mem_cons_self
  · have haddressable : Blob.Addressable (some ⟨[7], 65⟩) :=
      show (Blob.mk [7] 65).size ≤ OffsetWidth.wide.max by decide
    exact hkeeps (.set 600 (some ⟨[7], 65⟩)) ⟨64, 64, 128⟩ trivial ⟨by decide, haddressable⟩
      (show Slots.sizeWith [some [1]] 600 _ ≤ _ by decide)
      (List.mem_cons_of_mem _ List.mem_cons_self)

end Workspace

end PackedColumn
