import PackedColumn.Proofs.Workspaces

/-!
# Moving all slots from one column to another

A transfer moves buffers. Between columns of one allocator it always goes
through; between two, the allocator of the destination must take over the
three buffers of the source while it still accounts for the former ones of the
destination. It takes them over one after the other, and when it stops half
way nothing has changed.

* `adoptBlocks_of_le`, `adoptBlocks_of_lt`: blocks taken over together, or the first for which there
  is no room.
* `Pair.transfer_of_le`, `Pair.transfer_of_lt`: a transfer between two allocators.
* `Reachable.transfer_ends`: how the command ends in any reachable workspace, and what it leaves.
-/

namespace PackedColumn

namespace Allocator

variable {a b c : Allocator} {bs : List Block} {m n : Nat}

/-! ## Accounts that change hands -/

/-- The account holds `less` bytes fewer and `more` bytes more, and is the same otherwise. -/
structure Trades (a : Allocator) (less more : Nat) (b : Allocator) : Prop where
  allocated : b.allocated + less = a.allocated + more
  limit : b.limit = a.limit
  overdrawn : b.overdrawn = a.overdrawn

theorem Accounts.trades {j k less more : Nat} (ha : a.Accounts j) (hb : b.Accounts k)
    (hlimit : b.limit = a.limit) (h : k + less = j + more) : a.Trades less more b where
  allocated := by rw [ha.allocated, hb.allocated, h]
  limit := hlimit
  overdrawn := by rw [ha.overdrawn, hb.overdrawn]

/-- One of the blocks does not fit: it has `n` bytes, and with the blocks before it the account holds
`held` bytes. -/
def StopsAt (a : Allocator) (bs : List Block) (n held : Nat) : Prop :=
  ∃ before b after, bs = before ++ b :: after ∧ n = b.size ∧
    held = a.allocated + Size.total (before.map Block.size) ∧ held ≤ a.limit ∧ a.limit < held + n

theorem stopsAt_head {b : Block} (ha : a.allocated ≤ a.limit) (h : a.limit < a.allocated + b.size)
    (bs : List Block) : a.StopsAt (b :: bs) b.size a.allocated :=
  ⟨[], b, bs, rfl, rfl, rfl, ha, h⟩

theorem StopsAt.cons {b : Block} {held : Nat} (h : (a.plus b.size).StopsAt bs n held) :
    a.StopsAt (b :: bs) n held := by
  obtain ⟨before, c, after, rfl, hn, hheld, hle, hlt⟩ := h
  refine ⟨b :: before, c, after, rfl, hn, ?_, hle, hlt⟩
  rw [hheld, allocated_plus, List.map_cons, Size.total_cons, Nat.add_assoc]

/-- Blocks for all of which there is room are taken over together. -/
theorem adoptBlocks_of_le (h : a.allocated + Size.total (bs.map Block.size) ≤ a.limit) :
    adoptBlocks bs a = .done () (a.plus (Size.total (bs.map Block.size))) := by
  induction bs generalizing a with
  | nil => rfl
  | cons b bs ih =>
    rw [List.map_cons, Size.total_cons, ← Nat.add_assoc] at h
    have hrest := ih (a := a.plus b.size) h
    simp only [adoptBlocks, adopt, charge_apply, if_pos (show a.allocated + b.size ≤ a.limit by omega),
      Outcome.done_bind, hrest, plus_plus, List.map_cons, Size.total_cons]

/-- When they do not all fit, the first that does not is refused, and those before it are given up
again. -/
theorem adoptBlocks_of_lt (ha : a.allocated ≤ a.limit) (hl : a.limit ≤ Size.max)
    (h : a.limit < a.allocated + Size.total (bs.map Block.size)) :
    ∃ n held, a.StopsAt bs n held ∧
      adoptBlocks bs a = .refused (.limitExceeded n held a.limit) a := by
  induction bs generalizing a with
  | nil =>
    rw [List.map_nil, Size.total_nil] at h
    omega
  | cons b bs ih =>
    by_cases hb : a.allocated + b.size ≤ a.limit
    · rw [List.map_cons, Size.total_cons, ← Nat.add_assoc] at h
      obtain ⟨n, held, hstop, hrefused⟩ := ih (a := a.plus b.size) hb hl h
      refine ⟨n, held, hstop.cons, ?_⟩
      -- The rest has given up its own blocks, so only `b` is still to be taken off the account.
      simp only [adoptBlocks, adopt, charge_apply, if_pos hb, Outcome.done_bind, hrefused]
      rw [release, discharge_plus hb hl, limit_plus]
    · refine ⟨b.size, a.allocated, stopsAt_head ha (by omega) bs, ?_⟩
      simp only [adoptBlocks, adopt, charge_apply, if_neg hb, Outcome.refused_bind]

end Allocator

/-! ## Two columns -/

namespace Pair

variable {t : ColumnType} {source dest : Column t} {a b : Allocator} {j k : Nat}

/-- Between two accounts, when that of the destination has room for the source. -/
theorem transfer_of_le (ha : a.Accounts (j + source.footprint)) (hb : b.Accounts (k + dest.footprint))
    (h : b.allocated + source.footprint ≤ b.limit) :
    ∃ a' b', transfer ⟨.separate a b, source, dest⟩ =
        .done () ⟨.separate a' b', source.vacated, dest.withSlotsOf source⟩ ∧
      a.Trades source.footprint 0 a' ∧ b.Trades dest.footprint source.footprint b' := by
  have hsat := transfer_separate ha hb
  rw [← total_blocks] at h
  have hdone := Allocator.adoptBlocks_of_le h
  cases hr : transfer ⟨.separate a b, source, dest⟩ with
  | done _ p =>
    rw [hr] at hsat
    obtain ⟨a', b', rfl, ⟨ha', hla⟩, hb', hlb⟩ := hsat
    exact ⟨a', b', rfl, ha.trades ha' hla (by omega), hb.trades hb' hlb (by omega)⟩
  | refused e p =>
    simp only [transfer, hdone, Outcome.lift, Outcome.done_bind] at hr
    cases hr
  | breach => rw [hr] at hsat; exact hsat.elim

/-- And when it has not. -/
theorem transfer_of_lt (hb : b.Accounts k) (h : b.limit < b.allocated + source.footprint) :
    ∃ n held, b.StopsAt source.blocks n held ∧ transfer ⟨.separate a b, source, dest⟩ =
      .refused (.allocation (.limitExceeded n held b.limit)) ⟨.separate a b, source, dest⟩ := by
  have hle : b.allocated ≤ b.limit := by rw [hb.allocated]; exact hb.le_limit
  rw [← total_blocks] at h
  obtain ⟨n, held, hstop, hrefused⟩ := Allocator.adoptBlocks_of_lt hle hb.limit_le h
  refine ⟨n, held, hstop, ?_⟩
  simp only [transfer, hrefused, Outcome.lift, Outcome.refused_bind]

end Pair

/-! ## The command -/

namespace Workspace

variable {t : ColumnType} {w : Workspace} {source dest : Nat} {giver taker : Seat t}
  {a b : Allocator} {xs : Slots} {limits : List Nat}

/-- The workspace with two columns and their allocators put back. -/
def seats (w : Workspace) (source dest : Nat) (giver taker : Seat t) (o o' : Owned t) : Workspace :=
  w.put (((w.session t).seat source giver.home o).seat dest taker.home o')

/-- What a transfer leaves when it is done: the buffers and the extent of the source are those of the
destination, whose own are given back, the source has none, and nothing has changed but these two
columns and their accounts. -/
structure HandsOver (w u : Workspace) (source dest : Nat) (giver taker : Seat t) (a b : Allocator) :
    Prop where
  emptied : (u.places t)[source]? = some (some { giver with column := { giver.column with
    validity := .empty, offsets := .empty, values := .empty, extent := .empty } })
  filled : (u.places t)[dest]? = some (some { taker with column := { taker.column with
    validity := giver.column.validity, offsets := giver.column.offsets,
    values := giver.column.values, extent := giver.column.extent } })
  places : ∀ t' i, t ≠ t' ∨ i ≠ source ∧ i ≠ dest → (u.places t')[i]? = (w.places t')[i]?
  /-- Within an account, the former buffers of the destination are all that changes. -/
  shared : giver.home = taker.home → ∃ a', u.allocators[giver.home]? = some a' ∧
    a.Trades taker.column.footprint 0 a'
  /-- Between two, the buffers of the source go from one to the other as well. -/
  separate : giver.home ≠ taker.home → ∃ a' b', u.allocators[giver.home]? = some a' ∧
    u.allocators[taker.home]? = some b' ∧ a.Trades giver.column.footprint 0 a' ∧
    b.Trades taker.column.footprint giver.column.footprint b'
  allocators : ∀ i, i ≠ giver.home → i ≠ taker.home → u.allocators[i]? = w.allocators[i]?

/-- How a transfer ends, by the account `b` of the destination: it goes through exactly when that
account is also the one of the source, or has room for the buffers of the source, and otherwise the
workspace is as before. -/
structure Transfers (w : Workspace) (source dest : Nat) (giver taker : Seat t) (a b : Allocator) :
    Prop where
  done : giver.home = taker.home ∨ b.allocated + giver.column.footprint ≤ b.limit →
    ∃ u, run t (.transfer source dest) w = .done () u ∧
      w.HandsOver u source dest giver taker a b
  refused : giver.home ≠ taker.home → b.limit < b.allocated + giver.column.footprint →
    ∃ n held, b.StopsAt giver.column.blocks n held ∧
      run t (.transfer source dest) w =
        .refused (.allocation (.limitExceeded n held b.limit)) w

section seats

variable (w : Workspace) (o o' : Owned t)

theorem places_seats : (w.seats source dest giver taker o o').places t =
    ((w.places t).setIfInBounds source (some ⟨giver.home, o.column⟩)).setIfInBounds dest
      (some ⟨taker.home, o'.column⟩) := places_put w _

theorem allocators_seats : (w.seats source dest giver taker o o').allocators =
    (w.allocators.setIfInBounds giver.home o.allocator).setIfInBounds taker.home o'.allocator := rfl

variable {w}

theorem seats_emptied (hne : source ≠ dest) (hgiver : (w.places t)[source]? = some (some giver)) :
    ((w.seats source dest giver taker o o').places t)[source]? =
      some (some { giver with column := o.column }) := by
  rw [places_seats, Array.getElem?_setIfInBounds_ne (Ne.symm hne),
    Array.getElem?_setIfInBounds_self_of_lt (Array.getElem?_eq_some_iff.1 hgiver).1]

theorem seats_filled (htaker : (w.places t)[dest]? = some (some taker)) :
    ((w.seats source dest giver taker o o').places t)[dest]? =
      some (some { taker with column := o'.column }) := by
  have hlt := (Array.getElem?_eq_some_iff.1 htaker).1
  rw [places_seats, Array.getElem?_setIfInBounds_self_of_lt (by rwa [Array.size_setIfInBounds])]

theorem seats_places (t' : ColumnType) (i : Nat) (h : t ≠ t' ∨ i ≠ source ∧ i ≠ dest) :
    ((w.seats source dest giver taker o o').places t')[i]? = (w.places t')[i]? := by
  by_cases ht : t = t'
  · subst ht
    obtain ⟨hsource, hdest⟩ := h.resolve_left fun hne => hne rfl
    rw [places_seats, Array.getElem?_setIfInBounds_ne (Ne.symm hdest),
      Array.getElem?_setIfInBounds_ne (Ne.symm hsource)]
  · rw [seats, places_put_of_ne ht]

theorem seats_taker_home (hb : w.allocators[taker.home]? = some b) :
    (w.seats source dest giver taker o o').allocators[taker.home]? = some o'.allocator := by
  have hlt := (Array.getElem?_eq_some_iff.1 hb).1
  rw [allocators_seats, Array.getElem?_setIfInBounds_self_of_lt (by rwa [Array.size_setIfInBounds])]

theorem seats_giver_home (hhome : giver.home ≠ taker.home)
    (ha : w.allocators[giver.home]? = some a) :
    (w.seats source dest giver taker o o').allocators[giver.home]? = some o.allocator := by
  rw [allocators_seats, Array.getElem?_setIfInBounds_ne (Ne.symm hhome),
    Array.getElem?_setIfInBounds_self_of_lt (Array.getElem?_eq_some_iff.1 ha).1]

theorem seats_allocators (i : Nat) (hgiver : i ≠ giver.home) (htaker : i ≠ taker.home) :
    (w.seats source dest giver taker o o').allocators[i]? = w.allocators[i]? := by
  rw [allocators_seats, Array.getElem?_setIfInBounds_ne (Ne.symm htaker),
    Array.getElem?_setIfInBounds_ne (Ne.symm hgiver)]

theorem seats_self (hgiver : (w.places t)[source]? = some (some giver))
    (htaker : (w.places t)[dest]? = some (some taker)) (ha : w.allocators[giver.home]? = some a)
    (hb : w.allocators[taker.home]? = some b) :
    w.seats source dest giver taker ⟨a, giver.column⟩ ⟨b, taker.column⟩ = w := by
  have hgiver' : (w.session t).seatAt? source = some ⟨giver.home, giver.column⟩ :=
    Session.seatAt?_eq_some.2 hgiver
  have htaker' : (w.session t).seatAt? dest = some ⟨taker.home, taker.column⟩ :=
    Session.seatAt?_eq_some.2 htaker
  rw [seats, Session.seat_self hgiver' ha, Session.seat_self htaker' hb, put_session]

end seats

theorem run_transfer_shared (hne : source ≠ dest)
    (hgiver : (w.places t)[source]? = some (some giver))
    (htaker : (w.places t)[dest]? = some (some taker)) (hhome : giver.home = taker.home)
    (ha : w.allocators[giver.home]? = some a) :
    run t (.transfer source dest) w =
      (Pair.transfer ⟨.shared a, giver.column, taker.column⟩).lift id fun p =>
        w.seats source dest giver taker ⟨p.homes.source, p.source⟩ ⟨p.homes.dest, p.dest⟩ := by
  rw [run, Session.run, Session.transfer_apply_shared hne (Session.seatAt?_eq_some.2 hgiver)
    (Session.seatAt?_eq_some.2 htaker) hhome ha]
  cases Pair.transfer ⟨.shared a, giver.column, taker.column⟩ <;> rfl

theorem run_transfer_separate (hne : source ≠ dest)
    (hgiver : (w.places t)[source]? = some (some giver))
    (htaker : (w.places t)[dest]? = some (some taker)) (hhome : giver.home ≠ taker.home)
    (ha : w.allocators[giver.home]? = some a) (hb : w.allocators[taker.home]? = some b) :
    run t (.transfer source dest) w =
      (Pair.transfer ⟨.separate a b, giver.column, taker.column⟩).lift id fun p =>
        w.seats source dest giver taker ⟨p.homes.source, p.source⟩ ⟨p.homes.dest, p.dest⟩ := by
  rw [run, Session.run, Session.transfer_apply_separate hne (Session.seatAt?_eq_some.2 hgiver)
    (Session.seatAt?_eq_some.2 htaker) hhome ha hb]
  cases Pair.transfer ⟨.separate a b, giver.column, taker.column⟩ <;> rfl

/-! ## The ends of the command -/

theorem transfers_shared (h : w.Balanced limits) (hne : source ≠ dest)
    (hgiver : (w.places t)[source]? = some (some giver))
    (htaker : (w.places t)[dest]? = some (some taker)) (hhome : giver.home = taker.home)
    (ha : w.allocators[giver.home]? = some a) :
    w.Transfers source dest giver taker a a := by
  have hheld := (h.session t).held_shared hne (Session.seatAt?_eq_some.2 hgiver)
    (Session.seatAt?_eq_some.2 htaker) hhome ha
  obtain ⟨a', htransfer, ha', hlimit⟩ := Pair.transfer_shared hheld
  refine ⟨fun _ => ⟨w.seats source dest giver taker ⟨a', giver.column.vacated⟩
    ⟨a', taker.column.withSlotsOf giver.column⟩, ?_, seats_emptied _ _ hne hgiver,
    seats_filled _ _ htaker, seats_places _ _, fun _ => ⟨a', ?_, ?_⟩,
    fun hapart => absurd hhome hapart, seats_allocators _ _⟩, fun hapart => absurd hhome hapart⟩
  · rw [run_transfer_shared hne hgiver htaker hhome ha, htransfer]
    rfl
  · rw [hhome]
    exact seats_taker_home _ _ (hhome ▸ ha)
  · exact hheld.trades ha' hlimit (by omega)

theorem transfers_separate (h : w.Balanced limits) (hne : source ≠ dest)
    (hgiver : (w.places t)[source]? = some (some giver))
    (htaker : (w.places t)[dest]? = some (some taker)) (hhome : giver.home ≠ taker.home)
    (ha : w.allocators[giver.home]? = some a) (hb : w.allocators[taker.home]? = some b) :
    w.Transfers source dest giver taker a b := by
  have hrun := run_transfer_separate hne hgiver htaker hhome ha hb
  obtain ⟨hgives, htakes⟩ := (h.session t).held_separate hne (Session.seatAt?_eq_some.2 hgiver)
    (Session.seatAt?_eq_some.2 htaker) hhome ha hb
  refine ⟨fun hroom => ?_, fun _ hfull => ?_⟩
  · obtain ⟨a', b', htransfer, ha', hb'⟩ :=
      Pair.transfer_of_le hgives htakes (hroom.resolve_left hhome)
    refine ⟨w.seats source dest giver taker ⟨a', giver.column.vacated⟩
      ⟨b', taker.column.withSlotsOf giver.column⟩, by rw [hrun, htransfer]; rfl,
      seats_emptied _ _ hne hgiver, seats_filled _ _ htaker, seats_places _ _,
      fun heq => absurd heq hhome, fun _ => ?_, seats_allocators _ _⟩
    exact ⟨a', b', seats_giver_home _ _ hhome ha, seats_taker_home _ _ hb, ha', hb'⟩
  · obtain ⟨n, held, hstop, hrefused⟩ := Pair.transfer_of_lt (a := a) htakes hfull
    refine ⟨n, held, hstop, ?_⟩
    rw [hrun, hrefused, Outcome.lift]
    exact congrArg _ (seats_self hgiver htaker ha hb)

/-- In every reachable workspace, moving all slots of one column to another goes through exactly when
both have the same account, or when that of the destination, still charged for its former buffers,
has room for the three buffers of the source. Then the destination has these buffers and slots, the
source has none, and the accounts are charged accordingly. Otherwise the workspace is as before,
whichever buffer was the one refused. -/
theorem Reachable.transfer_ends (h : Reachable limits w) (hlimits : ∀ l ∈ limits, l ≤ Size.max)
    (hne : source ≠ dest) (hgiver : (w.places t)[source]? = some (some giver))
    (htaker : (w.places t)[dest]? = some (some taker)) :
    ∃ a b, w.allocators[giver.home]? = some a ∧ w.allocators[taker.home]? = some b ∧
      w.Transfers source dest giver taker a b := by
  have hbalanced := h.balanced hlimits
  have ha := Array.getElem?_eq_getElem (hbalanced.housed t source giver hgiver)
  have hb := Array.getElem?_eq_getElem (hbalanced.housed t dest taker htaker)
  refine ⟨_, _, ha, hb, ?_⟩
  by_cases hhome : giver.home = taker.home
  · have hshared := transfers_shared hbalanced hne hgiver htaker hhome ha
    simp only [← hhome]
    exact hshared
  · exact transfers_separate hbalanced hne hgiver htaker hhome ha hb

/-- The second allocator has room for two of the three buffers of the first column. -/
theorem transfer_ends_of_full : ∃ (w : Workspace) (giver taker : Seat ⟨.bytes, .narrow⟩)
    (a b : Allocator), w.allocators[giver.home]? = some a ∧ w.allocators[taker.home]? = some b ∧
      w.Transfers 0 1 giver taker a b ∧ giver.column.footprint = 192 ∧ b.allocated = 192 ∧
      ∃ e, run ⟨.bytes, .narrow⟩ (.transfer 0 1) w = .refused e w := by
  have hrun : (runAll (start ([512, 320].map fun l => { limit := l }) 2)
      ([.create 0 0 { name := "a", type := ⟨.bytes, .narrow⟩ } { initialSlots := 1 },
        .create 1 1 { name := "b", type := ⟨.bytes, .narrow⟩ } { initialSlots := 1 },
        .edit 0 (.pushAll [some ⟨[1, 2], 1⟩, none]), .edit 1 (.push (some ⟨[3], 1⟩))].map
          fun c => (⟨.bytes, .narrow⟩, c))).any
      (fun w => ((w.session ⟨.bytes, .narrow⟩).seatAt? 0).any
          (fun giver => giver.home = 0 ∧ giver.column.footprint = 192) ∧
        ((w.session ⟨.bytes, .narrow⟩).seatAt? 1).any (·.home = 1) ∧
        (w.allocators[1]?).any (fun b => b.allocated = 192 ∧ b.limit = 320)) = true := by
    decide +kernel
  obtain ⟨w, hw, hend⟩ := (Option.any_eq_true _ _).1 hrun
  obtain ⟨hgiver, htaker, haccount⟩ := of_decide_eq_true hend
  obtain ⟨giver, hgiver, hsize⟩ := (Option.any_eq_true _ _).1 hgiver
  obtain ⟨hhome, hsize⟩ := of_decide_eq_true hsize
  obtain ⟨taker, htaker, hhome'⟩ := (Option.any_eq_true _ _).1 htaker
  obtain ⟨b, hb, hfull⟩ := (Option.any_eq_true _ _).1 haccount
  obtain ⟨hallocated, hlimit⟩ := of_decide_eq_true hfull
  have hhome' : taker.home = 1 := of_decide_eq_true hhome'
  have hreach := (Reachable.start 2).runAll (by simp [Command.Safe, Edit.Safe]) hw
  obtain ⟨a, b', ha, hb', htransfers⟩ := hreach.transfer_ends (by decide)
    (show 0 ≠ 1 by decide) (Session.seatAt?_eq_some.1 hgiver) (Session.seatAt?_eq_some.1 htaker)
  rw [hhome', hb] at hb'
  cases hb'
  obtain ⟨n, held, -, hrefused⟩ := htransfers.refused (by omega) (by omega)
  exact ⟨w, giver, taker, a, b, ha, by rw [hhome', hb], htransfers, hsize, hallocated, _, hrefused⟩

end Workspace

end PackedColumn
