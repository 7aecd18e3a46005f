import PackedColumn.Proofs.Workspaces

/-!
# Copying a range between columns of a workspace

How `Command.copyRange` ends is decided by two comparisons: of the range with
the slots of the source, and of the memory it takes with what the account of
the destination has left. A refusal changes nothing, and in the end only the
destination and its account have changed.

* `Encodes.packs`: a column that stands for slots and has no other flag set has the bytes that
  pushing the slots would give.
* `copiesRange`: all ways for the command to end, by the slots of the source and the account of the
  destination; `Reachable.copyRange_cases` for any reachable workspace.
-/

namespace PackedColumn

theorem Slots.map_toList_ofList (xs : Slots) :
    (xs.map (·.map Blob.ofList)).map (·.map Blob.toList) = xs := by
  induction xs with
  | nil => rfl
  | cons x xs ih => rw [List.map_cons, List.map_cons, ih, Blob.map_toList_ofList]

namespace Column

variable {t : ColumnType} {c : Column t} {xs : Slots}

theorem clean_new (name : String) (nullable : Bool) (settings : Settings) :
    (new name nullable settings : Column t).Clean := nofun

/-- The column shows the slots, the last one being written last, and no flag behind them is set. Its
bytes are those of every new column to which the slots were pushed. -/
structure Packs (c : Column t) (xs : Slots) : Prop where
  shows : c.Shows xs
  last : c.extent.last = some (xs.length - 1)
  clean : ∀ j, c.validity.get? j = some true → j < xs.length
  buffers : ∃ b, c.buffers? = some b ∧
    ∀ (a : Allocator) (name : String) (nullable : Bool) (settings : Settings) (u : Owned t),
      pushAll (xs.map (·.map Blob.ofList)) ⟨a, new name nullable settings⟩ = .done () u →
        u.column.buffers? = some b

/-- A clean column has the bytes of every new column to which its slots were pushed. -/
theorem Encodes.packs (h : c.Encodes xs) (hclean : c.Clean)
    (hlast : c.extent.last = some (xs.length - 1)) : c.Packs xs := by
  obtain ⟨b, hb, -⟩ := h.exists_buffers? h hclean hclean
  refine ⟨h.shows, hlast, fun j hj => by rw [← h.count]; exact hclean j hj, b, hb,
    fun a name nullable settings u hu => ?_⟩
  have hnew := encodes_new (t := t) name nullable settings
  have hpush := hnew.pushAll_sat (s := ⟨a, new name nullable settings⟩)
    (xs.map (·.map Blob.ofList))
  rw [hu, Outcome.sat_done, Slots.map_toList_ofList] at hpush
  obtain ⟨b', hb', hu'⟩ :=
    h.exists_buffers? hpush.1 hclean (hpush.2 (clean_new name nullable settings))
  rw [hu', ← hb', hb]

end Column

namespace Session

variable {t : ColumnType} {s : Session t} {source dest : Nat} {giver taker : Seat t} {a : Allocator}

/-- Reading another column gives its operation the seat in the place and the account at its home. -/
theorem alterFrom_apply (hgiver : s.seatAt? source = some giver)
    (htaker : s.seatAt? dest = some taker) (ha : s.allocators[taker.home]? = some a)
    (op : Column t → Op t Unit) :
    alterFrom source dest op s =
      (op giver.column ⟨a, taker.column⟩).lift id (s.seat dest taker.home) := by
  have hcolumn : s.column? source = some giver.column := by
    rw [column?, show (s.places[source]?).join = some giver from hgiver]
    rfl
  have htaker' : s.seatAt? dest = some ⟨taker.home, taker.column⟩ := htaker
  rw [← alter_apply htaker' ha, alterFrom, Call.bind_of_done (Call.get_apply s), hcolumn]
  exact Call.bind_of_done (Call.require_some giver.column s)

end Session

namespace Workspace

variable {t : ColumnType} {w u : Workspace} {place home source dest start length : Nat}
  {giver taker : Seat t} {a : Allocator} {xs : Slots} {limits : List Nat}

/-! ## What stays as it was -/

/-- Nothing but the column in one place and the account at its home differs. -/
structure SameBut (w u : Workspace) (t : ColumnType) (place home : Nat) : Prop where
  places : ∀ t' i, t ≠ t' ∨ i ≠ place → (u.places t')[i]? = (w.places t')[i]?
  allocators : ∀ i, i ≠ home → u.allocators[i]? = w.allocators[i]?

/-- The workspace with a column and its allocator put back. -/
def seat (w : Workspace) (place home : Nat) (o : Owned t) : Workspace :=
  w.put ((w.session t).seat place home o)

theorem places_seat (w : Workspace) (place home : Nat) (o : Owned t) :
    (w.seat place home o).places t =
      (w.places t).setIfInBounds place (some { home, column := o.column }) :=
  places_put w ((w.session t).seat place home o)

theorem sameBut_seat (w : Workspace) (place home : Nat) (o : Owned t) :
    w.SameBut (w.seat place home o) t place home where
  places := fun t' i h => by
    by_cases ht : t = t'
    · subst ht
      rw [places_seat, Array.getElem?_setIfInBounds_ne]
      rcases h with h | h
      · exact absurd rfl h
      · exact Ne.symm h
    · rw [seat, places_put_of_ne ht]
  allocators := fun _ hi => Array.getElem?_setIfInBounds_ne (Ne.symm hi)

/-- Once an operation is done, the place holds the column that it left, and nothing else in the
workspace has changed but its account. -/
structure Leaves (w u : Workspace) (source dest : Nat) (giver taker : Seat t) (d : Column t) :
    Prop where
  same : w.SameBut u t dest taker.home
  source : (u.places t)[source]? = some (some giver)
  dest : (u.places t)[dest]? = some (some ⟨taker.home, d⟩)

theorem leaves_seat (hne : source ≠ dest) (hgiver : (w.places t)[source]? = some (some giver))
    (htaker : (w.places t)[dest]? = some (some taker)) (o : Owned t) :
    w.Leaves (w.seat dest taker.home o) source dest giver taker o.column where
  same := sameBut_seat w dest taker.home o
  source := ((sameBut_seat w dest taker.home o).places t source (.inr hne)).trans hgiver
  dest := by
    rw [places_seat]
    exact Array.getElem?_setIfInBounds_self_of_lt (Array.getElem?_eq_some_iff.1 htaker).1

theorem seat_self (htaker : (w.places t)[dest]? = some (some taker))
    (ha : w.allocators[taker.home]? = some a) : w.seat dest taker.home ⟨a, taker.column⟩ = w := by
  have htaker' : (w.session t).seatAt? dest = some ⟨taker.home, taker.column⟩ :=
    Session.seatAt?_eq_some.2 htaker
  rw [seat, Session.seat_self htaker' ha, put_session]

/-- Of two columns put back into one place the second one counts. -/
theorem seat_seat (w : Workspace) (place home : Nat) (o o' : Owned t) :
    (w.seat place home o).seat place home o' = w.seat place home o' := by
  have hsession : ((w.session t).seat place home o).seat place home o' =
      (w.session t).seat place home o' := by
    simp only [Session.seat, Array.setIfInBounds_setIfInBounds]
  rw [seat, seat, session_put, hsession]
  refine Workspace.ext rfl (funext fun t' => ?_)
  by_cases ht : t = t'
  · subst ht
    rw [places_put, seat, places_put]
  · rw [places_put_of_ne ht, places_put_of_ne ht, seat, places_put_of_ne ht]

theorem run_alterFrom {c : Command} {op : Column t → Op t Unit}
    (hc : Session.run c = Session.alterFrom source dest op)
    (hgiver : (w.places t)[source]? = some (some giver))
    (htaker : (w.places t)[dest]? = some (some taker)) (ha : w.allocators[taker.home]? = some a) :
    run t c w = (op giver.column ⟨a, taker.column⟩).lift id (w.seat dest taker.home) := by
  rw [run, hc, Session.alterFrom_apply (Session.seatAt?_eq_some.2 hgiver)
    (Session.seatAt?_eq_some.2 htaker) ha]
  cases op giver.column ⟨a, taker.column⟩ <;> rfl

/-! ## The ends of the command -/

/-- How copying a range from one column to another ends, by the slots `xs` of the source and the
account `a` of the destination. -/
structure CopiesRange (w : Workspace) (source dest start length : Nat) (giver taker : Seat t)
    (xs : Slots) (a : Allocator) : Prop where
  outOfRange : giver.column.count < start + length →
    run t (.copyRange source dest start length) w =
      .refused (.outOfRange start length giver.column.count) w
  empty : start ≤ giver.column.count → length = 0 →
    ∃ u d, run t (.copyRange source dest start length) w = .done () u ∧
      w.Leaves u source dest giver taker d ∧ d.Shows []
  refused : start + length ≤ giver.column.count → 0 < length →
    a.limit < a.allocated +
      Column.rangeFootprint t.width length (xs.slice start length).bytes.length →
    ∃ m, run t (.copyRange source dest start length) w = .refused (.allocation m) w
  done : start + length ≤ giver.column.count → 0 < length →
    a.allocated + Column.rangeFootprint t.width length (xs.slice start length).bytes.length ≤
      a.limit →
    ∃ u d, run t (.copyRange source dest start length) w = .done () u ∧
      w.Leaves u source dest giver taker d ∧ d.Packs (xs.slice start length) ∧
      d.footprint = Column.rangeFootprint t.width length (xs.slice start length).bytes.length

theorem copiesRange (hne : source ≠ dest) (hgiver : (w.places t)[source]? = some (some giver))
    (htaker : (w.places t)[dest]? = some (some taker)) (ha : w.allocators[taker.home]? = some a)
    (hxs : giver.column.Encodes xs) {k : Nat} (haccounts : a.Accounts k) (start length : Nat) :
    w.CopiesRange source dest start length giver taker xs a := by
  have hrun := run_alterFrom (c := .copyRange source dest start length) rfl hgiver htaker ha
  have hself : w.seat dest taker.home ⟨a, taker.column⟩ = w := seat_self htaker ha
  refine ⟨fun hrange => ?_, fun hstart hzero => ?_, fun hrange hpos hfull => ?_,
    fun hrange hpos hroom => ?_⟩
  · rw [hrun, Column.copyRange_of_lt hrange, Outcome.lift, hself]
    rfl
  · subst hzero
    refine ⟨_, _, ?_, leaves_seat hne hgiver htaker (Owned.clear ⟨a, taker.column⟩),
      (Column.encodes_clear _).shows⟩
    rw [hrun, Column.copyRange_zero hstart]
    rfl
  · obtain ⟨m, hrefused⟩ := hxs.copyRange_refused (s := ⟨a, taker.column⟩) hpos
      (hxs.count ▸ hrange) haccounts hfull
    refine ⟨m, ?_⟩
    rw [hrun, hrefused, Outcome.lift, hself]
    rfl
  · obtain ⟨o, hdone, hencodes, hclean, hlast, hsize⟩ :=
      hxs.copyRange_done (s := ⟨a, taker.column⟩) hpos (hxs.count ▸ hrange) hroom
    refine ⟨_, _, ?_, leaves_seat hne hgiver htaker o, hencodes.packs hclean ?_, hsize⟩
    · rw [hrun, hdone]
      rfl
    · rw [Slots.length_slice (hxs.count ▸ hrange)]
      exact hlast

/-- In every reachable workspace, copying a range from one column to another is refused exactly when
the source has no such slots, or when the account of the destination, still charged for its former
buffers, has no room for the new ones; then the workspace is as before. Otherwise the destination
holds the range, packed as if its slots had been pushed to a new column, and nothing but the
destination and its account has changed. -/
theorem Reachable.copyRange_cases (h : Reachable limits w) (hlimits : ∀ l ∈ limits, l ≤ Size.max)
    (hne : source ≠ dest) (hgiver : (w.places t)[source]? = some (some giver))
    (htaker : (w.places t)[dest]? = some (some taker)) (start length : Nat) :
    ∃ (xs : Slots) (a : Allocator), giver.column.Shows xs ∧
      w.allocators[taker.home]? = some a ∧
      w.CopiesRange source dest start length giver taker xs a := by
  have hbalanced := h.balanced hlimits
  obtain ⟨xs, hxs⟩ := h.encoded t source giver (Session.seatAt?_eq_some.2 hgiver)
  have ha := Array.getElem?_eq_getElem (hbalanced.housed t dest taker htaker)
  exact ⟨xs, _, hxs.shows, ha,
    copiesRange hne hgiver htaker ha hxs (hbalanced.held taker.home _ ha) start length⟩

theorem copyRange_cases_of_pushed : ∃ (w : Workspace) (giver taker : Seat ⟨.bytes, .narrow⟩)
    (xs : Slots) (a : Allocator),
    giver.column.count = 3 ∧ giver.column.Shows xs ∧ w.allocators[taker.home]? = some a ∧
      w.CopiesRange 0 1 1 2 giver taker xs a := by
  have hrun : (runAll (start ([512].map fun l => { limit := l }) 2)
      ([.create 0 0 { name := "a", type := ⟨.bytes, .narrow⟩ } { initialSlots := 1 },
        .create 1 0 { name := "b", type := ⟨.bytes, .narrow⟩ } { initialSlots := 1 },
        .edit 0 (.pushAll [some ⟨[1, 2], 1⟩, none, some ⟨[3], 1⟩])].map
          fun c => (⟨.bytes, .narrow⟩, c))).any
      (fun w => ((w.session ⟨.bytes, .narrow⟩).seatAt? 0).any (·.column.count = 3) ∧
        ((w.session ⟨.bytes, .narrow⟩).seatAt? 1).isSome) = true := by
    decide +kernel
  obtain ⟨w, hw, hseats⟩ := (Option.any_eq_true _ _).1 hrun
  obtain ⟨hfirst, hsecond⟩ := of_decide_eq_true hseats
  obtain ⟨giver, hgiver, hcount⟩ := (Option.any_eq_true _ _).1 hfirst
  obtain ⟨taker, htaker⟩ := Option.isSome_iff_exists.1 hsecond
  have hreach := (Reachable.start 2).runAll (by simp [Command.Safe, Edit.Safe]) hw
  obtain ⟨xs, a, hcases⟩ := hreach.copyRange_cases (by decide) (show 0 ≠ 1 by decide)
    (Session.seatAt?_eq_some.1 hgiver) (Session.seatAt?_eq_some.1 htaker) 1 2
  exact ⟨w, giver, taker, xs, a, of_decide_eq_true hcount, hcases⟩

end Workspace

end PackedColumn
