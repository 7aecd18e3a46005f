import PackedColumn.Proofs.Accounts

/-!
# The columns in all places of a session

A command changes the column in one place, or hands slots from one place to
another, and leaves every other place alone. So what holds of all columns,
each with its place, follows from what the operation makes of the columns it
is for.

* `Session.Each`: what holds of the column in every place, given the number of the place.
* `alter_each`, `create_each`, `transfer_each`: the three ways in which columns change, however the
  operation ends.
-/

namespace PackedColumn

variable {t : ColumnType}

/-- The buffers that change hands go on as they are. -/
theorem Pair.transfer_columns (p : Pair t) :
    (transfer p).Sat (fun _ q => q.source = p.source.vacated ∧ q.dest = p.dest.withSlotsOf p.source)
      (fun _ q => q.source = p.source ∧ q.dest = p.dest) True := by
  obtain ⟨homes, source, dest⟩ := p
  cases homes with
  | shared a => exact ⟨rfl, rfl⟩
  | separate a b =>
    refine Outcome.sat_bind.2 (Outcome.sat_lift.2 ?_)
    cases Allocator.adoptBlocks source.blocks b with
    | done _ c => exact ⟨rfl, rfl⟩
    | refused e c => exact ⟨rfl, rfl⟩
    | breach => trivial

namespace Session

variable {s u : Session t} {place home source dest : Nat} {P Q R : Nat → Column t → Prop}

/-- The column in every place has a property, which may depend on the place. -/
def Each (s : Session t) (P : Nat → Column t → Prop) : Prop :=
  ∀ i seat, s.seatAt? i = some seat → P i seat.column

namespace Each

theorem column? (h : s.Each P) {c : Column t} (hc : s.column? place = some c) : P place c := by
  obtain ⟨seat, hseat, rfl⟩ := Option.map_eq_some_iff.1 hc
  exact h place seat hseat

/-- One place changed, the others left alone. -/
theorem set {p : Option (Seat t)} (h : s.Each P)
    (hu : u.places = s.places.setIfInBounds place p) (hrest : ∀ i c, i ≠ place → P i c → Q i c)
    (hp : ∀ seat, p = some seat → Q place seat.column) : u.Each Q := by
  intro i seat hseat
  by_cases hplace : place < s.places.size
  · rw [seatAt?_set hu hplace] at hseat
    split at hseat
    · rename_i hi
      exact hi ▸ hp seat hseat
    · rename_i hi
      exact hrest i _ hi (h i seat hseat)
  · rw [seatAt?, hu, Array.setIfInBounds, dif_neg hplace] at hseat
    have hi := lt_of_seatAt? (s := s) hseat
    exact hrest i _ (by omega) (h i seat hseat)

theorem seat {o : Owned t} (h : s.Each P) (hrest : ∀ i c, i ≠ place → P i c → Q i c)
    (ho : Q place o.column) : (s.seat place home o).Each Q :=
  h.set rfl hrest fun seat hseat => by cases hseat; exact ho

theorem vacate (h : s.Each P) (hrest : ∀ i c, i ≠ place → P i c → Q i c) :
    (s.vacate place).Each Q := by
  unfold Session.vacate
  split
  · rename_i hnone
    intro i seat hseat
    refine hrest i _ (fun hi => ?_) (h i seat hseat)
    rw [hi, seatAt?, hnone] at hseat
    cases hseat
  · exact h.set rfl hrest fun seat hseat => by cases hseat

end Each

/-- Changing the column in one place. -/
theorem alter_each {op : Op t Unit} (h : s.Each P)
    (hop : ∀ o : Owned t, s.column? place = some o.column → P place o.column →
      (op o).Sat (fun _ u => Q place u.column) (fun _ u => R place u.column) True)
    (hdone : ∀ i c, i ≠ place → P i c → Q i c) (hrefused : ∀ i c, i ≠ place → P i c → R i c) :
    (alter place op s).Sat (fun _ u => u.Each Q) (fun _ u => u.Each R) True := by
  unfold alter
  dsimp only
  split
  · trivial
  rename_i home column hseat
  split
  · trivial
  rename_i a _
  have hcolumn : s.column? place = some column := by rw [column?, hseat]; rfl
  have hafter := hop ⟨a, column⟩ hcolumn (h.column? hcolumn)
  have hout : (s.without place).Each P := h.set rfl (fun _ _ _ hc => hc) nofun
  exact Outcome.sat_lift.2 (hafter.mono (fun _ _ ho => hout.seat hdone ho)
    (fun _ _ ho => hout.seat hrefused ho) id)

/-- Reading the column in one place and changing that in another. -/
theorem alterFrom_each {op : Column t → Op t Unit} (h : s.Each P)
    (hop : ∀ c, s.column? source = some c → P source c →
      ∀ o : Owned t, s.column? dest = some o.column → P dest o.column →
      (op c o).Sat (fun _ u => Q dest u.column) (fun _ u => R dest u.column) True)
    (hdone : ∀ i c, i ≠ dest → P i c → Q i c) (hrefused : ∀ i c, i ≠ dest → P i c → R i c) :
    (alterFrom source dest op s).Sat (fun _ u => u.Each Q) (fun _ u => u.Each R) True :=
  Call.sat_bind.2 (Call.sat_bind.2 (Call.sat_require.2
    ⟨fun c hc => alter_each h (hop c hc (h.column? hc)) hdone hrefused, fun _ => trivial⟩))

/-- Putting a new column into a place, which stays as it was if none can be made. -/
theorem create_each {make : Call ColumnError Allocator (Column t)} (h : s.Each P)
    (hmake : ∀ a, (make a).Sat (fun c _ => Q place c) (fun _ _ => True) True)
    (hrest : ∀ i c, i ≠ place → P i c → Q i c) :
    (create place home make s).Sat (fun _ u => u.Each Q) (fun _ u => u.Each P) True := by
  unfold create
  split
  · trivial
  split
  · trivial
  rename_i a _
  have hsat := hmake a
  cases hr : make a with
  | breach => trivial
  | refused e b => exact h
  | done column b =>
    rw [hr] at hsat
    have hmade : Each { s with allocators := s.allocators.setIfInBounds home b } P := h
    have hempty : (Session.vacate { s with allocators := s.allocators.setIfInBounds home b }
        place).Each Q := hmade.vacate hrest
    exact hempty.set rfl (fun _ _ _ hc => hc) fun seat hseat => by cases hseat; exact hsat

/-- Moving all slots from one place to another, which are two. -/
theorem transfer_each (h : s.Each P)
    (hsource : ∀ c, source ≠ dest → P source c → Q source c.vacated)
    (hdest : ∀ c d, P source c → P dest d → Q dest (d.withSlotsOf c))
    (hrest : ∀ i c, i ≠ source → i ≠ dest → P i c → Q i c) :
    (transfer source dest s).Sat (fun _ u => u.Each Q) (fun _ u => u.Each P) True := by
  unfold transfer
  split
  · trivial
  split
  rotate_left
  · trivial
  rename_i giver taker hgiver htaker
  have hgives := h source giver hgiver
  have htakes := h dest taker htaker
  dsimp only
  split
  · trivial
  rename_i homes _
  refine Outcome.sat_lift.2 ((Pair.transfer_columns ⟨homes, giver.column, taker.column⟩).mono
    (fun _ p ⟨hvacated, htaken⟩ => ?_) (fun _ p ⟨hkept, hkept'⟩ => ?_) id)
  · -- with the source put back, only the destination is not yet as it will be
    have hhalf : (s.seat source giver.home ⟨p.homes.source, p.source⟩).Each
        fun i c => i ≠ dest → Q i c :=
      h.seat (fun i c hi hc hne => hrest i c hi hne hc)
        fun hne => hvacated ▸ hsource _ hne hgives
    exact hhalf.seat (fun i c hi hc => hc hi) (htaken ▸ hdest _ _ hgives htakes)
  · exact (h.seat (fun _ _ _ hc => hc) (hkept ▸ hgives)).seat (fun _ _ _ hc => hc)
      (hkept' ▸ htakes)

end Session

end PackedColumn
