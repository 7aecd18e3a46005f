import PackedColumn.Proofs.Payments
import PackedColumn.Session

/-!
# The accounts of a session

Every allocator of a session accounts for exactly the memory of the columns
whose home it is, within its limit, and no account ever wraps around. Between
the steps of a command a column may be out of its place: `Session.Balanced`
says how many bytes of each account are in hand.

* `charged_set`: what a place contributes to the accounts.
* `Balanced.take`, `Balanced.settle`, `Balanced.put`: a column taken out, an account that changes,
  and a column put back.
* `transfer_keeps`: slots that go from one place to another, within an account or between two.
* `run_keeps`: every command keeps the accounts, whether it is done or refused.
-/

namespace PackedColumn

variable {t : ColumnType}

/-- The bytes in a place for which an allocator accounts. -/
def Seat.share (home : Nat) : Option (Seat t) → Nat
  | none => 0
  | some seat => if seat.home = home then seat.column.footprint else 0

namespace Session

variable {s u : Session t} {place home : Nat} {p : Option (Seat t)} {limits : List Nat}
  {inHand inHand' : Nat → Nat} {a b : Allocator}

/-- What is in a place. -/
def seatAt? (s : Session t) (place : Nat) : Option (Seat t) := (s.places[place]?).join

theorem seatAt?_eq_some {seat : Seat t} :
    s.seatAt? place = some seat ↔ s.places[place]? = some (some seat) := by
  rw [seatAt?, Option.join_eq_some_iff]

theorem lt_of_seatAt? {seat : Seat t} (h : s.seatAt? place = some seat) :
    place < s.places.size :=
  (Array.getElem?_eq_some_iff.1 (seatAt?_eq_some.1 h)).1

theorem seatAt?_set (hu : u.places = s.places.setIfInBounds place p) (hp : place < s.places.size)
    (i : Nat) : u.seatAt? i = if i = place then p else s.seatAt? i := by
  rw [seatAt?, hu, Array.getElem?_setIfInBounds]
  by_cases h : place = i
  · subst h; rw [if_pos rfl, if_pos hp, if_pos rfl]; rfl
  · rw [if_neg h, if_neg (Ne.symm h)]; rfl

theorem seatAt?_start (allocators : List Allocator) (places i : Nat) :
    (start allocators places : Session t).seatAt? i = none := by
  simp only [seatAt?, start, Array.getElem?_replicate]
  split
  · rfl
  · rfl

/-! ## Sums over the places -/

theorem total_map_set {α : Type} (f : α → Nat) (xs : List α) {i : Nat} (h : i < xs.length) (x : α) :
    Size.total ((xs.set i x).map f) + f xs[i] = Size.total (xs.map f) + f x := by
  induction xs generalizing i with
  | nil => cases h
  | cons y ys ih =>
    cases i with
    | zero =>
      simp only [List.set_cons_zero, List.map_cons, Size.total_cons, List.getElem_cons_zero]
      omega
    | succ i =>
      have := ih (Nat.lt_of_succ_lt_succ h)
      simp only [List.set_cons_succ, List.map_cons, Size.total_cons, List.getElem_cons_succ]
      omega

theorem charged_eq (s : Session t) (home : Nat) :
    s.charged home = Size.total (s.places.toList.map (Seat.share home)) := by
  unfold charged
  induction s.places.toList with
  | nil => rfl
  | cons p ps ih =>
    rw [List.map_cons, Size.total_cons, ← ih]
    cases p with
    | none => simp [Seat.share]
    | some seat =>
      by_cases h : seat.home = home <;> simp [Seat.share, h]

theorem charged_set (hu : u.places = s.places.setIfInBounds place p) (hp : place < s.places.size)
    (home : Nat) :
    u.charged home + Seat.share home (s.seatAt? place) = s.charged home + Seat.share home p := by
  have hat : s.seatAt? place = s.places.toList[place] := by
    rw [seatAt?, Array.getElem?_eq_getElem hp]; rfl
  rw [charged_eq, charged_eq, hu, Array.toList_setIfInBounds, hat]
  exact total_map_set _ _ hp p

theorem charged_eq_zero (h : ∀ i seat, s.seatAt? i = some seat → seat.home ≠ home) :
    s.charged home = 0 := by
  rw [charged_eq]
  apply Size.total_eq_zero
  intro n hn
  obtain ⟨p, hp, rfl⟩ := List.mem_map.1 hn
  cases p with
  | none => rfl
  | some seat =>
    obtain ⟨i, hi, hget⟩ := List.getElem_of_mem hp
    refine if_neg (h i seat (seatAt?_eq_some.2 ?_))
    rw [← Array.getElem?_toList, List.getElem?_eq_getElem hi, hget]

/-! ## Accounts and what is in hand -/

/-- Every account holds what is in the places of its columns and what is in hand, within a limit
that never changes, and there is one for every column. -/
structure Balanced (s : Session t) (limits : List Nat) (inHand : Nat → Nat) : Prop where
  held : ∀ home (a : Allocator), s.allocators[home]? = some a → a.Accounts (s.charged home + inHand home)
  housed : ∀ i seat, s.seatAt? i = some seat → seat.home < s.allocators.size
  limits : ∀ i l : Nat, limits[i]? = some l → (s.allocators[i]?).map Allocator.limit = some l

/-- The session with a place emptied, its column being in hand. -/
def without (s : Session t) (place : Nat) : Session t :=
  { s with places := s.places.setIfInBounds place none }

namespace Balanced

theorem put (h : s.Balanced limits inHand') (hp : place < s.places.size)
    (hempty : s.seatAt? place = none) (hin : ∀ i, inHand' i = inHand i + Seat.share i p)
    (hhome : ∀ seat, p = some seat → seat.home < s.allocators.size) :
    Session.Balanced { s with places := s.places.setIfInBounds place p } limits inHand := by
  refine ⟨fun i a ha => ?_, fun i seat hseat => ?_, h.limits⟩
  · have hsum := charged_set (u := { s with places := s.places.setIfInBounds place p }) rfl hp i
    rw [hempty, Seat.share, Nat.add_zero] at hsum
    rw [hsum, Nat.add_assoc, Nat.add_comm (Seat.share i p), ← hin]
    exact h.held i a ha
  · rw [seatAt?_set (s := s) rfl hp] at hseat
    split at hseat
    · exact hhome seat hseat
    · exact h.housed i seat hseat

theorem take (h : s.Balanced limits inHand) (hp : place < s.places.size) :
    (s.without place).Balanced limits fun i => inHand i + Seat.share i (s.seatAt? place) := by
  refine ⟨fun i a ha => ?_, fun i seat hseat => ?_, h.limits⟩
  · have hsum := charged_set (u := s.without place) rfl hp i
    rw [Seat.share, Nat.add_zero] at hsum
    rw [Nat.add_comm (inHand i), ← Nat.add_assoc, hsum]
    exact h.held i a ha
  · rw [seatAt?_set (s := s) rfl hp] at hseat
    split at hseat
    · cases hseat
    · exact h.housed i seat hseat

theorem settle (h : s.Balanced limits inHand') (inHand : Nat → Nat)
    (ha : s.allocators[home]? = some a)
    (hin : ∀ i, i ≠ home → inHand' i = inHand i)
    (hb : b.Accounts (s.charged home + inHand home) ∧ b.limit = a.limit) :
    Session.Balanced { s with allocators := s.allocators.setIfInBounds home b } limits inHand := by
  obtain ⟨hlt, -⟩ := Array.getElem?_eq_some_iff.1 ha
  refine ⟨fun i c hc => ?_, fun i seat hseat => ?_, fun i l hl => ?_⟩
  · rw [Array.getElem?_setIfInBounds] at hc
    split at hc
    · rename_i hi
      subst hi
      cases hc
      exact hb.1
    · rename_i hi
      rw [← hin i (Ne.symm hi)]
      exact h.held i c hc
  · rw [Array.size_setIfInBounds]
    exact h.housed i seat hseat
  · have hlimit := h.limits i l hl
    rw [Array.getElem?_setIfInBounds]
    split
    · rename_i hi
      subst hi
      rw [ha] at hlimit
      rw [← hlimit, Option.map_some, Option.map_some, hb.2]
    · exact hlimit

/-- A column put back, its account having changed. -/
theorem seat {o : Owned t} (h : s.Balanced limits inHand') (hp : place < s.places.size)
    (hempty : s.seatAt? place = none) (ha : s.allocators[home]? = some a)
    (hin : ∀ i, i ≠ home → inHand' i = inHand i)
    (ho : o.allocator.Accounts (s.charged home + inHand home + o.column.footprint) ∧
      o.allocator.limit = a.limit) :
    (s.seat place home o).Balanced limits inHand := by
  have hsettled := h.settle (fun i => inHand i + Seat.share i (some ⟨home, o.column⟩)) ha
    (fun i hi => by rw [hin i hi, Seat.share, if_neg (Ne.symm hi)]; rfl)
    (by rw [Seat.share, if_pos rfl, ← Nat.add_assoc]; exact ho)
  refine hsettled.put hp hempty (fun _ => rfl) fun seat hseat => ?_
  cases hseat
  rw [Array.size_setIfInBounds]
  exact (Array.getElem?_eq_some_iff.1 ha).1

/-- The allocator of a column. -/
theorem exists_allocator {i : Nat} {seat : Seat t} (h : s.Balanced limits inHand)
    (hseat : s.seatAt? i = some seat) : ∃ a, s.allocators[seat.home]? = some a :=
  ⟨_, Array.getElem?_eq_getElem (h.housed i seat hseat)⟩

end Balanced

/-! ## Commands -/

/-- An operation on a session that keeps the accounts, however it ends. What is in hand meanwhile
belongs to allocators that are there already. -/
def Keeps (limits : List Nat) (inHand : Nat → Nat) (op : Call ColumnError (Session t) Unit) :
    Prop :=
  ∀ s, s.Balanced limits inHand → (∀ home, s.allocators.size ≤ home → inHand home = 0) →
    (op s).Sat (fun _ u => u.Balanced limits inHand) (fun _ u => u.Balanced limits inHand) True

theorem seat_without (s : Session t) (o : Owned t) :
    (s.without place).seat place home o = s.seat place home o := by
  simp only [seat, without, Array.setIfInBounds_setIfInBounds]

theorem seat_self {column : Column t} (hs : s.seatAt? place = some ⟨home, column⟩)
    (ha : s.allocators[home]? = some a) : s.seat place home ⟨a, column⟩ = s := by
  obtain ⟨hlt, hget⟩ := Array.getElem?_eq_some_iff.1 ha
  obtain ⟨hlt', hget'⟩ := Array.getElem?_eq_some_iff.1 (seatAt?_eq_some.1 hs)
  simp only [seat, Array.setIfInBounds, dif_pos hlt, dif_pos hlt', ← hget, ← hget',
    Array.set_getElem_self]

/-- Both columns may be taken out before the two are put back. -/
theorem seat_seat_without {i j k l : Nat} (hij : i ≠ j) (s : Session t) (o o' : Owned t) :
    (((s.without i).without j).seat i k o).seat j l o' = (s.seat i k o).seat j l o' := by
  simp only [seat, without]
  rw [Array.setIfInBounds_comm none (some _) (Ne.symm hij), Array.setIfInBounds_setIfInBounds,
    Array.setIfInBounds_setIfInBounds]

theorem size_seat (s : Session t) (o : Owned t) :
    (s.seat place home o).places.size = s.places.size := Array.size_setIfInBounds

theorem seatAt?_seat (hp : place < s.places.size) (o : Owned t) (i : Nat) :
    (s.seat place home o).seatAt? i = if i = place then some ⟨home, o.column⟩ else s.seatAt? i :=
  seatAt?_set rfl hp i

theorem getElem?_seat (ha : s.allocators[home]? = some a) (o : Owned t) (i : Nat) :
    (s.seat place home o).allocators[i]? =
      if i = home then some o.allocator else s.allocators[i]? := by
  obtain ⟨hlt, -⟩ := Array.getElem?_eq_some_iff.1 ha
  simp only [seat, Array.getElem?_setIfInBounds, eq_comm (a := home)]
  split
  · rfl
  · rfl

theorem seatAt?_without (hp : place < s.places.size) (i : Nat) :
    (s.without place).seatAt? i = if i = place then none else s.seatAt? i :=
  seatAt?_set rfl hp i

theorem size_without (s : Session t) (place : Nat) :
    (s.without place).places.size = s.places.size := Array.size_setIfInBounds

theorem modify_of_some (ha : s.allocators[home]? = some a) (f : Allocator → Allocator) :
    s.allocators.modify home f = s.allocators.setIfInBounds home (f a) := by
  obtain ⟨hlt, -⟩ := Array.getElem?_eq_some_iff.1 ha
  refine Array.ext_getElem? fun i => ?_
  rw [Array.getElem?_modify, Array.getElem?_setIfInBounds]
  split
  · rename_i hi
    rw [← hi, ha]
    rfl
  · rfl

theorem size_vacate (s : Session t) (place : Nat) :
    (s.vacate place).places.size = s.places.size := by
  unfold vacate
  split
  · rfl
  · exact Array.size_setIfInBounds

theorem allocators_size_vacate (s : Session t) (place : Nat) :
    (s.vacate place).allocators.size = s.allocators.size := by
  unfold vacate
  split
  · rfl
  · exact Array.size_modify

theorem seatAt?_vacate (s : Session t) (place : Nat) : (s.vacate place).seatAt? place = none := by
  unfold vacate
  split
  · assumption
  · rename_i hseat
    rw [seatAt?_set rfl (lt_of_seatAt? hseat), if_pos rfl]

theorem balanced_vacate (h : s.Balanced limits inHand) (place : Nat) :
    (s.vacate place).Balanced limits inHand := by
  unfold vacate
  split
  · exact h
  rename_i home column hseat
  have hlt := lt_of_seatAt? hseat
  have hout := h.take hlt
  rw [show s.seatAt? place = some ⟨home, column⟩ from hseat] at hout
  obtain ⟨a, ha⟩ := h.exists_allocator hseat
  have hheld := hout.held home a ha
  rw [Seat.share, if_pos rfl, ← Nat.add_assoc] at hheld
  rw [modify_of_some ha]
  exact hout.settle inHand ha (fun i hi => by rw [Seat.share, if_neg (Ne.symm hi)]; rfl)
    (Owned.clear_settles ⟨a, column⟩ _ hheld)

/-- Changing the column in a place that holds one. -/
theorem alter_apply {column : Column t} (hs : s.seatAt? place = some ⟨home, column⟩)
    (ha : s.allocators[home]? = some a) (op : Op t Unit) :
    alter place op s = (op ⟨a, column⟩).lift id (s.seat place home) := by
  have hput : (s.without place).seat place home = s.seat place home :=
    funext fun o => seat_without s o
  unfold seatAt? at hs
  simp only [alter, hs, ha]
  rw [← hput]
  rfl

theorem alter_keeps {op : Op t Unit} (hop : Op.Settles op) (place : Nat) :
    Keeps limits inHand (alter place op) := by
  intro s h _
  cases hseat : s.seatAt? place with
  | none =>
    unfold seatAt? at hseat
    simp only [alter, hseat]
    trivial
  | some seat =>
    obtain ⟨home, column⟩ := seat
    obtain ⟨a, ha⟩ := h.exists_allocator hseat
    have hlt := lt_of_seatAt? hseat
    have hout := h.take hlt
    have hempty : (s.without place).seatAt? place = none := by rw [seatAt?_without hlt, if_pos rfl]
    rw [hseat] at hout
    have hheld := hout.held home a ha
    rw [Seat.share, if_pos rfl, ← Nat.add_assoc] at hheld
    have hback : ∀ o, (Owned.mk a column).Settles o →
        (s.seat place home o).Balanced limits inHand := fun o ho => by
      rw [← seat_without]
      exact hout.seat (by rw [size_without]; exact hlt) hempty ha
        (fun i hi => by rw [Seat.share, if_neg (Ne.symm hi)]; rfl) (ho _ hheld)
    rw [alter_apply hseat ha]
    exact Outcome.sat_lift.2 ((hop ⟨a, column⟩).mono (fun _ o ho => hback o ho)
      (fun _ o ho => hback o ho) id)

theorem create_keeps {make : Call ColumnError Allocator (Column t)} (hmake : Column.Pays make)
    (place home : Nat) : Keeps limits inHand (create place home make) := by
  intro s h _
  unfold create
  split
  · trivial
  rename_i hlt
  split
  · trivial
  rename_i a ha
  have hsat := hmake a _ (h.held home a ha)
  cases hr : make a with
  | breach => trivial
  | refused e b =>
    rw [hr] at hsat
    exact h.settle _ ha (fun _ _ => rfl) hsat
  | done column b =>
    rw [hr] at hsat
    -- the new column is in hand while the place is emptied
    have hmade := h.settle (fun i => inHand i + Seat.share i (some ⟨home, column⟩)) ha
      (fun i hi => by rw [Seat.share, if_neg (Ne.symm hi)]; rfl)
      (by rw [Seat.share, if_pos rfl, ← Nat.add_assoc]; exact hsat)
    refine (balanced_vacate hmade place).put (by rw [size_vacate]; exact Nat.lt_of_not_le hlt)
      (seatAt?_vacate _ place) (fun _ => rfl) fun seat hseat => ?_
    cases hseat
    rw [allocators_size_vacate, Array.size_setIfInBounds]
    exact (Array.getElem?_eq_some_iff.1 ha).1

theorem createApart_keeps {make : Call ColumnError Allocator (Column t)} (hmake : Column.Pays make)
    (place : Nat) : Keeps limits inHand (createApart place make) := by
  intro s h hnew
  refine create_keeps hmake place s.allocators.size _
    ⟨fun i a ha => ?_, fun i seat hseat => ?_, fun i l hl => ?_⟩ fun home hhome => ?_
  · rw [Array.getElem?_push] at ha
    split at ha
    · rename_i hi
      cases ha
      have hzero : s.charged i = 0 := charged_eq_zero fun j seat hseat => by
        have := h.housed j seat hseat
        omega
      rw [show Session.charged { s with allocators := s.allocators.push .unlimited } i = 0 from hzero,
        hnew i (by omega)]
      exact ⟨rfl, Nat.zero_le _, Nat.le_refl _, rfl⟩
    · exact h.held i a ha
  · rw [Array.size_push]
    exact Nat.lt_succ_of_lt (h.housed i seat hseat)
  · have hlimit := h.limits i l hl
    rw [Array.getElem?_push, if_neg]
    · exact hlimit
    · rintro rfl
      rw [Array.getElem?_eq_none (Nat.le_refl _)] at hlimit
      cases hlimit
  · rw [Array.size_push] at hhome
    exact hnew home (by omega)

theorem charged_seat (hp : place < s.places.size) (hempty : s.seatAt? place = none) (o : Owned t)
    (i : Nat) :
    (s.seat place home o).charged i = s.charged i + Seat.share i (some ⟨home, o.column⟩) := by
  have := charged_set (u := s.seat place home o) rfl hp i
  rwa [hempty, Seat.share, Nat.add_zero] at this

/-! ## Transfers -/

section transfer

variable {source dest : Nat} {giver taker : Seat t}

/-- Moving the slots of one place to another, within an account. -/
theorem transfer_apply_shared (hne : source ≠ dest) (hgiver : s.seatAt? source = some giver)
    (htaker : s.seatAt? dest = some taker) (hhome : giver.home = taker.home)
    (ha : s.allocators[giver.home]? = some a) :
    transfer source dest s =
      (Pair.transfer ⟨.shared a, giver.column, taker.column⟩).lift id fun p =>
        (s.seat source giver.home ⟨p.homes.source, p.source⟩).seat dest taker.home
          ⟨p.homes.dest, p.dest⟩ := by
  unfold seatAt? at hgiver htaker
  simp only [transfer, if_neg hne, hgiver, htaker, if_pos hhome, ha, Option.map_some]

/-- Moving them to another account. -/
theorem transfer_apply_separate (hne : source ≠ dest) (hgiver : s.seatAt? source = some giver)
    (htaker : s.seatAt? dest = some taker) (hhome : giver.home ≠ taker.home)
    (ha : s.allocators[giver.home]? = some a) (hb : s.allocators[taker.home]? = some b) :
    transfer source dest s =
      (Pair.transfer ⟨.separate a b, giver.column, taker.column⟩).lift id fun p =>
        (s.seat source giver.home ⟨p.homes.source, p.source⟩).seat dest taker.home
          ⟨p.homes.dest, p.dest⟩ := by
  unfold seatAt? at hgiver htaker
  simp only [transfer, if_neg hne, hgiver, htaker, if_neg hhome, ha, hb, Option.bind_eq_bind,
    Option.bind_some, Option.pure_def]

/-- A transfer has a place to take from and another place to bring to. -/
theorem transfer_cases (source dest : Nat) (s : Session t) :
    transfer source dest s = .breach ∨ ∃ giver taker, source ≠ dest ∧
      s.seatAt? source = some giver ∧ s.seatAt? dest = some taker := by
  unfold transfer
  split
  · exact .inl rfl
  · rename_i hne
    split
    · rename_i giver taker hgiver htaker
      exact .inr ⟨giver, taker, hne, hgiver, htaker⟩
    · exact .inl rfl

/-- Two columns put back one after the other, each with its account. -/
theorem Balanced.seat_seat {o o' : Owned t} {k l : Nat} (h : s.Balanced limits inHand')
    (mid : Nat → Nat) (hne : source ≠ dest)
    (hsrc : source < s.places.size) (hdst : dest < s.places.size)
    (hsrc' : s.seatAt? source = none) (hdst' : s.seatAt? dest = none)
    (ha : s.allocators[k]? = some a) (hmid : ∀ i, i ≠ k → inHand' i = mid i)
    (ho : o.allocator.Accounts (s.charged k + mid k + o.column.footprint) ∧
      o.allocator.limit = a.limit)
    (hb : (if l = k then some o.allocator else s.allocators[l]?) = some b)
    (hin : ∀ i, i ≠ l → mid i = inHand i)
    (ho' : o'.allocator.Accounts (s.charged l + Seat.share l (some ⟨k, o.column⟩) + inHand l +
      o'.column.footprint) ∧ o'.allocator.limit = b.limit) :
    ((s.seat source k o).seat dest l o').Balanced limits inHand := by
  have hfirst := h.seat hsrc hsrc' ha hmid ho
  refine hfirst.seat (by rw [size_seat]; exact hdst) ?_ (by rw [getElem?_seat ha]; exact hb) hin ?_
  · rw [seatAt?_seat hsrc, if_neg (Ne.symm hne), hdst']
  · rw [charged_seat hsrc hsrc']
    exact ho'

/-- A session with two places emptied. -/
theorem seatAt?_without_without (hsrc : source < s.places.size) (hdst : dest < s.places.size)
    (i : Nat) : ((s.without source).without dest).seatAt? i =
      if i = dest then none else if i = source then none else s.seatAt? i := by
  rw [seatAt?_without (by rw [size_without]; exact hdst), seatAt?_without hsrc]

/-- A session with the columns of two places in hand. -/
theorem Balanced.take_take (h : s.Balanced limits inHand) (hne : source ≠ dest)
    (hgiver : s.seatAt? source = some giver) (htaker : s.seatAt? dest = some taker) :
    ((s.without source).without dest).Balanced limits fun i =>
      inHand i + Seat.share i (some giver) + Seat.share i (some taker) := by
  have hsrc := lt_of_seatAt? hgiver
  have hdst : dest < (s.without source).places.size := by
    rw [size_without]
    exact lt_of_seatAt? htaker
  have htaken := (h.take hsrc).take hdst
  rwa [seatAt?_without hsrc, if_neg (Ne.symm hne), htaker, hgiver] at htaken

/-- What each end of a transfer leaves, once both columns are back in their places. -/
theorem Balanced.transferred {o o' : Owned t} (h : s.Balanced limits inHand) (hne : source ≠ dest)
    (hgiver : s.seatAt? source = some giver) (htaker : s.seatAt? dest = some taker)
    (mid : Nat → Nat) (ha : s.allocators[giver.home]? = some a)
    (hmid : ∀ i, i ≠ giver.home → inHand i + Seat.share i (some taker) = mid i)
    (ho : o.allocator.Accounts (((s.without source).without dest).charged giver.home +
      mid giver.home + o.column.footprint) ∧ o.allocator.limit = a.limit)
    (hb : (if taker.home = giver.home then some o.allocator else s.allocators[taker.home]?) = some b)
    (hin : ∀ i, i ≠ taker.home → mid i = inHand i)
    (ho' : o'.allocator.Accounts (((s.without source).without dest).charged taker.home +
      Seat.share taker.home (some ⟨giver.home, o.column⟩) + inHand taker.home +
      o'.column.footprint) ∧ o'.allocator.limit = b.limit) :
    ((s.seat source giver.home o).seat dest taker.home o').Balanced limits inHand := by
  have hsrc := lt_of_seatAt? hgiver
  have hdst := lt_of_seatAt? htaker
  have hsize : ((s.without source).without dest).places.size = s.places.size := by
    rw [size_without, size_without]
  have htaken := h.take_take hne hgiver htaker
  rw [← seat_seat_without hne]
  refine htaken.seat_seat mid hne (by rw [hsize]; exact hsrc) (by rw [hsize]; exact hdst) ?_ ?_ ha
    (fun i hi => ?_) ho hb hin ho'
  · rw [seatAt?_without_without hsrc hdst, if_neg hne, if_pos rfl]
  · rw [seatAt?_without_without hsrc hdst, if_pos rfl]
  · rw [← hmid i hi, Seat.share, if_neg (Ne.symm hi)]
    rfl

/-- An account of two columns holds both. -/
theorem Balanced.held_shared (h : s.Balanced limits inHand) (hne : source ≠ dest)
    (hgiver : s.seatAt? source = some giver) (htaker : s.seatAt? dest = some taker)
    (hhome : giver.home = taker.home) (ha : s.allocators[giver.home]? = some a) :
    a.Accounts (((s.without source).without dest).charged giver.home + inHand giver.home +
      giver.column.footprint + taker.column.footprint) := by
  have hheld := (h.take_take hne hgiver htaker).held giver.home a ha
  rwa [Seat.share, if_pos rfl, Seat.share, if_pos hhome.symm, ← Nat.add_assoc, ← Nat.add_assoc]
    at hheld

/-- Two accounts hold one each. -/
theorem Balanced.held_separate (h : s.Balanced limits inHand) (hne : source ≠ dest)
    (hgiver : s.seatAt? source = some giver) (htaker : s.seatAt? dest = some taker)
    (hhome : giver.home ≠ taker.home) (ha : s.allocators[giver.home]? = some a)
    (hb : s.allocators[taker.home]? = some b) :
    a.Accounts (((s.without source).without dest).charged giver.home + inHand giver.home +
        giver.column.footprint) ∧
      b.Accounts (((s.without source).without dest).charged taker.home + inHand taker.home +
        taker.column.footprint) := by
  have htaken := h.take_take hne hgiver htaker
  have hgives := htaken.held giver.home a ha
  have htakes := htaken.held taker.home b hb
  rw [Seat.share, if_pos rfl, Seat.share, if_neg (Ne.symm hhome), Nat.add_zero, ← Nat.add_assoc]
    at hgives
  rw [Seat.share, if_neg hhome, Seat.share, if_pos rfl, Nat.add_zero, ← Nat.add_assoc] at htakes
  exact ⟨hgives, htakes⟩

theorem transfer_keeps_shared (h : s.Balanced limits inHand) (hne : source ≠ dest)
    (hgiver : s.seatAt? source = some giver) (htaker : s.seatAt? dest = some taker)
    (hhome : giver.home = taker.home) :
    (transfer source dest s).Sat (fun _ u => u.Balanced limits inHand)
      (fun _ u => u.Balanced limits inHand) True := by
  obtain ⟨a, ha⟩ := h.exists_allocator hgiver
  obtain ⟨b, htransfer, hb, hl⟩ :=
    Pair.transfer_shared (h.held_shared hne hgiver htaker hhome ha)
  rw [transfer_apply_shared hne hgiver htaker hhome ha, htransfer]
  refine h.transferred hne hgiver htaker
    (fun i => if i = giver.home then inHand i + giver.column.footprint else inHand i) ha
    (fun i hi => ?_) ⟨?_, hl⟩ (if_pos hhome.symm) (fun i hi => ?_) ⟨?_, rfl⟩
  · rw [if_neg hi, Seat.share, if_neg (by omega), Nat.add_zero]
  · rw [if_pos rfl, ← Nat.add_assoc]
    exact hb
  · rw [if_neg (by omega)]
  · rw [← hhome, Seat.share, if_pos rfl]
    exact hb

theorem transfer_keeps_separate (h : s.Balanced limits inHand) (hne : source ≠ dest)
    (hgiver : s.seatAt? source = some giver) (htaker : s.seatAt? dest = some taker)
    (hhome : giver.home ≠ taker.home) :
    (transfer source dest s).Sat (fun _ u => u.Balanced limits inHand)
      (fun _ u => u.Balanced limits inHand) True := by
  obtain ⟨a, ha⟩ := h.exists_allocator hgiver
  obtain ⟨b, hb⟩ := h.exists_allocator htaker
  obtain ⟨hgives, htakes⟩ := h.held_separate hne hgiver htaker hhome ha hb
  rw [transfer_apply_separate hne hgiver htaker hhome ha hb]
  refine Outcome.sat_lift.2 ((Pair.transfer_separate hgives htakes).mono (fun _ p hp => ?_)
    (fun _ p hp => ?_) False.elim)
  · obtain ⟨a', b', rfl, ⟨ha', hla⟩, hb', hlb⟩ := hp
    refine h.transferred hne hgiver htaker (fun i => inHand i + Seat.share i (some taker)) ha
      (fun _ _ => rfl) ⟨?_, hla⟩ ((if_neg (Ne.symm hhome)).trans hb) (fun i hi => ?_) ⟨?_, hlb⟩
    · rw [Seat.share, if_neg (Ne.symm hhome)]
      exact ha'
    · rw [Seat.share, if_neg (Ne.symm hi), Nat.add_zero]
    · rw [Seat.share, if_neg hhome]
      exact hb'
  · subst hp
    have hback : s.seat source giver.home ⟨a, giver.column⟩ = s := seat_self hgiver ha
    have hback' : s.seat dest taker.home ⟨b, taker.column⟩ = s := seat_self htaker hb
    simp only [Homes.source, Homes.dest, hback, hback']
    exact h

theorem transfer_keeps (source dest : Nat) :
    Keeps limits inHand (transfer source dest : Call ColumnError (Session t) Unit) := by
  intro s h _
  rcases transfer_cases source dest s with hbreach | ⟨giver, taker, hne, hgiver, htaker⟩
  · rw [hbreach]
    trivial
  · by_cases hhome : giver.home = taker.home
    · exact transfer_keeps_shared h hne hgiver htaker hhome
    · exact transfer_keeps_separate h hne hgiver htaker hhome

end transfer

/-! ## Every command -/

theorem alterFrom_keeps {op : Column t → Op t Unit} (hop : ∀ c, Op.Settles (op c))
    (source dest : Nat) : Keeps limits inHand (alterFrom source dest op) := fun s h hnew =>
  Call.sat_bind.2 (Call.sat_bind.2 (Call.sat_require.2
    ⟨fun c _ => alter_keeps (hop c) dest s h hnew, fun _ => trivial⟩))

theorem run_keeps (c : Command) :
    Keeps limits inHand (run c : Call ColumnError (Session t) Unit) := by
  cases c with
  | create place home field settings =>
    intro s h hnew
    refine Call.sat_bind.2 (Call.sat_ofExcept.2 ⟨fun c hc => ?_, fun _ _ => h⟩)
    refine create_keeps (Column.pays_pure ?_) place home s h hnew
    unfold Column.ofField at hc
    split at hc
    · cases hc; rfl
    · cases hc
  | createOfArrow place home name a => exact create_keeps (Column.ofArrow_pays name a) place home
  | createOfValues place values => exact createApart_keeps (Column.ofValues_pays values) place
  | createCounterpart source place home name =>
    exact fun s h hnew => Call.sat_bind.2 (Call.sat_bind.2 (Call.sat_require.2
      ⟨fun c _ => create_keeps (Column.pays_pure rfl) place home s h hnew, fun _ => trivial⟩))
  | drop place => exact fun s h _ => balanced_vacate h place
  | edit place e => exact alter_keeps e.run_settles place
  | transfer source dest => exact transfer_keeps source dest
  | copyRange source dest start length =>
    exact alterFrom_keeps (fun c => Column.copyRange_settles c start length) source dest
  | copySlot source dest i j =>
    exact alterFrom_keeps (fun c => Column.copySlot_settles c i j) source dest
  | copySlotWithin source dest i j =>
    exact alterFrom_keeps (fun c => Column.copySlotWithin_settles c i j) source dest

end Session

end PackedColumn
