import Mathlib.Algebra.Group.Nat.Defs
import PackedColumn.Proofs.Reserves

/-!
# Growth that doubles

A column that has to grow takes at least twice what it had, of slots and of
value bytes each. The slots are as many as the flags and the offsets both have
room for, which come in granules of their own; so it is their number, and not
the sizes of the two buffers, that doubles. However many values are pushed, the
capacities then change no more often than they double below what is pushed.

* `Size.Doubles`: a capacity before and after, and what is needed; `Column.Doubles`: both of them.
* `Encodes.makeRoom_doubles`: room for a write, and `Edit.run_doubles`: an edit that is done.
* `Column.pow_changes`: the changes of a capacity along a run of pushes, by induction on them.
* `Workspace.Reachable.grows_geometrically`: any column that ever arises.
-/

namespace PackedColumn

/-- A capacity is not lowered. If there was some, and it changes, it was too small for what is needed,
suffices now, and is twice as large or more. -/
structure Size.Doubles (before after needed : Nat) : Prop where
  le : before ≤ after
  of_ne : 0 < before → after ≠ before → before < needed ∧ needed ≤ after ∧ 2 * before ≤ after

namespace Size.Doubles

variable {before after needed needed' : Nat}

theorem refl (n needed : Nat) : Doubles n n needed := ⟨Nat.le_refl n, fun _ h => absurd rfl h⟩

/-- What is needed may come to more in the end, as long as it is had. -/
theorem mono (h : Doubles before after needed) (hle : needed ≤ needed') (hafter : needed' ≤ after) :
    Doubles before after needed' := by
  refine ⟨h.le, fun hpos hne => ?_⟩
  obtain ⟨hshort, -, htwice⟩ := h.of_ne hpos hne
  exact ⟨Nat.lt_of_lt_of_le hshort hle, hafter, htwice⟩

end Size.Doubles

/-- For more than it holds, a store asks for twice that as well. -/
theorem ValueStore.reserve_eq_max {s : ValueStore} {needed : Nat} (h : s.capacity < needed) :
    s.reserve needed = s.reserve (max needed (2 * s.capacity)) := by
  rw [reserve_eq, reserve_eq, if_neg (by omega), if_neg (by omega)]
  congr 2
  omega

namespace Column

variable {t : ColumnType} {c d : Column t} {s u v : Owned t} {xs ys : Slots} {i n length : Nat}
  {D : Unit → Owned t → Prop}

/-- Both capacities of a column, before and after a change that needs so many slots and bytes. -/
structure Doubles (c d : Column t) (slots bytes : Nat) : Prop where
  slots : Size.Doubles c.slotCapacity d.slotCapacity slots
  bytes : Size.Doubles c.byteCapacity d.byteCapacity bytes

/-! ## Room for a write -/

theorem growValues_doubles (h : s.column.byteCapacity < n) (hdone : growValues n s = .done () u) :
    s.GrowsTo u ∧ Size.Doubles s.column.byteCapacity u.column.byteCapacity n ∧
      u.column.slotCapacity = s.column.slotCapacity := by
  obtain ⟨values, -, hu⟩ := of_request_done hdone
  have heq : growValues n s = growValues (max n (2 * s.column.byteCapacity)) s := by
    simp only [growValues, Op.request, ValueStore.reserve_eq_max h]
    rfl
  have hgrown := (growValues_sat _ s).of_done (heq ▸ hdone)
  refine ⟨hgrown.1, ⟨hgrown.1.column.byteCapacity_le, fun _ _ => ⟨h, ?_, ?_⟩⟩, by rw [hu]; rfl⟩
  · exact Nat.le_trans (Nat.le_max_left ..) hgrown.2
  · exact Nat.le_trans (Nat.le_max_right ..) hgrown.2

theorem growSlots_doubles {slots wish : Nat} (h : s.column.slotCapacity < slots)
    (hwish : 0 < s.column.slotCapacity → wish = 2 * s.column.slotCapacity)
    (hdone : growSlots (max slots wish) s = .done () u) :
    Size.Doubles s.column.slotCapacity u.column.slotCapacity slots ∧
      u.column.byteCapacity = s.column.byteCapacity := by
  obtain ⟨hgrown, hslots⟩ := (growSlots_sat _ s).of_done hdone
  obtain ⟨⟨⟩, v, hentries, hflags⟩ := Outcome.bind_eq_done_iff.1 hdone
  obtain ⟨offsets, -, hv⟩ := of_request_done hentries
  obtain ⟨validity, -, hu⟩ := of_request_done hflags
  refine ⟨⟨hgrown.column.slotCapacity_le, fun hpos _ => ⟨h, ?_, ?_⟩⟩, by rw [hu, hv]; rfl⟩
  · exact Nat.le_trans (Nat.le_max_left ..) hslots
  · rw [← hwish hpos]
    exact Nat.le_trans (Nat.le_max_right ..) hslots

/-- The first half of making room, before the rest of an operation. -/
theorem growValues_before_doubles {rest : Op t Unit}
    (hdone : (if s.column.byteCapacity < n then growValues n >>= fun _ => rest else rest) s =
      .done () u) :
    ∃ v, rest v = .done () u ∧ s.GrowsTo v ∧
      Size.Doubles s.column.byteCapacity v.column.byteCapacity n ∧
      v.column.slotCapacity = s.column.slotCapacity := by
  split at hdone
  · rename_i hshort
    obtain ⟨⟨⟩, v, hvalues, hrest⟩ := Outcome.bind_eq_done_iff.1 hdone
    exact ⟨v, hrest, growValues_doubles hshort hvalues⟩
  · exact ⟨s, hdone, .refl s, .refl _ _, rfl⟩

/-- The second half. -/
theorem growSlots_after_doubles {wish : Nat}
    (hwish : 0 < s.column.slotCapacity → wish = 2 * s.column.slotCapacity)
    (hdone : (if s.column.slotCapacity ≤ i then do
        let slots ← Call.require (Size.add? i 1)
        growSlots (max slots wish)
      else pure ()) s = .done () u) :
    Size.Doubles s.column.slotCapacity u.column.slotCapacity (i + 1) ∧
      u.column.byteCapacity = s.column.byteCapacity := by
  split at hdone
  · rename_i hshort
    cases hadd : Size.add? i 1 with
    | none =>
      rw [hadd] at hdone
      cases hdone
    | some slots =>
      obtain ⟨rfl, -⟩ := Size.add?_eq_some_iff.1 hadd
      rw [hadd] at hdone
      exact growSlots_doubles (Nat.lt_succ_of_le hshort) hwish hdone
  · cases hdone
    exact ⟨.refl _ _, rfl⟩

theorem Encodes.makeRoom_doubles (h : s.column.Encodes xs)
    (hdone : makeRoom i length s = .done () u) :
    s.column.Doubles u.column (i + 1) (xs.sizeWith i length) := by
  unfold makeRoom at hdone
  rw [Call.bind_of_done (Op.column_apply s)] at hdone
  obtain ⟨needed, v, hneeded, -⟩ := Outcome.bind_eq_done_iff.1 hdone
  obtain ⟨rfl, rfl⟩ := (h.neededBytes_sat i length s).of_done hneeded
  rw [Call.bind_of_done hneeded] at hdone
  by_cases hmax : t.width.max < xs.sizeWith i length
  · rw [if_pos hmax] at hdone
    cases hdone
  rw [if_neg hmax] at hdone
  obtain ⟨w, hslots, hgrown, hbytes, hsame⟩ := growValues_before_doubles hdone
  dsimp only at hslots
  rw [← hsame] at hslots
  obtain ⟨hslots, hsame'⟩ := growSlots_after_doubles (fun hpos => if_neg (Nat.ne_of_gt hpos)) hslots
  refine ⟨hsame ▸ hslots, ?_⟩
  rw [hsame']
  refine ⟨hbytes.le, fun hpos => ?_⟩
  have := hbytes.of_ne hpos
  rwa [if_neg (Nat.ne_of_gt hpos)] at this

/-! ## Operations -/

/-- Once there is room, a change within it leaves the capacities as they are. -/
theorem Doubles.of_inPlace {slots bytes : Nat} (h : c.Doubles v.column slots bytes)
    (hplace : v.column.InPlace d) (hd : d.Encodes ys) (hslots : slots ≤ ys.length)
    (hbytes : bytes ≤ ys.bytes.length) : c.Doubles d ys.length ys.bytes.length := by
  obtain ⟨hs, hb⟩ := h
  rw [← hplace.slotCapacity_eq] at hs
  rw [← hplace.byteCapacity_eq] at hb
  exact ⟨hs.mono hslots hd.le_slotCapacity, hb.mono hbytes hd.byteCapacity⟩

theorem Encodes.set_doubles (h : s.column.Encodes xs) {x : Option Blob}
    (hdone : set i x s = .done () u) :
    s.column.Doubles u.column (xs.put i (x.map Blob.toList)).length
      (xs.put i (x.map Blob.toList)).bytes.length := by
  have hu := ((h.set_sat i x).of_done hdone).1
  obtain ⟨⟨⟩, v, hroom, hchange⟩ := Outcome.bind_eq_done_iff.1 hdone
  have hplace := put?_inPlace ((Op.change_sat _ v).of_done hchange)
  refine (h.makeRoom_doubles hroom).of_inPlace hplace hu ?_ ?_
  · rw [Slots.length_put]
    exact Nat.le_max_right ..
  · exact Nat.le_of_eq (by rw [Slots.length_bytes_put, Slots.length_value_map])

theorem Encodes.setCount_doubles (h : s.column.Encodes xs) (hdone : setCount n s = .done () u) :
    s.column.Doubles u.column (xs.resize n).length (xs.resize n).bytes.length := by
  have hu := (h.setCount_sat n).of_done hdone
  unfold setCount at hdone
  rw [Call.bind_of_done (Op.column_apply s)] at hdone
  by_cases hn : s.column.slotCapacity < n
  · rw [if_pos hn] at hdone
    obtain ⟨⟨⟩, v, hslots, hchange⟩ := Outcome.bind_eq_done_iff.1 hdone
    have hplace := follow?_inPlace ((Op.change_sat _ v).of_done hchange)
    obtain ⟨hgrown, hsame⟩ := growSlots_doubles hn (fun _ => rfl) hslots
    have hdoubles : s.column.Doubles v.column n 0 := ⟨hgrown, hsame ▸ .refl _ _⟩
    have hlength : n = (xs.resize n).length := (Slots.length_resize xs n).symm
    exact hdoubles.of_inPlace hplace hu (Nat.le_of_eq hlength) (Nat.zero_le _)
  · rw [if_neg hn] at hdone
    have hplace := follow?_inPlace ((Op.change_sat _ s).of_done hdone)
    have hdoubles : s.column.Doubles s.column 0 0 := ⟨.refl _ _, .refl _ _⟩
    exact hdoubles.of_inPlace hplace hu (Nat.zero_le _) (Nat.zero_le _)

theorem Encodes.padTo_doubles (h : s.column.Encodes xs) (hdone : padTo n s = .done () u) :
    s.column.Doubles u.column (xs.padTo n).length (xs.padTo n).bytes.length := by
  have hu := (h.padTo_sat n).of_done hdone
  unfold padTo at hdone
  by_cases hn : 0 < n
  · rw [if_pos hn] at hdone
    obtain ⟨⟨⟩, v, hroom, hchange⟩ := Outcome.bind_eq_done_iff.1 hdone
    have hplace := follow?_inPlace ((Op.change_sat _ v).of_done hchange)
    refine (h.makeRoom_doubles hroom).of_inPlace hplace hu ?_ ?_
    · rw [Slots.length_padTo, Nat.sub_add_cancel hn]
      exact Nat.le_max_right ..
    · rw [Slots.bytes_padTo]
      exact Nat.sub_le ..
  · rw [if_neg hn] at hdone
    have hplace := follow?_inPlace ((Op.change_sat _ s).of_done hdone)
    have hdoubles : s.column.Doubles s.column 0 0 := ⟨.refl _ _, .refl _ _⟩
    exact hdoubles.of_inPlace hplace hu (Nat.zero_le _) (Nat.zero_le _)

theorem Encodes.push_doubles (h : s.column.Encodes xs) {x : Option Blob}
    (hdone : push x s = .done () u) :
    s.column.Doubles u.column (xs ++ [x.map Blob.toList]).length
      (xs ++ [x.map Blob.toList]).bytes.length := by
  rw [← Slots.put_length]
  rw [push, h.count] at hdone
  exact h.set_doubles hdone

end Column

namespace Edit

/-- The edits that write slots or say how many there are, and make room for that. -/
def MakesRoom : Edit → Prop
  | set .. | setText .. | push _ | pushText _ | setCount _ | padTo _ => True
  | _ => False

variable {t : ColumnType} {s u : Owned t} {xs : Slots} {e : Edit}

theorem run_doubles (h : s.column.Encodes xs) (he : e.MakesRoom) (hdone : e.run s = .done () u) :
    s.column.Doubles u.column (e.onSlots xs).length (e.onSlots xs).bytes.length := by
  cases e with
  | set i x => exact h.set_doubles hdone
  | setText i text => exact h.set_doubles (x := some (.ofText text)) hdone
  | push x => exact h.push_doubles hdone
  | pushText text => exact h.push_doubles hdone
  | setCount n => exact h.setCount_doubles hdone
  | padTo n => exact h.padTo_doubles hdone
  | _ => exact he.elim

end Edit

namespace Column

variable {t : ColumnType} {s u : Owned t} {xs : Slots} {ys : List (Option Blob)}
  {capacity : Column t → Nat}

/-! ## Runs of pushes -/

/-- How often a capacity changes while values are pushed. -/
def changes (capacity : Column t → Nat) : List (Option Blob) → Owned t → Nat
  | [], _ => 0
  | y :: ys, s =>
    match push y s with
    | .done _ u => (if capacity u.column = capacity s.column then 0 else 1) + changes capacity ys u
    | _ => 0

theorem changes_cons {y : Option Blob} (h : push y s = .done () u) :
    changes capacity (y :: ys) s =
      (if capacity u.column = capacity s.column then 0 else 1) + changes capacity ys u := by
  rw [changes, h]

/-- A capacity that doubles when it changes has been twice as large for each change, the last of
which was for more than it was before. -/
theorem pow_changes (needed : Slots → Nat) (hmono : ∀ xs ys, needed xs ≤ needed (xs ++ ys))
    (hdoubles : ∀ (s u : Owned t) (xs : Slots) (y : Option Blob), s.column.Encodes xs →
      push y s = .done () u → Size.Doubles (capacity s.column) (capacity u.column)
        (needed (xs ++ [y.map Blob.toList])))
    (h : s.column.Encodes xs) (hpos : 0 < capacity s.column) (hdone : pushAll ys s = .done () u) :
    2 ^ changes capacity ys s * capacity s.column ≤ capacity u.column ∧
      (0 < changes capacity ys s → 2 ^ (changes capacity ys s - 1) * capacity s.column <
        needed (xs ++ ys.map (·.map Blob.toList))) := by
  induction ys generalizing s xs with
  | nil =>
    cases hdone
    refine ⟨Nat.le_of_eq ?_, fun hk => absurd hk (Nat.lt_irrefl 0)⟩
    rw [changes, Nat.pow_zero, Nat.one_mul]
  | cons y ys ih =>
    obtain ⟨⟨⟩, v, hpush, hrest⟩ := Outcome.bind_eq_done_iff.1 hdone
    have hv := ((h.push_sat y).of_done hpush).1
    have hstep := hdoubles s v xs y h hpush
    obtain ⟨hpow, hlast⟩ := ih hv (Nat.lt_of_lt_of_le hpos hstep.le) hrest
    rw [List.append_assoc] at hlast
    rw [changes_cons hpush]
    generalize changes capacity ys v = k at hpow hlast
    by_cases hsame : capacity v.column = capacity s.column
    · rw [if_pos hsame, Nat.zero_add, ← hsame]
      exact ⟨hpow, hlast⟩
    obtain ⟨hshort, -, htwice⟩ := hstep.of_ne hpos hsame
    rw [if_neg hsame]
    refine ⟨?_, fun _ => ?_⟩
    · calc 2 ^ (1 + k) * capacity s.column
          = 2 ^ k * (2 * capacity s.column) := by rw [Nat.add_comm, Nat.pow_succ, Nat.mul_assoc]
        _ ≤ 2 ^ k * capacity v.column := Nat.mul_le_mul_left _ htwice
        _ ≤ capacity u.column := hpow
    rw [Nat.add_sub_cancel_left]
    rcases Nat.eq_zero_or_pos k with rfl | hk
    · -- The first change was for the value pushed here.
      rw [Nat.pow_zero, Nat.one_mul]
      have hle := hmono (xs ++ [y.map Blob.toList]) (ys.map (·.map Blob.toList))
      rw [List.append_assoc] at hle
      exact Nat.lt_of_lt_of_le hshort hle
    · calc 2 ^ k * capacity s.column
          = 2 ^ (k - 1) * (2 * capacity s.column) := by
            rw [← Nat.mul_assoc, ← Nat.pow_succ, Nat.succ_eq_add_one, Nat.sub_add_cancel hk]
        _ ≤ 2 ^ (k - 1) * capacity v.column := Nat.mul_le_mul_left _ htwice
        _ < needed (xs ++ (y :: ys).map (·.map Blob.toList)) := hlast hk

end Column

/-! ## Columns of a workspace -/

namespace Workspace

open Column (changes pushAll)

variable {t : ColumnType} {w : Workspace} {limits : List Nat} {place : Nat} {seat : Seat t}

/-- For a column of a reachable workspace, whatever its allocator would answer: an edit that makes
room and is done lowers neither capacity, and one that changes from what is there at least doubles
and suffices. So does a run of pushes that is done, of any values, for as many changes as there are:
each capacity has then doubled all but one of these times below the number of slots, or below that
of all value bytes. -/
theorem Reachable.grows_geometrically (h : Reachable limits w)
    (hseat : (w.places t)[place]? = some (some seat)) (a : Allocator) :
    ∃ xs, seat.column.slots? = some xs ∧
      (∀ (e : Edit) (u : Owned t), e.MakesRoom → e.run ⟨a, seat.column⟩ = .done () u →
        u.column.slots? = some (e.onSlots xs) ∧
          seat.column.Doubles u.column (e.onSlots xs).length (e.onSlots xs).bytes.length) ∧
      ∀ (ys : List (Option Blob)) (u : Owned t), pushAll ys ⟨a, seat.column⟩ = .done () u →
        ∃ zs : Slots, u.column.slots? = some zs ∧ zs = xs ++ ys.map (·.map Blob.toList) ∧
          (0 < seat.column.slotCapacity → 0 < changes Column.slotCapacity ys ⟨a, seat.column⟩ →
            2 ^ (changes Column.slotCapacity ys ⟨a, seat.column⟩ - 1) * seat.column.slotCapacity <
              zs.length) ∧
          (0 < seat.column.byteCapacity → 0 < changes Column.byteCapacity ys ⟨a, seat.column⟩ →
            2 ^ (changes Column.byteCapacity ys ⟨a, seat.column⟩ - 1) * seat.column.byteCapacity <
              zs.bytes.length) := by
  obtain ⟨xs, hxs⟩ := h.encoded t place seat (Session.seatAt?_eq_some.2 hseat)
  refine ⟨xs, hxs.slots?, fun e u he hdone => ?_, fun ys u hdone => ?_⟩
  · have hsafe : e.Safe := by
      cases e with
      | overwrite => exact he
      | _ => trivial
    have hu := (Edit.run_sat (s := ⟨a, seat.column⟩) hxs e hsafe).of_done hdone
    exact ⟨hu.slots?, Edit.run_doubles hxs he hdone⟩
  · have hu := ((Column.Encodes.pushAll_sat (s := ⟨a, seat.column⟩) hxs ys).of_done hdone).1
    refine ⟨_, hu.slots?, rfl, fun hpos hk => ?_, fun hpos hk => ?_⟩
    · refine (Column.pow_changes (s := ⟨a, seat.column⟩) List.length (fun xs ys => ?_)
        (fun s u xs y h hpush => (h.push_doubles hpush).slots) hxs hpos hdone).2 hk
      rw [List.length_append]
      exact Nat.le_add_right ..
    · refine (Column.pow_changes (s := ⟨a, seat.column⟩) (fun xs => xs.bytes.length)
        (fun xs ys => ?_) (fun s u xs y h hpush => (h.push_doubles hpush).bytes) hxs hpos
        hdone).2 hk
      rw [Slots.bytes_append, List.length_append]
      exact Nat.le_add_right ..

/-- A value of 63 bytes behind fifteen slots and two bytes, in a column that has room for fifteen slots
and 64 bytes: both capacities change, and what is needed has outgrown what there was. -/
theorem grows_geometrically_of_full : ∃ (w : Workspace) (seat : Seat ⟨.bytes, .narrow⟩)
    (a : Allocator) (u : Owned ⟨.bytes, .narrow⟩) (zs : Slots), Reachable [1024] w ∧
      (w.places ⟨.bytes, .narrow⟩)[0]? = some (some seat) ∧ w.allocators[seat.home]? = some a ∧
      pushAll [some ⟨[7], 63⟩] ⟨a, seat.column⟩ = .done () u ∧ u.column.slots? = some zs ∧
      30 ≤ u.column.slotCapacity ∧ 128 ≤ u.column.byteCapacity ∧
      2 ^ (1 - 1) * 15 < zs.length ∧ 2 ^ (1 - 1) * 64 < zs.bytes.length := by
  have hrun : Yields [1024]
      [.create 0 0 { name := "a", type := ⟨.bytes, .narrow⟩ } { initialSlots := 1 },
        .edit 0 (.push (some ⟨[1, 2], 1⟩)), .edit 0 (.setCount 15)]
      (fun (seat : Seat ⟨.bytes, .narrow⟩) a =>
        seat.column.slots? = some (some [1, 2] :: List.replicate 14 none) ∧
        seat.column.slotCapacity = 15 ∧ seat.column.byteCapacity = 64 ∧
        (Owned.mk a seat.column).HasRoom ((Edit.push (some ⟨[7], 63⟩)).sizes seat.column
          (some [1, 2] :: List.replicate 14 none))) = true := by
    decide +kernel
  obtain ⟨w, seat, a, hreach, hseat, ha, hend⟩ :=
    Reachable.of_yields hrun (by simp [Command.Safe, Edit.Safe])
  obtain ⟨hslots, hslotCapacity, hbyteCapacity, hroom⟩ := of_decide_eq_true hend
  obtain ⟨xs, hxs⟩ := hreach.encoded _ 0 seat (Session.seatAt?_eq_some.2 hseat)
  cases hslots.symm.trans hxs.slots?
  have hfits : Slots.sizeWith (some [1, 2] :: List.replicate 14 none) 15 63 ≤
      OffsetWidth.narrow.max := by decide
  obtain ⟨u, hpush, hu, -⟩ := Edit.run_done (s := ⟨a, seat.column⟩) (e := .push (some ⟨[7], 63⟩)) hxs
    trivial hfits hroom
  replace hpush : Column.push (some ⟨[7], 63⟩) ⟨a, seat.column⟩ = .done () u := hpush
  have hdone : pushAll [some ⟨[7], 63⟩] ⟨a, seat.column⟩ = .done () u :=
    Call.bind_of_done hpush
  -- The sixteenth slot and the bytes above 64 are there, so both capacities have changed.
  have hslots' : 16 ≤ u.column.slotCapacity := hu.le_slotCapacity
  have hbytes' : 65 ≤ u.column.byteCapacity := hu.byteCapacity
  have hslotsNe : u.column.slotCapacity ≠ seat.column.slotCapacity := by omega
  have hbytesNe : u.column.byteCapacity ≠ seat.column.byteCapacity := by omega
  have hslotChanges : changes Column.slotCapacity [some ⟨[7], 63⟩] ⟨a, seat.column⟩ = 1 := by
    rw [Column.changes_cons hpush, if_neg hslotsNe]
    rfl
  have hbyteChanges : changes Column.byteCapacity [some ⟨[7], 63⟩] ⟨a, seat.column⟩ = 1 := by
    rw [Column.changes_cons hpush, if_neg hbytesNe]
    rfl
  obtain ⟨xs', hxs', hedits, hruns⟩ := hreach.grows_geometrically hseat a
  cases hslots.symm.trans hxs'
  obtain ⟨-, hdoubles⟩ := hedits (.push (some ⟨[7], 63⟩)) u trivial hpush
  obtain ⟨-, -, htwiceSlots⟩ := hdoubles.slots.of_ne (by omega) hslotsNe
  obtain ⟨-, -, htwiceBytes⟩ := hdoubles.bytes.of_ne (by omega) hbytesNe
  obtain ⟨zs, hzs, -, hcount, htotal⟩ := hruns _ u hdone
  rw [hslotCapacity, hslotChanges] at hcount
  rw [hbyteCapacity, hbyteChanges] at htotal
  exact ⟨w, seat, a, u, zs, hreach, hseat, ha, hdone, hzs, by omega, by omega,
    hcount (by decide) (by decide), htotal (by decide) (by decide)⟩

end Workspace

end PackedColumn
