import PackedColumn.Proofs.CopyRange
import PackedColumn.Proofs.Overflow

/-!
# Edits within the capacities

The two capacities of a column are what its buffers hold without growing. Edits
that keep below both of them, and whose values end at an offset, ask for no
memory: they are done under any allocator, one without room included, and the
capacities stay as they are (`Edit.Within`). Before the values have their first
memory the initial sizes have a say as well, so this is left open there
(`Column.Settled`).

* `Encodes.makeRoom_within`: no room is made where there is some.
* `Edit.run_within`: one edit, and `Edit.doAll_within`: edits one after the other.
* `Reachable.keepsCapacity`: any column that ever arises, also after room was made for given sizes.
* `not_keepsCapacity`: where an edit below both capacities is refused all the same.
-/

namespace PackedColumn

namespace Column

variable {t : ColumnType} {c d e : Column t} {s : Owned t} {xs : Slots} {i length : Nat}

namespace InPlace

theorem refl (c : Column t) : c.InPlace c := ⟨rfl, rfl, rfl, rfl⟩

theorem trans (h : c.InPlace d) (h' : d.InPlace e) : c.InPlace e where
  same := by rw [h'.same, h.same]
  flags := h'.flags.trans h.flags
  entries := h'.entries.trans h.entries
  values := h'.values.trans h.values

end InPlace

/-- The values have memory, or none is set aside for them before there are any. -/
def Settled (c : Column t) : Prop := c.byteCapacity ≠ 0 ∨ c.initialBytes = 0

theorem InPlace.settled (h : c.InPlace d) (hc : c.Settled) : d.Settled := by
  rwa [Settled, h.byteCapacity_eq, h.initialBytes_eq]

/-! ## One write -/

namespace Encodes

/-- No room is made where there is some. -/
theorem makeRoom_within (h : s.column.Encodes xs) (hsettled : s.column.Settled)
    (hi : i < s.column.slotCapacity) (hbytes : xs.sizeWith i length ≤ s.column.byteCapacity)
    (hfits : xs.sizeWith i length ≤ t.width.max) : makeRoom i length s = .done () s := by
  have hneeded : (if s.column.byteCapacity = 0 then
      max (xs.sizeWith i length) s.column.initialBytes else xs.sizeWith i length) ≤
        s.column.byteCapacity := by
    split
    · rename_i hzero
      have hinitial : s.column.initialBytes = 0 := hsettled.resolve_left fun hne => hne hzero
      omega
    · exact hbytes
  unfold makeRoom
  rw [Call.bind_of_done (Op.column_apply s),
    Call.bind_of_done (h.neededBytes_done (Slots.addressable_of_sizeWith hfits) s),
    if_neg (Nat.not_lt_of_le hfits), if_neg (Nat.not_lt_of_le hneeded),
    if_neg (Nat.not_le_of_lt hi)]
  rfl

theorem set_within (h : s.column.Encodes xs) (hsettled : s.column.Settled) {x : Option Blob}
    (hi : i < s.column.slotCapacity)
    (hbytes : (xs.put i (x.map Blob.toList)).bytes.length ≤ s.column.byteCapacity)
    (hfits : (xs.put i (x.map Blob.toList)).bytes.length ≤ t.width.max) :
    ∃ d, set i x s = .done () ⟨s.allocator, d⟩ ∧ s.column.InPlace d ∧
      d.Encodes (xs.put i (x.map Blob.toList)) := by
  obtain ⟨d, hput, hd, -⟩ := h.exists_put? _ hi hbytes hfits
  rw [Slots.length_bytes_put, Slots.length_value_map] at hbytes hfits
  refine ⟨d, ?_, put?_inPlace hput, hd⟩
  rw [set, Call.bind_of_done (h.makeRoom_within hsettled hi hbytes hfits)]
  exact Op.change_of_some hput

theorem setCount_within {n : Nat} (h : s.column.Encodes xs) (hn : n ≤ s.column.slotCapacity) :
    ∃ d, setCount n s = .done () ⟨s.allocator, d⟩ ∧ s.column.InPlace d ∧
      d.Encodes (xs.resize n) := by
  obtain ⟨d, hfollow, hd⟩ := h.exists_setCount hn
  refine ⟨d, ?_, follow?_inPlace hfollow, hd⟩
  rw [setCount, Call.bind_of_done (Op.column_apply s), if_neg (Nat.not_lt_of_le hn)]
  exact Op.change_of_some hfollow

theorem padTo_within {n : Nat} (h : s.column.Encodes xs) (hsettled : s.column.Settled)
    (hn : n ≤ s.column.slotCapacity) :
    ∃ d, padTo n s = .done () ⟨s.allocator, d⟩ ∧ s.column.InPlace d ∧ d.Encodes (xs.padTo n) := by
  obtain ⟨d, hfollow, hd⟩ := h.exists_padTo hn
  refine ⟨d, ?_, follow?_inPlace hfollow, hd⟩
  have hchange := Op.change_of_some (f := fun c => c.follow? (c.extent.planPad? n)) hfollow
  rw [padTo]
  split
  · have hzero : xs.sizeWith (n - 1) 0 ≤ xs.bytes.length := Nat.sub_le ..
    rw [Call.bind_of_done (h.makeRoom_within hsettled (by omega)
      (Nat.le_trans hzero h.byteCapacity) (Nat.le_trans hzero h.fits))]
    exact hchange
  · exact hchange

end Encodes

theorem renewWith_eq_done_iff {u : Owned t} {bytes slots : Nat} :
    renewWith bytes slots s = .done () u ↔ reserve slots bytes s.clear = .done () u := by
  unfold renewWith
  cases reserve slots bytes s.clear <;> simp

end Column

/-! ## Edits -/

namespace Edit

variable {t : ColumnType} {s : Owned t} {xs : Slots} {e : Edit} {slots bytes : Nat}

/-- The edit writes no slot from slot number `slots` on, and leaves at most `bytes` bytes of values
where it writes one. -/
def Within (slots bytes : Nat) (xs : Slots) (e : Edit) : Prop :=
  match e with
  | set i _ | setText i _ => i < slots ∧ (e.onSlots xs).bytes.length ≤ bytes
  | push _ | pushText _ => xs.length < slots ∧ (e.onSlots xs).bytes.length ≤ bytes
  | padTo n => n ≤ slots ∧ (e.onSlots xs).bytes.length ≤ bytes
  | setCount n => n ≤ slots
  | _ => False

/-- The edit changes how many slots there are, and writes none. -/
def Recounts : Edit → Prop
  | setCount _ => True
  | _ => False

/-- Edits one after the other, up to the first that is refused. -/
def doAll : List Edit → Op t Unit
  | [] => pure ()
  | e :: es => do
    e.run
    doAll es

/-- Each of the edits keeps within the sizes when those before it are done. -/
def AllWithin (slots bytes : Nat) : Slots → List Edit → Prop
  | _, [] => True
  | xs, e :: es => e.Within slots bytes xs ∧ AllWithin slots bytes (e.onSlots xs) es

/-- An edit within the capacities is done without memory. -/
theorem run_within (h : s.column.Encodes xs) (hsettled : s.column.Settled ∨ e.Recounts)
    (hslots : slots ≤ s.column.slotCapacity) (hbytes : bytes ≤ s.column.byteCapacity)
    (hmax : bytes ≤ t.width.max) (he : e.Within slots bytes xs) :
    ∃ d, e.run s = .done () ⟨s.allocator, d⟩ ∧ s.column.InPlace d ∧ d.Encodes (e.onSlots xs) := by
  have hset : ∀ i x, s.column.Settled →
      i < slots ∧ (xs.put i (x.map Blob.toList)).bytes.length ≤ bytes →
      ∃ d, Column.set i x s = .done () ⟨s.allocator, d⟩ ∧ s.column.InPlace d ∧
        d.Encodes (xs.put i (x.map Blob.toList)) := fun i x hsettled ⟨hi, hle⟩ =>
    h.set_within hsettled (Nat.lt_of_lt_of_le hi hslots) (Nat.le_trans hle hbytes)
      (Nat.le_trans hle hmax)
  have hpush : ∀ x, s.column.Settled →
      xs.length < slots ∧ (xs ++ [x.map Blob.toList]).bytes.length ≤ bytes →
      ∃ d, Column.push x s = .done () ⟨s.allocator, d⟩ ∧ s.column.InPlace d ∧
        d.Encodes (xs ++ [x.map Blob.toList]) := fun x hsettled hle => by
    rw [← Slots.put_length] at hle ⊢
    rw [Column.push, h.count]
    exact hset xs.length x hsettled hle
  cases e with
  | set i x => exact hset i x (hsettled.resolve_right id) he
  | setText i text => exact hset i (some (.ofText text)) (hsettled.resolve_right id) he
  | push x => exact hpush x (hsettled.resolve_right id) he
  | pushText text => exact hpush _ (hsettled.resolve_right id) he
  | padTo n =>
    exact h.padTo_within (hsettled.resolve_right id) (Nat.le_trans he.1 hslots)
  | setCount n => exact h.setCount_within (Nat.le_trans he hslots)
  | _ => exact he.elim

/-- So are edits one after the other: none of them takes room from those that follow. -/
theorem doAll_within {es : List Edit} (h : s.column.Encodes xs)
    (hsettled : s.column.Settled ∨ ∀ e ∈ es, e.Recounts)
    (hslots : slots ≤ s.column.slotCapacity) (hbytes : bytes ≤ s.column.byteCapacity)
    (hmax : bytes ≤ t.width.max) (hes : AllWithin slots bytes xs es) :
    ∃ d, doAll es s = .done () ⟨s.allocator, d⟩ ∧ s.column.InPlace d ∧
      d.Encodes (es.foldl onSlots xs) := by
  induction es generalizing s xs with
  | nil => exact ⟨s.column, rfl, .refl _, h⟩
  | cons e es ih =>
    obtain ⟨he, hrest⟩ := hes
    -- What carries the induction is that the first edit leaves the capacities for the others.
    obtain ⟨d, hrun, hplace, hd⟩ := run_within h
      (hsettled.imp_right fun hall => hall e List.mem_cons_self) hslots hbytes hmax he
    obtain ⟨d', hrun', hplace', hd'⟩ := ih (s := ⟨s.allocator, d⟩) hd
      (hsettled.imp hplace.settled fun hall f hf => hall f (List.mem_cons_of_mem e hf))
      (by rw [hplace.slotCapacity_eq]; exact hslots) (by rw [hplace.byteCapacity_eq]; exact hbytes)
      hrest
    refine ⟨d', ?_, hplace.trans hplace', hd'⟩
    rw [doAll, Call.bind_of_done hrun]
    exact hrun'

end Edit

/-! ## Columns of a workspace -/

namespace Workspace

variable {t : ColumnType} {w : Workspace} {limits : List Nat} {place : Nat} {seat : Seat t}

/-- The operation is done, asks for no memory, changes neither capacity, and leaves these slots. -/
def DoneInPlace (op : Op t Unit) (s : Owned t) (ys : Slots) : Prop :=
  ∃ d, op s = .done () ⟨s.allocator, d⟩ ∧ d.slotCapacity = s.column.slotCapacity ∧
    d.byteCapacity = s.column.byteCapacity ∧ d.Shows ys

theorem DoneInPlace.of_inPlace {op : Op t Unit} {s : Owned t} {ys : Slots}
    (h : ∃ d, op s = .done () ⟨s.allocator, d⟩ ∧ s.column.InPlace d ∧ d.Encodes ys) :
    DoneInPlace op s ys := by
  obtain ⟨d, hdone, hplace, hd⟩ := h
  exact ⟨d, hdone, hplace.slotCapacity_eq, hplace.byteCapacity_eq, hd.shows⟩

/-- The capacities of a column with the given slots are what it holds without growing, and the sizes
that room was made for are held without growing from then on. -/
structure KeepsCapacity (c : Column t) (a : Allocator) (xs : Slots) : Prop where
  edit : ∀ e : Edit, c.Settled ∨ e.Recounts →
    e.Within c.slotCapacity (min c.byteCapacity t.width.max) xs →
      DoneInPlace e.run ⟨a, c⟩ (e.onSlots xs)
  reserved : ∀ (slots bytes : Nat) (u : Owned t), Column.reserve slots bytes ⟨a, c⟩ = .done () u →
    ∀ es : List Edit, (u.column.Settled ∨ ∀ e ∈ es, e.Recounts) →
      Edit.AllWithin slots (min bytes t.width.max) xs es →
        DoneInPlace (Edit.doAll es) u (es.foldl Edit.onSlots xs)
  renewed : ∀ (slots bytes : Nat) (u : Owned t), Column.renewWith bytes slots ⟨a, c⟩ = .done () u →
    ∀ es : List Edit, (u.column.Settled ∨ ∀ e ∈ es, e.Recounts) →
      Edit.AllWithin slots (min bytes t.width.max) [] es →
        DoneInPlace (Edit.doAll es) u (es.foldl Edit.onSlots [])

theorem keepsCapacity_of_encodes {c : Column t} {xs : Slots} (hc : c.Encodes xs) (a : Allocator) :
    KeepsCapacity c a xs where
  edit := fun _ hsettled he => .of_inPlace (Edit.run_within (s := ⟨a, c⟩) hc hsettled
    (Nat.le_refl _) (Nat.min_le_left ..) (Nat.min_le_right ..) he)
  reserved := fun slots bytes u hu es hsettled hes => by
    obtain ⟨hgrown, hslots, hbytes⟩ := (Column.reserve_sat slots bytes ⟨a, c⟩).of_done hu
    exact .of_inPlace (Edit.doAll_within (hc.growsTo hgrown.column) hsettled hslots
      (Nat.le_trans (Nat.min_le_left ..) hbytes) (Nat.min_le_right ..) hes)
  renewed := fun slots bytes u hu es hsettled hes => by
    obtain ⟨hgrown, hslots, hbytes⟩ := (Column.reserve_sat slots bytes (Owned.clear ⟨a, c⟩)).of_done
      (Column.renewWith_eq_done_iff.1 hu)
    exact .of_inPlace (Edit.doAll_within ((Column.encodes_clear _).growsTo hgrown.column) hsettled
      hslots (Nat.le_trans (Nat.min_le_left ..) hbytes) (Nat.min_le_right ..) hes)

/-- In every reachable workspace, whatever its allocators would answer, edits of a column that keep
within what it holds are done, ask for no memory, and leave both capacities as they are. -/
theorem Reachable.keepsCapacity (h : Reachable limits w)
    (hseat : (w.places t)[place]? = some (some seat)) (a : Allocator) :
    ∃ xs, seat.column.slots? = some xs ∧ seat.column.Shows xs ∧ KeepsCapacity seat.column a xs := by
  obtain ⟨xs, hxs⟩ := h.encoded t place seat (Session.seatAt?_eq_some.2 hseat)
  exact ⟨xs, hxs.slots?, hxs.shows, keepsCapacity_of_encodes hxs a⟩

/-- The last slot that an exhausted account still has room for. -/
theorem keepsCapacity_of_exhausted : ∃ (w : Workspace) (seat : Seat ⟨.bytes, .narrow⟩)
    (a : Allocator), Reachable [192] w ∧ (w.places ⟨.bytes, .narrow⟩)[0]? = some (some seat) ∧
      w.allocators[0]? = some a ∧ a.allocated = a.limit ∧
      KeepsCapacity seat.column a [some [1, 2]] ∧
      DoneInPlace (Edit.set 14 (some ⟨[7], 3⟩)).run ⟨a, seat.column⟩
        (some [1, 2] :: (List.replicate 13 none ++ [some [7, 7, 7]])) := by
  have hrun : Yields [192]
      [.create 0 0 { name := "a", type := ⟨.bytes, .narrow⟩ } { initialSlots := 1 },
        .edit 0 (.push (some ⟨[1, 2], 1⟩))]
      (fun (seat : Seat ⟨.bytes, .narrow⟩) a => seat.home = 0 ∧ a.allocated = a.limit ∧
        seat.column.slots? = some [some [1, 2]] ∧ seat.column.slotCapacity = 15 ∧
          seat.column.byteCapacity = 64) = true := by
    decide +kernel
  obtain ⟨w, seat, a, hreach, hseat, ha, hend⟩ :=
    Reachable.of_yields hrun (by simp [Command.Safe, Edit.Safe])
  obtain ⟨hhome, hfull, hslots, hslotCapacity, hbyteCapacity⟩ := of_decide_eq_true hend
  obtain ⟨xs, hxs, -, hkeeps⟩ := hreach.keepsCapacity hseat a
  cases hslots.symm.trans hxs
  have hsettled : seat.column.Settled := .inl (by rw [hbyteCapacity]; decide)
  refine ⟨w, seat, a, hreach, hseat, hhome ▸ ha, hfull, hkeeps,
    hkeeps.edit _ (.inl hsettled) ?_⟩
  rw [hslotCapacity, hbyteCapacity]
  exact ⟨by decide, by decide⟩

/-! ## Where the capacities promise more -/

theorem run_edit {a : Allocator} (hseat : (w.places t)[place]? = some (some seat))
    (ha : w.allocators[seat.home]? = some a) (e : Edit) :
    run t (.edit place e) w = (e.run ⟨a, seat.column⟩).lift id (w.seat place seat.home) := by
  have hseat' : (w.session t).seatAt? place = some ⟨seat.home, seat.column⟩ :=
    Session.seatAt?_eq_some.2 hseat
  rw [run, Session.run, Session.alter_apply hseat' ha]
  cases e.run ⟨a, seat.column⟩ <;> rfl

/-- An edit that is done, of a column in a reachable workspace. -/
theorem Reachable.edit {a : Allocator} {e : Edit} {u : Owned t} (h : Reachable limits w)
    (hseat : (w.places t)[place]? = some (some seat)) (ha : w.allocators[seat.home]? = some a)
    (he : e.Safe) (hdone : e.run ⟨a, seat.column⟩ = .done () u) :
    Reachable limits (w.seat place seat.home u) ∧
      ((w.seat place seat.home u).places t)[place]? = some (some ⟨seat.home, u.column⟩) ∧
      (w.seat place seat.home u).allocators[seat.home]? = some u.allocator := by
  refine ⟨h.step t (.edit place e) (Session.safeAt_of_safe he) ?_, ?_, ?_⟩
  · rw [run_edit hseat ha, hdone]
    rfl
  · rw [places_seat]
    exact Array.getElem?_setIfInBounds_self_of_lt (Array.getElem?_eq_some_iff.1 hseat).1
  · exact Array.getElem?_setIfInBounds_self_of_lt (Array.getElem?_eq_some_iff.1 ha).1

/-- An edit below both capacities of some column that can arise is refused. -/
def RefusedWithin (limits : List Nat) (e : Edit) (err : ColumnError) : Prop :=
  ∃ (w : Workspace) (seat : Seat ⟨.bytes, .narrow⟩) (a : Allocator) (xs : Slots),
    Reachable limits w ∧ (w.places ⟨.bytes, .narrow⟩)[0]? = some (some seat) ∧
      w.allocators[seat.home]? = some a ∧ seat.column.slots? = some xs ∧
      e.Within seat.column.slotCapacity seat.column.byteCapacity xs ∧
      e.run ⟨a, seat.column⟩ = .refused err ⟨a, seat.column⟩

/-- For a null slot, the first memory of the values is asked for. -/
theorem refusedWithin_of_unsettled :
    RefusedWithin [128] (.push none) (.allocation (.limitExceeded 31808 128 128)) := by
  have hrun : Yields [128]
      [.create 0 0 { name := "a", type := ⟨.bytes, .narrow⟩ } {}, .edit 0 (.reserve 10 0)]
      (fun (seat : Seat ⟨.bytes, .narrow⟩) a =>
        seat.column.slots? = some [] ∧ 0 < seat.column.slotCapacity ∧
          (Edit.push none).run ⟨a, seat.column⟩ =
            .refused (.allocation (.limitExceeded 31808 128 128)) ⟨a, seat.column⟩) = true := by
    decide +kernel
  obtain ⟨w, seat, a, hreach, hseat, ha, hend⟩ :=
    Reachable.of_yields hrun (by simp [Command.Safe, Edit.Safe])
  obtain ⟨hslots, hcapacity, hrefused⟩ := of_decide_eq_true hend
  exact ⟨w, seat, a, [], hreach, hseat, ha, hslots, ⟨hcapacity, Nat.zero_le _⟩, hrefused⟩

/-- Memory for the values can be larger than the largest offset. -/
theorem refusedWithin_of_large :
    RefusedWithin [0x100000000] (.push (some ⟨[0], 0x80000000⟩)) (.offsetOverflow 0x80000000) := by
  have hrun : Yields [0x100000000]
      [.create 0 0 { name := "a", type := ⟨.bytes, .narrow⟩ } {}]
      (fun (seat : Seat ⟨.bytes, .narrow⟩) a => seat.column.slots? = some [] ∧
        (Owned.mk a seat.column).HasRoom
          ((seat.column.sizes.withValues 0x80000000).withSlots .narrow 1)) = true := by
    decide +kernel
  obtain ⟨w, seat, a, hreach, hseat, ha, hend⟩ :=
    Reachable.of_yields hrun (by simp [Command.Safe])
  obtain ⟨hslots, hroom⟩ := of_decide_eq_true hend
  obtain ⟨xs, hxs⟩ := hreach.encoded _ 0 seat (Session.seatAt?_eq_some.2 hseat)
  cases hslots.symm.trans hxs.slots?
  obtain ⟨u, hdone, -⟩ := Column.reserve_done (s := ⟨a, seat.column⟩) hxs.get?_count_ne_none hroom
  obtain ⟨hgrown, hslotCapacity, hbyteCapacity⟩ :=
    (Column.reserve_sat 1 0x80000000 ⟨a, seat.column⟩).of_done hdone
  have hu : u.column.Encodes [] := hxs.growsTo hgrown.column
  obtain ⟨hreach', hseat', ha'⟩ :=
    hreach.edit (e := .reserve 1 0x80000000) hseat ha trivial hdone
  -- The value is too long to be looked at byte by byte.
  have hsize : (Blob.mk [0] 0x80000000).size = 0x80000000 := rfl
  have hbytes : (Edit.onSlots [] (.push (some ⟨[0], 0x80000000⟩))).bytes.length = 0x80000000 := by
    rw [Edit.onSlots, List.nil_append, Slots.bytes_cons, Slots.bytes_nil, List.append_nil,
      Slots.length_value_map, Option.map_some, Option.getD_some, hsize]
  have haddressable : Blob.Addressable (some ⟨[0], 0x80000000⟩) :=
    show (Blob.mk [0] 0x80000000).size ≤ OffsetWidth.wide.max by rw [hsize]; decide
  refine ⟨_, _, u.allocator, [], hreach', hseat', ha', hu.slots?,
    ⟨hslotCapacity, by rw [hbytes]; exact hbyteCapacity⟩, ?_⟩
  rw [Edit.run, Column.push, hu.count]
  exact (hu.set_overflows 0 haddressable _ _).2 ⟨by rw [hsize]; decide, by rw [hsize]; rfl, rfl⟩

/-- To keep below both capacities is not enough: not before the values have memory, and not where
that is larger than the largest offset. -/
theorem not_keepsCapacity :
    RefusedWithin [128] (.push none) (.allocation (.limitExceeded 31808 128 128)) ∧
      RefusedWithin [0x100000000] (.push (some ⟨[0], 0x80000000⟩)) (.offsetOverflow 0x80000000) :=
  ⟨refusedWithin_of_unsettled, refusedWithin_of_large⟩

end Workspace

end PackedColumn
