import PackedColumn.Proofs.Copies
import PackedColumn.Proofs.Room
import PackedColumn.Proofs.Workspaces

/-!
# Calls that are refused

A call may be refused half way, when some buffers have grown and the next one
cannot. A column that has only grown cannot be told from what it was
(`Column.LooksLike`), so nothing is lost, and when it was memory that was
missing, the same call is done as soon as there is room, with the slots that it
would have given in the first place.

* `Encodes.looksLike`: what tells columns apart, and `GrowsTo.looksLike`: growing is not among it.
* `Edit.run_stays`: an edit that is done entirely or not at all only grows the column if it is
  refused.
* `Edit.run_fits`: if it is memory that is refused, then nothing else stands in its way.
* `Reachable.refused_call`: what a refused call leaves of a column, and how it can be repeated.
-/

namespace PackedColumn

namespace Column

variable {t : ColumnType} {c d : Column t} {xs : Slots}

/-! ## Columns that look alike -/

/-- A column cannot be told from another by its extent, its slots, its bytes or any comparison. -/
structure LooksLike (c d : Column t) : Prop where
  extent : d.extent = c.extent
  get : ∀ i, d.get i = c.get i
  buffers : ∃ b, c.buffers? = some b ∧ d.buffers? = some b
  same : ∀ f : Column t, d.sameSlots? f = c.sameSlots? f ∧ f.sameSlots? d = f.sameSlots? c

theorem agreeFrom?_congr (f : Column t) {i n : Nat}
    (h : ∀ j, i ≤ j → j < i + n → d.slot? j = c.slot? j) :
    d.agreeFrom? f i n = c.agreeFrom? f i n ∧ f.agreeFrom? d i n = f.agreeFrom? c i n := by
  induction n generalizing i with
  | zero => exact ⟨rfl, rfl⟩
  | succ n ih =>
    obtain ⟨hleft, hright⟩ := ih (i := i + 1) fun j hj hjn => h j (by omega) (by omega)
    simp only [agreeFrom?, h i (Nat.le_refl i) (by omega), hleft, hright, and_self]

theorem sameSlots?_congr (f : Column t) (hcount : d.count = c.count)
    (h : ∀ j < c.count, d.slot? j = c.slot? j) :
    d.sameSlots? f = c.sameSlots? f ∧ f.sameSlots? d = f.sameSlots? c := by
  obtain ⟨hleft, hright⟩ := agreeFrom?_congr f (i := 0) (n := c.count)
    fun j _ hj => h j (by omega)
  simp only [sameSlots?, hcount, hleft, true_and]
  by_cases hf : f.count = c.count
  · rw [if_pos hf, if_pos hf, hf, hright]
  · rw [if_neg hf, if_neg hf]

/-- Columns with the same slots, extents and flags look alike, whatever else their memory holds. -/
theorem Encodes.looksLike (hc : c.Encodes xs) (hd : d.Encodes xs) (hextent : d.extent = c.extent)
    (hbits : ∀ j, Bits.get c.validity.block.bytes j = Bits.get d.validity.block.bytes j) :
    c.LooksLike d := by
  have hcount : d.count = c.count := congrArg Extent.count hextent
  have hslot : ∀ j < c.count, d.slot? j = c.slot? j := fun j hj => by
    rw [hc.count] at hj
    have hx := List.getElem?_eq_getElem hj
    rw [hd.slot? hx, hc.slot? hx]
  refine ⟨hextent, fun i => ?_, hc.exists_buffers?_of_bits hd hbits,
    fun f => sameSlots?_congr f hcount hslot⟩
  unfold Column.get atSlot
  rw [hcount]
  split
  · rename_i hi
    rw [hslot i hi]
  · rfl

/-- A column that has grown looks as before. -/
theorem GrowsTo.looksLike (hg : c.GrowsTo d) (h : c.Encodes xs) : c.LooksLike d :=
  h.looksLike (h.growsTo hg) hg.extent_eq fun j => (Bits.get_growsTo hg.flags j).symm

end Column

/-! ## What a refusal leaves -/

/-- An operation that leaves nothing behind but a column that has grown, if it is refused. -/
def Op.Stays {t : ColumnType} {α : Type} (op : Op t α) : Prop :=
  ∀ s, (op s).Sat (fun _ _ => True) (fun _ u => s.GrowsTo u) True

namespace Op

variable {t : ColumnType} {α β : Type}

/-- What holds of every refusal holds of a change, which is never refused. -/
theorem change_unrefused {R : ColumnError → Owned t → Prop} (f : Column t → Option (Column t))
    (s : Owned t) : (change f s).Sat (fun _ _ => True) R True :=
  (change_sat f s).mono (fun _ _ _ => trivial) (fun _ _ => False.elim) id

theorem stays_change (f : Column t → Option (Column t)) : Stays (change f) := fun s =>
  change_unrefused f s

theorem stays_refuse (e : ColumnError) : Stays (Call.refuse e : Op t α) := fun s => .refl s

/-- Growing first, whether or not that is done, and then the rest. -/
theorem stays_bind {op : Op t α} {next : α → Op t β}
    (h : ∀ s, (op s).Sat (fun _ u => s.GrowsTo u) (fun _ u => s.GrowsTo u) True)
    (hnext : ∀ a, Stays (next a)) : Stays (op >>= next) := fun s =>
  Call.sat_bind.2 ((h s).mono
    (fun a u hu => (hnext a u).mono (fun _ _ h => h) (fun _ _ hv => hu.trans hv) id)
    (fun _ _ hu => hu) id)

end Op

namespace Column

variable {t : ColumnType}

theorem column_grows (s : Owned t) :
    (Op.column s).Sat (fun _ u => s.GrowsTo u) (fun _ u => s.GrowsTo u) True := .refl s

theorem growSlots_grows (slots : Nat) (s : Owned t) :
    (growSlots slots s).Sat (fun _ u => s.GrowsTo u) (fun _ u => s.GrowsTo u) True :=
  (growSlots_sat slots s).mono (fun _ _ h => h.1) (fun _ _ h => h) fun _ => trivial

theorem set_stays (i : Nat) (x : Option Blob) : Op.Stays (set i x : Op t Unit) :=
  Op.stays_bind (makeRoom_grows i _) fun _ => Op.stays_change _

end Column

namespace Edit

variable {t : ColumnType} {e : Edit}

theorem run_stays (hatomic : e.Atomic) : Op.Stays (e.run : Op t Unit) := by
  cases e with
  | set i x => exact Column.set_stays i x
  | setText i text => exact Column.set_stays i _
  | push x => exact fun s => Column.set_stays s.column.count x s
  | pushText text => exact fun s => Column.set_stays s.column.count _ s
  | setCount n =>
    refine Op.stays_bind Column.column_grows fun c => ?_
    split
    · exact Op.stays_bind (Column.growSlots_grows _) fun _ => Op.stays_change _
    · exact Op.stays_change _
  | padTo n =>
    show Op.Stays (Column.padTo n)
    unfold Column.padTo
    split
    · exact Op.stays_bind (Column.makeRoom_grows _ 0) fun _ => Op.stays_change _
    · exact Op.stays_change _
  | setLast last =>
    refine Op.stays_bind Column.column_grows fun c => ?_
    cases last with
    | none => exact Op.stays_change _
    | some i =>
      dsimp only
      split
      · exact Op.stays_refuse _
      · exact Op.stays_change _
  | reserve slots bytes =>
    exact fun s => (Column.reserve_sat slots bytes s).mono (fun _ _ _ => trivial) (fun _ _ h => h)
      fun _ => trivial
  | _ => exact hatomic.elim

end Edit

/-! ## What memory is refused for -/

namespace Column

variable {t : ColumnType} {s : Owned t} {xs : Slots}

/-- Counting the bytes fails for their number alone. -/
theorem neededBytes_overflow (c : Column t) (i length : Nat) (s : Owned t) :
    (c.neededBytes i length s).Sat (fun _ _ => True) (fun e _ => ∃ total, e = .offsetOverflow total)
      True := by
  unfold neededBytes
  refine Call.sat_bind.2 (Call.sat_require.2 ⟨fun total _ => ?_, fun _ => trivial⟩)
  split
  · refine Call.sat_bind.2 (Call.sat_require.2 ⟨fun former _ => ?_, fun _ => trivial⟩)
    split
    · exact Call.sat_require.2 ⟨fun _ _ => trivial, fun _ => trivial⟩
    · trivial
  · cases Size.add? total length with
    | none => exact ⟨_, rfl⟩
    | some needed => trivial

/-- No memory is asked for before the values are known to end at an offset. -/
theorem Encodes.makeRoom_fits (h : s.column.Encodes xs) (i length : Nat) :
    (makeRoom i length s).Sat (fun _ _ => True)
      (fun e _ => ∀ m, e = .allocation m → xs.sizeWith i length ≤ t.width.max) True := by
  unfold makeRoom
  simp only [Call.sat_bind, Op.column_apply, Outcome.sat_done]
  refine ((h.neededBytes_sat i length s).and (neededBytes_overflow s.column i length s)).mono
    (fun needed u hdone => ?_) (fun e u hrefused m hm => ?_) fun _ => trivial
  · split
    · intro m hm
      cases hm
    · rename_i hfits
      refine Outcome.sat_of_forall _ (fun _ _ => trivial) (fun _ _ _ _ => ?_) trivial
      rw [← hdone.1.2]
      exact Nat.le_of_not_lt hfits
  · obtain ⟨total, he⟩ := hrefused.2
    rw [he] at hm
    cases hm

theorem Encodes.set_fits (h : s.column.Encodes xs) (i : Nat) (x : Option Blob) :
    (set i x s).Sat (fun _ _ => True) (fun e _ => ∀ m, e = .allocation m →
      xs.sizeWith i ((x.map Blob.size).getD 0) ≤ t.width.max) True :=
  Call.sat_bind.2 ((h.makeRoom_fits i _).mono
    (fun _ u _ => Op.change_unrefused _ u) (fun _ _ h => h) id)

end Column

namespace Edit

variable {t : ColumnType} {e : Edit} {s : Owned t} {xs : Slots}

/-- If an edit is refused for want of memory, then nothing else stands in its way. -/
theorem run_fits (h : s.column.Encodes xs) (hatomic : e.Atomic) :
    (e.run s).Sat (fun _ _ => True) (fun err _ => ∀ m, err = .allocation m → e.Fits t.width xs)
      True := by
  cases e with
  | set i x => exact h.set_fits i x
  | setText i text => exact h.set_fits i _
  | push x =>
    rw [run, Column.push, h.count]
    exact h.set_fits _ x
  | pushText text =>
    rw [run, Column.pushText, Column.push, h.count]
    exact h.set_fits _ _
  | setLast last =>
    rw [run, Column.setLast, Call.bind_of_done (Op.column_apply s)]
    cases last with
    | none => exact Op.change_unrefused _ s
    | some i =>
      dsimp only
      split
      · intro m hm
        cases hm
      · exact Op.change_unrefused _ s
  | setCount n => exact Outcome.sat_of_forall _ (fun _ _ => trivial) (fun _ _ _ _ => trivial) trivial
  | padTo n => exact Outcome.sat_of_forall _ (fun _ _ => trivial) (fun _ _ _ _ => trivial) trivial
  | reserve slots bytes =>
    exact Outcome.sat_of_forall _ (fun _ _ => trivial) (fun _ _ _ _ => trivial) trivial
  | _ => exact hatomic.elim

end Edit

/-! ## Calls -/

namespace Column

variable {t : ColumnType} {source : Column t} {zs : Slots} {i : Nat}

theorem slotOf_of_get {x : Option (List UInt8)} (h : source.get i = some (.ok x)) :
    slotOf source i = pure x := by
  rw [slotOf, h]
  rfl

/-- Copying a slot is writing it, if the source has it. -/
theorem copySlot_of_get {x : Option (List UInt8)} (h : source.get i = some (.ok x)) (j : Nat) :
    copySlot source i j = set j (x.map Blob.ofList) := by
  rw [copySlot, slotOf_of_get h, pure_bind]

theorem Shows.copySlot_of_lt (h : source.Shows zs) (hi : i < zs.length) (j : Nat) :
    copySlot source i j = set j ((zs[i]?).join.map Blob.ofList) := by
  have hx := List.getElem?_eq_getElem hi
  rw [copySlot_of_get (h.2 i _ hx), hx]
  rfl

theorem Shows.copySlot_of_le (h : source.Shows zs) (hi : zs.length ≤ i) (j : Nat) (s : Owned t) :
    copySlot source i j s = .refused (.indexOutOfBounds i source.count) s := by
  have hget : source.get i = some (.error (.indexOutOfBounds i source.count)) :=
    atSlot_of_le (by rw [h.1]; exact hi) _
  have hslot : slotOf source i s = .refused (.indexOutOfBounds i source.count) s := by
    rw [slotOf, hget]
    rfl
  rw [copySlot, Call.bind_of_refused hslot]

end Column

namespace Workspace

variable {t : ColumnType} {w : Workspace} {limits : List Nat} {place : Nat} {seat : Seat t}

/-- The calls on a column that are done entirely or not at all, and the edits that they come to:
these edits themselves, and copying a slot of a column in the workspace. -/
inductive Calls (w : Workspace) : Op t Unit → Edit → Prop
  | edit {e : Edit} (he : e.Atomic) : w.Calls e.run e
  | copySlot {source : Nat} {giver : Seat t} {zs : Slots}
      (hgiver : (w.places t)[source]? = some (some giver)) (hzs : giver.column.Shows zs) (i j : Nat) :
      w.Calls (giver.column.copySlot i j) (.set j ((zs[i]?).join.map Blob.ofList))

namespace Calls

variable {op : Op t Unit} {e : Edit}

theorem atomic (h : w.Calls op e) : e.Atomic := by
  cases h with
  | edit he => exact he
  | copySlot => trivial

/-- A call is an edit, or names a slot that is not there. -/
theorem eq_run (h : w.Calls op e) :
    op = e.run ∨ ∃ i count, ∀ s, op s = .refused (.indexOutOfBounds i count) s := by
  cases h with
  | edit => exact .inl rfl
  | @copySlot source giver zs hgiver hzs i j =>
    rcases Nat.lt_or_ge i zs.length with hi | hi
    · exact .inl (hzs.copySlot_of_lt hi j)
    · exact .inr ⟨i, giver.column.count, hzs.copySlot_of_le hi j⟩

theorem stays (h : w.Calls op e) : Op.Stays op := by
  rcases h.eq_run with rfl | ⟨i, count, hrefused⟩
  · exact Edit.run_stays h.atomic
  · intro s
    rw [hrefused s]
    exact .refl s

/-- A call for which there is no memory is an edit in whose way nothing else stands. -/
theorem of_refused (h : w.Calls op e) {s u : Owned t} {xs : Slots} {m : MemoryRefusal}
    (hs : s.column.Encodes xs) (hrefused : op s = .refused (.allocation m) u) :
    op = e.run ∧ e.Fits t.width xs := by
  rcases h.eq_run with rfl | ⟨i, count, houtside⟩
  · have hfits := Edit.run_fits hs h.atomic
    rw [hrefused] at hfits
    exact ⟨rfl, hfits m rfl⟩
  · rw [houtside s] at hrefused
    cases hrefused

end Calls

/-- A call that is refused leaves a column of a reachable workspace that looks as before, and is as
well-formed, whichever buffers had grown by then. If it was memory that was missing, then the same
call on what is left is done as soon as the account and the machine have room for the sizes it asks
for, and leaves the slots that it leaves if it is made for the first time. -/
theorem Reachable.refused_call (h : Reachable limits w)
    (hseat : (w.places t)[place]? = some (some seat)) {op : Op t Unit} {e : Edit}
    (hcall : w.Calls op e) {a : Allocator} {err : ColumnError} {u : Owned t}
    (hrefused : op ⟨a, seat.column⟩ = .refused err u) :
    ∃ xs, seat.column.slots? = some xs ∧ seat.column.Shows xs ∧
      seat.column.LooksLike u.column ∧ u.column.WellFormed ∧
      u.column.checkLayout = some (.ok ()) ∧
      ∀ m, err = .allocation m → ∀ c, c = seat.column ∨ c = u.column →
        ∀ b, (Owned.mk b c).HasRoom (e.sizes c xs) →
          ∃ v, op ⟨b, c⟩ = .done () v ∧ v.column.Shows (e.onSlots xs) ∧
            v.column.footprint = (e.sizes c xs).total := by
  obtain ⟨xs, hxs⟩ := h.encoded t place seat (Session.seatAt?_eq_some.2 hseat)
  have hstays := hcall.stays ⟨a, seat.column⟩
  rw [hrefused, Outcome.sat_refused] at hstays
  have hleft := hxs.growsTo hstays.column
  refine ⟨xs, hxs.slots?, hxs.shows, hstays.column.looksLike hxs, hleft.wellFormed,
    hleft.checkLayout, fun m hm c hc b hroom => ?_⟩
  subst hm
  obtain ⟨rfl, hfits⟩ := hcall.of_refused hxs hrefused
  have hencodes : c.Encodes xs := by
    rcases hc with rfl | rfl
    · exact hxs
    · exact hleft
  obtain ⟨v, hdone, hv, hsize⟩ :=
    Edit.run_done (s := ⟨b, c⟩) hencodes hcall.atomic hfits hroom
  exact ⟨v, hdone, hv.shows, hsize⟩

/-- The account of two columns has room for the values of the first one to grow, but not for its
offsets as well, until the memory of the second one is given back. -/
theorem refused_call_of_half_grown : ∃ (w : Workspace) (seat : Seat ⟨.bytes, .narrow⟩)
    (a b : Allocator) (u v : Owned ⟨.bytes, .narrow⟩),
    Reachable [448] w ∧ w.allocators[0]? = some a ∧
      (Edit.set 15 (some ⟨[7], 65⟩)).run ⟨a, seat.column⟩ =
        .refused (.allocation (.limitExceeded 64 448 448)) u ∧
      seat.column.footprint < u.column.footprint ∧ seat.column.LooksLike u.column ∧
      b = { a with allocated := u.column.footprint } ∧
      (Edit.set 15 (some ⟨[7], 65⟩)).run ⟨b, u.column⟩ = .done () v ∧
      v.column.Shows (some [1] :: (List.replicate 14 none ++ [some (List.replicate 65 7)])) := by
  have hrun : (runAll (start ([448].map fun l => { limit := l }) 2)
      ([.create 0 0 { name := "a", type := ⟨.bytes, .narrow⟩ } { initialSlots := 1 },
        .create 1 0 { name := "b", type := ⟨.bytes, .narrow⟩ } { initialSlots := 1 },
        .edit 0 (.push (some ⟨[1], 1⟩)), .edit 1 (.push none)].map
          fun c => (⟨.bytes, .narrow⟩, c))).any
      (fun w => (w.allocators[0]?).any fun a =>
        ((w.session ⟨.bytes, .narrow⟩).seatAt? 0).any fun seat =>
          seat.column.slots? = some [some [1]] ∧
          ((Edit.set 15 (some ⟨[7], 65⟩)).run ⟨a, seat.column⟩).state?.any fun u =>
            (Edit.set 15 (some ⟨[7], 65⟩)).run ⟨a, seat.column⟩ =
              .refused (.allocation (.limitExceeded 64 448 448)) u ∧
            seat.column.footprint < u.column.footprint ∧
            (Owned.mk { a with allocated := u.column.footprint } u.column).HasRoom
              ((Edit.set 15 (some ⟨[7], 65⟩)).sizes u.column [some [1]])) = true := by
    decide +kernel
  obtain ⟨w, hw, hend⟩ := (Option.any_eq_true _ _).1 hrun
  obtain ⟨a, ha, hend⟩ := (Option.any_eq_true _ _).1 hend
  obtain ⟨seat, hseat, hend⟩ := (Option.any_eq_true _ _).1 hend
  obtain ⟨hslots, hend⟩ := of_decide_eq_true hend
  obtain ⟨u, -, hend⟩ := (Option.any_eq_true _ _).1 hend
  obtain ⟨hrefused, hgrown, hroom⟩ := of_decide_eq_true hend
  have hreach := (Reachable.start 2).runAll (by simp [Command.Safe, Edit.Safe]) hw
  have hatomic : (Edit.set 15 (some ⟨[7], 65⟩)).Atomic := trivial
  obtain ⟨xs, hxs, -, hlooks, -, -, hagain⟩ :=
    hreach.refused_call (Session.seatAt?_eq_some.1 hseat) (.edit hatomic) hrefused
  cases hslots.symm.trans hxs
  obtain ⟨v, hdone, hshows, -⟩ := hagain _ rfl u.column (.inr rfl) _ hroom
  exact ⟨w, seat, a, _, u, v, hreach, ha, hrefused, hgrown, hlooks, rfl, hdone, hshows⟩

end Workspace

end PackedColumn
