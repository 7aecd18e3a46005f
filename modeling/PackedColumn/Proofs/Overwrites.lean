import PackedColumn.Proofs.CopyRange
import PackedColumn.Proofs.Refusals

/-!
# Writes within the memory held

A write within the memory held is the growing write without its first step. It
breaks its contract exactly where that step would have had to grow a buffer,
and otherwise leaves what the growing write leaves when it is done
(`Op.WritesWithin`). The largest offset is no concern here as long as the
memory for the values is no larger.

* `blankSlots?_agrees`, `put?_agrees`: the flags that a write sets do not depend on the memory.
* `Encodes.put?_eq_none_iff`: where a write within the memory held fails.
* `Encodes.writesWithin`: both writes to one slot.
* `Reachable.overwrites`: all such writes on any column that ever arises.
-/

namespace PackedColumn

/-- The same flags, in memory of any sizes. -/
def Validity.Agrees (v w : Validity) : Prop :=
  ∀ j, Bits.get v.block.bytes j = Bits.get w.block.bytes j

theorem Validity.Agrees.put {v w : Validity} {i : Nat} (h : v.Agrees w) (hv : i < v.bitCapacity)
    (hw : i < w.bitCapacity) (b : Bool) : (v.put i b).Agrees (w.put i b) := by
  intro j
  simp only [bitCapacity, Block.size] at hv hw
  rw [Validity.put, Validity.put, Bits.get_put (by omega), Bits.get_put (by omega), h j]

namespace Column

variable {t : ColumnType} {w : OffsetWidth} {v v' v₁ v₁' : Validity} {o o' o₁ o₁' : OffsetTable w}
  {c c' d d' : Column t} {s : Owned t} {xs : Slots} {i n : Nat} {x : Option (List UInt8)}

theorem blankSlots?_agrees (h : v.Agrees v') (hv : blankSlots? v o i n = some (v₁, o₁))
    (hv' : blankSlots? v' o' i n = some (v₁', o₁')) : v₁.Agrees v₁' := by
  induction n generalizing v v' o o' i with
  | zero =>
    cases hv
    cases hv'
    exact h
  | succ n ih =>
    simp only [blankSlots?, Option.bind_eq_bind, Option.bind_eq_some_iff] at hv hv'
    obtain ⟨f, hf, -, -, p, -, hrest⟩ := hv
    obtain ⟨f', hf', -, -, p', -, hrest'⟩ := hv'
    obtain ⟨hi, rfl⟩ := Validity.put?_eq_some_iff.1 hf
    obtain ⟨hi', rfl⟩ := Validity.put?_eq_some_iff.1 hf'
    exact ih (h.put hi hi' false) hrest hrest'

/-- Writing one value to columns with the same extent and flags leaves the same extent and flags. -/
theorem put?_agrees (hextent : c'.extent = c.extent) (h : c.validity.Agrees c'.validity)
    (hput : c.put? i x = some d) (hput' : c'.put? i x = some d') :
    d'.extent = d.extent ∧ d.validity.Agrees d'.validity := by
  obtain ⟨plan, f, o₁, o₂, s₂, hplan, hfill, -, hi, rfl⟩ := put?_eq_some_iff.1 hput
  obtain ⟨plan', f', o₁', o₂', s₂', hplan', hfill', -, hi', rfl⟩ := put?_eq_some_iff.1 hput'
  rw [hextent, hplan] at hplan'
  cases hplan'
  exact ⟨rfl, (blankSlots?_agrees h hfill hfill').put hi hi' x.isSome⟩

end Column

/-! ## Both writes -/

namespace Op

variable {t : ColumnType}

/-- One operation writes slot `i` within the memory held, the other one makes room for it first. -/
structure WritesWithin (within growing : Op t Unit) (s : Owned t) (i : Nat) (ys : Slots)
    (z : Sizes) : Prop where
  /-- The contract is broken exactly where there is too little memory. -/
  breach_iff : within s = .breach ↔
    s.column.slotCapacity ≤ i ∨ s.column.byteCapacity < ys.bytes.length
  /-- Otherwise the slot is written, and the column looks as the other operation leaves it under any
  allocator where that is done, which it is if there is room. -/
  done : i < s.column.slotCapacity → ys.bytes.length ≤ s.column.byteCapacity →
    ∃ d, within s = .done () ⟨s.allocator, d⟩ ∧ d.Shows ys ∧
      (∀ b v, growing ⟨b, s.column⟩ = .done () v → d.LooksLike v.column) ∧
      ∀ b, (Owned.mk b s.column).HasRoom z → ∃ v, growing ⟨b, s.column⟩ = .done () v

end Op

namespace Column

variable {t : ColumnType} {c d : Column t} {s : Owned t} {xs : Slots} {i : Nat}

namespace Encodes

/-- A write within the memory held fails exactly where there is too little. -/
theorem put?_eq_none_iff (h : c.Encodes xs) (hmax : c.byteCapacity ≤ t.width.max)
    {x : Option (List UInt8)} :
    c.put? i x = none ↔ c.slotCapacity ≤ i ∨ c.byteCapacity < (xs.put i x).bytes.length := by
  constructor
  · intro hnone
    refine Decidable.byContradiction fun hroom => ?_
    rw [not_or, Nat.not_le, Nat.not_lt] at hroom
    obtain ⟨d, hd, -⟩ := h.exists_put? x hroom.1 hroom.2 (Nat.le_trans hroom.2 hmax)
    cases hnone.symm.trans hd
  · intro hroom
    cases hput : c.put? i x with
    | none => rfl
    | some d =>
      have := h.room_of_put? hput
      omega

theorem overwrite_of_some {x : Option Blob} (h : s.column.put? i (x.map Blob.toList) = some d) :
    (Edit.overwrite i x).run s = .done () ⟨s.allocator, d⟩ :=
  Op.change_of_some (f := fun c => c.put? i (x.map Blob.toList)) h

theorem overwrite_of_none {x : Option Blob} (h : s.column.put? i (x.map Blob.toList) = none) :
    (Edit.overwrite i x).run s = .breach :=
  Op.change_of_none (f := fun c => c.put? i (x.map Blob.toList)) h

/-- What the growing write leaves when it is done is what the other one leaves. -/
theorem looksLike_set (h : s.column.Encodes xs) {x : Option Blob} {v : Owned t}
    (hput : s.column.put? i (x.map Blob.toList) = some d)
    (hd : d.Encodes (xs.put i (x.map Blob.toList))) (hdone : set i x s = .done () v) :
    d.LooksLike v.column := by
  obtain ⟨u, hgrown, hput', hd'⟩ := h.of_set_done hdone
  have hbits : s.column.validity.Agrees u.column.validity := fun j =>
    (Bits.get_growsTo hgrown.column.flags j).symm
  obtain ⟨hextent, hagrees⟩ := put?_agrees hgrown.column.extent_eq hbits hput hput'
  exact hd.looksLike hd' hextent hagrees

/-- The two writes to one slot. -/
theorem writesWithin (h : s.column.Encodes xs) (hmax : s.column.byteCapacity ≤ t.width.max)
    (i : Nat) (x : Option Blob) : Op.WritesWithin (Edit.overwrite i x).run (set i x) s i
      (xs.put i (x.map Blob.toList)) ((Edit.set i x).sizes s.column xs) where
  breach_iff := by
    rw [← h.put?_eq_none_iff hmax]
    constructor
    · intro hbreach
      cases hput : s.column.put? i (x.map Blob.toList) with
      | none => rfl
      | some d => cases hbreach.symm.trans (overwrite_of_some hput)
    · exact overwrite_of_none
  done := fun hi hbytes => by
    obtain ⟨d, hput, hd, -⟩ := h.exists_put? _ hi hbytes (Nat.le_trans hbytes hmax)
    refine ⟨d, overwrite_of_some hput, hd.shows, fun b v hdone =>
      looksLike_set (s := ⟨b, s.column⟩) h hput hd hdone, fun b hroom => ?_⟩
    have hfits : (Edit.set i x).Fits t.width xs := by
      show xs.sizeWith i _ ≤ t.width.max
      rw [← Slots.length_value_map, ← Slots.length_bytes_put]
      exact Nat.le_trans hbytes hmax
    obtain ⟨v, hdone, -⟩ :=
      Edit.run_done (s := ⟨b, s.column⟩) (e := .set i x) h trivial hfits hroom
    exact ⟨v, hdone⟩

end Encodes

/-- Copying a slot within the memory held is writing it so, if the source has it. -/
theorem copySlotWithin_of_get {source : Column t} {x : Option (List UInt8)}
    (h : source.get i = some (.ok x)) (j : Nat) :
    copySlotWithin source i j = (Edit.overwrite j (x.map Blob.ofList)).run := by
  rw [copySlotWithin, slotOf_of_get h, pure_bind, Edit.run, Blob.map_toList_ofList]

end Column

/-! ## Columns of a workspace -/

namespace Workspace

variable {t : ColumnType} {w : Workspace} {limits : List Nat} {place : Nat} {seat : Seat t}

/-- On a column of a workspace, under any account, the writes within the memory held are the growing
ones without the growth. -/
structure Overwrites (w : Workspace) (c : Column t) (a : Allocator) (xs : Slots) : Prop where
  set : ∀ (i : Nat) (x : Option Blob), Op.WritesWithin (Edit.overwrite i x).run (Column.set i x)
    ⟨a, c⟩ i (xs.put i (x.map Blob.toList)) ((Edit.set i x).sizes c xs)
  /-- A null slot needs no room for values. -/
  set_null : ∀ i : Nat, (Edit.overwrite i none).run ⟨a, c⟩ = .breach ↔ c.slotCapacity ≤ i
  copySlot : ∀ (source : Nat) (giver : Seat t), (w.places t)[source]? = some (some giver) →
    ∀ i j : Nat, i < giver.column.count → ∃ x, giver.column.get i = some (.ok x) ∧
      Op.WritesWithin (giver.column.copySlotWithin i j) (giver.column.copySlot i j) ⟨a, c⟩ j
        (xs.put j x) ((Edit.set j (x.map Blob.ofList)).sizes c xs)

theorem overwrites_of_encodes {c : Column t} {xs : Slots} (h : w.Encoded) (hc : c.Encodes xs)
    (hmax : c.byteCapacity ≤ t.width.max) (a : Allocator) : w.Overwrites c a xs where
  set := Column.Encodes.writesWithin (s := ⟨a, c⟩) hc hmax
  set_null := fun i => by
    have hbytes : (xs.put i none).bytes.length ≤ c.byteCapacity := by
      rw [Slots.length_bytes_put]
      exact Nat.le_trans (Nat.sub_le ..) hc.byteCapacity
    have hiff := (Column.Encodes.writesWithin (s := ⟨a, c⟩) hc hmax i none).breach_iff
    rw [Option.map_none] at hiff
    exact hiff.trans (or_iff_left (Nat.not_lt_of_le hbytes))
  copySlot := fun source giver hgiver i j hi => by
    obtain ⟨zs, hzs⟩ := h t source giver (Session.seatAt?_eq_some.2 hgiver)
    rw [hzs.count] at hi
    have hx := hzs.get (List.getElem?_eq_getElem hi)
    have hwrites := Column.Encodes.writesWithin (s := ⟨a, c⟩) hc hmax j (zs[i].map Blob.ofList)
    rw [Blob.map_toList_ofList, ← Column.copySlotWithin_of_get hx,
      ← Column.copySlot_of_get hx] at hwrites
    exact ⟨zs[i], hx, hwrites⟩

/-- In every reachable workspace, a write within the memory of a column whose values end at an
offset in any case breaks its contract exactly where the growing write would have had to grow a
buffer, and otherwise leaves the same column. -/
theorem Reachable.overwrites (h : Reachable limits w)
    (hseat : (w.places t)[place]? = some (some seat))
    (hmax : seat.column.byteCapacity ≤ t.width.max) (a : Allocator) :
    ∃ xs, seat.column.slots? = some xs ∧ seat.column.Shows xs ∧ w.Overwrites seat.column a xs := by
  obtain ⟨xs, hxs⟩ := h.encoded t place seat (Session.seatAt?_eq_some.2 hseat)
  exact ⟨xs, hxs.slots?, hxs.shows, overwrites_of_encodes h.encoded hxs hmax a⟩

/-- Slots skipped over and the last one that there is memory for, and the first one that there is
none for. -/
theorem overwrites_of_skipped : ∃ (w : Workspace) (seat : Seat ⟨.bytes, .narrow⟩) (a : Allocator)
    (d : Column ⟨.bytes, .narrow⟩), Reachable [192] w ∧
      (w.places ⟨.bytes, .narrow⟩)[0]? = some (some seat) ∧ w.allocators[0]? = some a ∧
      seat.column.slots? = some [some [1, 2], none, some [3]] ∧
      w.Overwrites seat.column a [some [1, 2], none, some [3]] ∧
      (Edit.overwrite 5 (some ⟨[7], 61⟩)).run ⟨a, seat.column⟩ = .done () ⟨a, d⟩ ∧
      d.Shows [some [1, 2], none, some [3], none, none, some (List.replicate 61 7)] ∧
      (Edit.overwrite 5 (some ⟨[7], 62⟩)).run ⟨a, seat.column⟩ = .breach ∧
      (Edit.overwrite 15 none).run ⟨a, seat.column⟩ = .breach := by
  have hrun : Yields [192]
      [.create 0 0 { name := "a", type := ⟨.bytes, .narrow⟩ } { initialSlots := 1 },
        .edit 0 (.push (some ⟨[1, 2], 1⟩)), .edit 0 (.set 2 (some ⟨[3], 1⟩))]
      (fun (seat : Seat ⟨.bytes, .narrow⟩) _ => seat.home = 0 ∧
        seat.column.slots? = some [some [1, 2], none, some [3]] ∧
          seat.column.slotCapacity = 15 ∧ seat.column.byteCapacity = 64) = true := by
    decide +kernel
  obtain ⟨w, seat, a, hreach, hseat, ha, hend⟩ :=
    Reachable.of_yields hrun (by simp [Command.Safe, Edit.Safe])
  obtain ⟨hhome, hslots, hslotCapacity, hbyteCapacity⟩ := of_decide_eq_true hend
  obtain ⟨xs, hxs, -, hoverwrites⟩ := hreach.overwrites hseat (by rw [hbyteCapacity]; decide) a
  cases hslots.symm.trans hxs
  have hset := hoverwrites.set 5
  obtain ⟨d, hdone, hshows, -⟩ := (hset (some ⟨[7], 61⟩)).done (by rw [hslotCapacity]; decide)
    (by rw [hbyteCapacity]; decide)
  refine ⟨w, seat, a, d, hreach, hseat, hhome ▸ ha, hslots, hoverwrites, hdone, hshows,
    (hset (some ⟨[7], 62⟩)).breach_iff.2 (.inr ?_), (hoverwrites.set_null 15).2
      (Nat.le_of_eq hslotCapacity)⟩
  rw [hbyteCapacity]
  decide

end Workspace

end PackedColumn
