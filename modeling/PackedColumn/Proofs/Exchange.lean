import PackedColumn.Proofs.Arrays
import PackedColumn.Proofs.Capacity
import PackedColumn.Proofs.Encoding

/-!
# Columns and arrays

A column and an Arrow array with the same slots hold the same offset and value
bytes, so that a column goes out as an array and comes back without a
difference. An array that comes in may be a window on more data, or have data
behind null slots; the column made of it has the slots of the window and their
bytes alone.

* `Encodes.export?`: the array that a column is exported as.
* `Encodes.setFrom_within`: slots written one after the other where there is room for all of them.
* `ofArrow_done`: the import of any array, with room for the sizes it asks for (`ArrowArray.sizes`).
* `exchange`: both, for any column that ever arises and any array.
-/

namespace PackedColumn

/-- Every value is one of the element type: texts are UTF-8, and byte strings are any bytes. -/
def Element.Admits (e : Element) (xs : Slots) : Prop :=
  e = .text → ∀ v, some v ∈ xs → Utf8.fault? v = none

theorem Element.Admits.fault? {e : Element} {xs : Slots} (h : e.Admits xs)
    {x : Option (List UInt8)} (hx : x ∈ xs) : x.bind e.fault? = none := by
  cases x with
  | none => rfl
  | some v =>
    cases e with
    | text =>
      rw [Option.bind_some, Element.fault?, h rfl v hx]
      rfl
    | bytes => rfl

namespace Column

variable {t : ColumnType} {c d : Column t} {s u : Owned t} {xs ys : Slots} {i : Nat}

/-! ## Export -/

namespace Encodes

theorem exportFrom? (h : c.Encodes xs) (hvalues : t.element.Admits xs) (done : Slots) (i n : Nat)
    (hn : i + n ≤ xs.length) :
    c.exportFrom? done i n = some (.ok (done.reverse ++ (xs.drop i).take n)) := by
  induction n generalizing done i with
  | zero => simp [Column.exportFrom?]
  | succ n ih =>
    have hi : i < xs.length := by omega
    have hfault := hvalues.fault? (List.getElem_mem hi)
    simp only [Column.exportFrom?, h.slot? (List.getElem?_eq_getElem hi), Option.bind_eq_bind,
      Option.bind_some, hfault]
    rw [ih _ _ (by omega), List.drop_eq_getElem_cons hi, List.take_succ_cons, List.reverse_cons,
      List.append_assoc, List.singleton_append]

/-- A column goes out as the array made of its slots. -/
theorem export? (h : c.Encodes xs) (hvalues : t.element.Admits xs) {α : Type}
    (lib : ArrowLibrary α) : c.export? lib = some (.ok (lib.ofSlots xs)) := by
  rw [Column.export?, h.exportFrom? hvalues [] 0 c.count (by have := h.count; omega), h.count]
  simp only [List.reverse_nil, List.nil_append, List.drop_zero, List.take_length]
  rfl

end Encodes

/-! ## Import -/

namespace Encodes

/-- Slots written one after the other, where there is room for all of them. -/
theorem setFrom_within (h : s.column.Encodes xs) (hsettled : s.column.Settled)
    (hslots : xs.length + ys.length ≤ s.column.slotCapacity)
    (hbytes : (Slots.bytes (xs ++ ys)).length ≤ s.column.byteCapacity)
    (hfits : (Slots.bytes (xs ++ ys)).length ≤ t.width.max) :
    ∃ d, setFrom xs.length ys s = .done () ⟨s.allocator, d⟩ ∧ d.Encodes (xs ++ ys) := by
  induction ys generalizing s xs with
  | nil => exact ⟨s.column, rfl, by rw [List.append_nil]; exact h⟩
  | cons y ys ih =>
    rw [List.append_cons] at hbytes hfits ⊢
    rw [List.length_cons] at hslots
    have hput : xs.put xs.length ((y.map Blob.ofList).map Blob.toList) = xs ++ [y] := by
      rw [Slots.put_length, Blob.map_toList_ofList]
    have hfirst : (Slots.bytes (xs ++ [y])).length ≤ (Slots.bytes (xs ++ [y] ++ ys)).length := by
      rw [Slots.bytes_append (xs ++ [y]), List.length_append]
      exact Nat.le_add_right ..
    obtain ⟨d, hset, hplace, hd⟩ := h.set_within hsettled (i := xs.length) (x := y.map Blob.ofList)
      (by omega) (by rw [hput]; omega) (by rw [hput]; omega)
    rw [hput] at hd
    obtain ⟨d', hrest, hd'⟩ := ih (s := ⟨s.allocator, d⟩) hd (hplace.settled hsettled)
      (by rw [hplace.slotCapacity_eq, List.length_append, List.length_singleton]; omega)
      (by rw [hplace.byteCapacity_eq]; exact hbytes) hfits
    rw [List.length_append, List.length_singleton] at hrest
    exact ⟨d', by rw [setFrom, Call.bind_of_done hset]; exact hrest, hd'⟩

/-- Before the values have memory, an empty slot takes what is set aside for them. -/
theorem makeRoom_unsettled (h : s.column.Encodes xs) (hzero : s.column.byteCapacity = 0)
    (hinitial : 0 < s.column.initialBytes) (hi : i < s.column.slotCapacity) :
    makeRoom i 0 s = growValues s.column.initialBytes s := by
  have hbytes : xs.sizeWith i 0 = 0 := by
    have hle : xs.sizeWith i 0 ≤ xs.bytes.length := Nat.sub_le ..
    have := h.byteCapacity
    omega
  unfold makeRoom
  rw [Call.bind_of_done (Op.column_apply s),
    Call.bind_of_done (h.neededBytes_done (Nat.zero_le _) s), hbytes, if_neg (Nat.not_lt_zero _),
    if_pos hzero, Nat.zero_max, hzero, if_pos hinitial, if_neg (Nat.not_le_of_lt hi), bind_pure]

/-- Empty slots written one after the other before the values have memory. -/
theorem setFrom_unsettled (h : s.column.Encodes xs) (hzero : s.column.byteCapacity = 0)
    (hinitial : 0 < s.column.initialBytes) (hys : ys ≠ [])
    (hslots : xs.length + ys.length ≤ s.column.slotCapacity) (hempty : Slots.bytes ys = [])
    (hroom : s.HasRoom (s.column.sizes.withValues s.column.initialBytes)) :
    ∃ d b, setFrom xs.length ys s = .done () ⟨b, d⟩ ∧ d.Encodes (xs ++ ys) := by
  obtain ⟨y, ys, rfl⟩ := List.exists_cons_of_ne_nil hys
  obtain ⟨u, hgrow, hu⟩ := growValues_done hroom
  obtain ⟨-, hcapacity⟩ := (growValues_sat s.column.initialBytes s).of_done hgrow
  have hencodes := h.growsTo hu.column
  have hbytes : (Slots.bytes (xs ++ y :: ys)).length = xs.bytes.length := by
    rw [Slots.bytes_append, hempty, List.append_nil]
  have hsettled : u.column.Settled := .inl (Nat.ne_of_gt (Nat.lt_of_lt_of_le hinitial hcapacity))
  have hslots' := Nat.le_trans hslots hu.column.slotCapacity_le
  obtain ⟨d, hdone, hd⟩ := hencodes.setFrom_within hsettled hslots'
    (by rw [hbytes]; exact hencodes.byteCapacity) (by rw [hbytes]; exact h.fits)
  -- From here on it makes no difference whether the first slot or something else made that room.
  have hy : ((y.map Blob.ofList).map Blob.size).getD 0 = 0 := by
    rw [Slots.bytes_cons] at hempty
    rw [← Slots.length_value_map, Blob.map_toList_ofList, (List.append_eq_nil_iff.1 hempty).1]
    rfl
  have hset : set xs.length (y.map Blob.ofList) s = set xs.length (y.map Blob.ofList) u := by
    rw [List.length_cons] at hslots hslots'
    have hroom : xs.sizeWith xs.length 0 ≤ xs.bytes.length := Nat.sub_le ..
    rw [set, hy, Call.bind_of_done (h.makeRoom_unsettled hzero hinitial (by omega) |>.trans hgrow),
      Call.bind_of_done (hencodes.makeRoom_within hsettled (by omega)
        (Nat.le_trans hroom hencodes.byteCapacity) (Nat.le_trans hroom h.fits))]
  refine ⟨d, u.allocator, ?_, hd⟩
  rw [setFrom, Call.bind_apply, hset]
  exact hdone

end Encodes

end Column

/-- The sizes of the buffers of a column made of an array: room for the slots of the window and for
all data; without any data, what is set aside for the values of a new column. -/
def ArrowArray.sizes (w : OffsetWidth) (a : ArrowArray) : Sizes :=
  let z := (Sizes.mk 0 0 0).withValues a.dataSize |>.withSlots w a.slotCount
  if a.dataSize = 0 ∧ a.slotCount ≠ 0 then
    z.withValues (Settings.default.initialBytes Settings.default.initialSlots)
  else z

theorem ArrowArray.le_sizes (w : OffsetWidth) (a : ArrowArray) :
    (((Sizes.mk 0 0 0).withValues a.dataSize).withSlots w a.slotCount).Le (a.sizes w) := by
  unfold sizes
  dsimp only
  split
  · exact Sizes.le_withValues ..
  · exact ⟨Nat.le_refl _, Nat.le_refl _, Nat.le_refl _⟩

namespace Column

variable {t : ColumnType}

/-- There is nothing to give back of a new column. -/
theorem clear_new {a : Allocator} (ha : a.allocated ≤ Size.max) (name : String) (nullable : Bool)
    (settings : Settings) : (Owned.mk a (new name nullable settings : Column t)).clear =
      ⟨a, new name nullable settings⟩ := by
  have hrelease : a.release (.empty : Block) = a := by
    simp only [Allocator.release, Allocator.discharge, Block.size_empty,
      Size.subWrap_of_le (Nat.zero_le _) ha]
    simp
  simp only [Owned.clear, new, Validity.empty, OffsetTable.empty, ValueStore.empty, hrelease]

theorem build_of_done {fresh d : Column t} {op : Op t Unit} {a b : Allocator}
    (h : op ⟨a, fresh⟩ = .done () ⟨b, d⟩) : build fresh op a = .done d b := by
  simp only [build, h]

/-- The slots of an array written into memory that has been made for them, where there are data; and
where there are none, into such memory and what is set aside for the values. -/
theorem Encodes.setFrom_array {s : Owned t} (hs : s.column.Encodes []) {arr : ArrowArray}
    (h : arr.Fits t.width) (hslots : arr.slotCount ≤ s.column.slotCapacity)
    (hbytes : arr.dataSize ≤ s.column.byteCapacity)
    (hempty : arr.dataSize = 0 → arr.slotCount ≠ 0 → s.column.byteCapacity = 0 ∧
      0 < s.column.initialBytes ∧ s.HasRoom (s.column.sizes.withValues s.column.initialBytes)) :
    ∃ d b, setFrom 0 arr.slots s = .done () ⟨b, d⟩ ∧ d.Encodes arr.slots := by
  have hdata := h.data
  have hcount : ([] : Slots).length + arr.slots.length ≤ s.column.slotCapacity := by
    rw [ArrowArray.length_slots, List.length_nil, Nat.zero_add]
    exact hslots
  rcases Nat.eq_zero_or_pos arr.slotCount with hnone | hsome
  · have hnil : arr.slots = [] :=
      List.eq_nil_of_length_eq_zero ((ArrowArray.length_slots arr).trans hnone)
    rw [hnil]
    exact ⟨s.column, s.allocator, rfl, hs⟩
  rcases Nat.eq_zero_or_pos arr.dataSize with hzero | hpos
  · obtain ⟨hcapacity, hinitial, hroom⟩ := hempty hzero (Nat.ne_of_gt hsome)
    have hys : arr.slots ≠ [] := List.ne_nil_of_length_pos (by
      rw [ArrowArray.length_slots]
      exact hsome)
    exact hs.setFrom_unsettled hcapacity hinitial hys hcount
      (List.eq_nil_of_length_eq_zero (by omega)) hroom
  · obtain ⟨d, hdone, hd⟩ := hs.setFrom_within (.inl (by omega)) hcount
      (Nat.le_trans hdata hbytes) h.max
    exact ⟨d, s.allocator, hdone, hd⟩

/-- With room for the sizes it asks for, any array comes in as a column with its slots. -/
theorem ofArrow_done {arr : ArrowArray} (h : arr.Fits t.width) (name : String) {a : Allocator}
    (hlimit : a.limit ≤ Size.max)
    (hroom : (Owned.mk a (new name true .default : Column t)).HasRoom (arr.sizes t.width)) :
    ∃ d b, ofArrow name arr a = .done d b ∧ d.Encodes (t := t) arr.slots := by
  have hnew : (new name true .default : Column t).Encodes [] := encodes_new name true .default
  have hallocated : a.allocated ≤ Size.max := by
    have haccount := hroom.account
    rw [footprint_new] at haccount
    dsimp only at haccount
    omega
  have hfirst : (Owned.mk a (new name true .default : Column t)).HasRoom
      (((Sizes.mk 0 0 0).withValues arr.dataSize).withSlots t.width arr.slotCount) :=
    hroom.mono (arr.le_sizes t.width)
  obtain ⟨u, hreserve, hu⟩ := reserve_done (s := ⟨a, new name true .default⟩) (t := t)
    hnew.get?_count_ne_none hfirst
  obtain ⟨-, hslots, hbytes⟩ := (reserve_sat arr.slotCount arr.dataSize _).of_done hreserve
  have hrenew : renewWith arr.dataSize arr.slotCount ⟨a, (new name true .default : Column t)⟩ =
      .done () u := by
    rw [renewWith_eq_done_iff, clear_new hallocated]
    exact hreserve
  obtain ⟨d, b, hdone, hd⟩ := Encodes.setFrom_array (hnew.growsTo hu.column) h hslots hbytes
    fun hzero hsome => by
      have hinitial : u.column.initialBytes =
          Settings.default.initialBytes Settings.default.initialSlots := by rw [hu.column.same]; rfl
      have hcapacity : u.column.sizes.values = Sizes.grown 0 arr.dataSize := by rw [hu.sizes]; rfl
      rw [ArrowArray.sizes, if_pos ⟨hzero, hsome⟩] at hroom
      refine ⟨hcapacity.trans (by rw [hzero]; rfl), by rw [hinitial]; decide, ?_⟩
      rw [hinitial, hu.sizes]
      exact hu.hasRoom hroom
  exact ⟨d, b, build_of_done (by rw [Call.bind_of_done hrenew]; exact hdone), hd⟩

/-! ## Both ways -/

/-- The column shows the slots and gives out their encoding, which starts at offset 0 and has no
other bytes. -/
def Holds (xs : Slots) (c : Column t) : Prop :=
  c.Shows xs ∧ ∃ b, c.buffers? = some b ∧ b.Represents t.width xs

end Column

/-- By any name and under any account with room for it, the array comes in as such a column. -/
def ArrowArray.ImportedAs {t : ColumnType} (arr : ArrowArray) (P : Column t → Prop) : Prop :=
  ∀ (name : String) (a : Allocator), a.limit ≤ Size.max →
    (Owned.mk a (Column.new name true .default : Column t)).HasRoom (arr.sizes t.width) →
      ∃ d b, Column.ofArrow name arr a = .done d b ∧ P d

section ArrowLibrary

variable {α : Type} (lib : ArrowLibrary α)

/-- A column with the given slots goes out as an array, with its offset and value bytes, and what
comes back compares equal to it. -/
structure Column.ExportedAs {t : ColumnType} (c : Column t) (xs : Slots) (arr : α) : Prop where
  done : c.export? lib = some (.ok arr)
  slots : (lib.view arr).slots = xs
  buffers : ∃ b, c.buffers? = some b ∧
    (lib.offsets arr).flatMap (fun e : Nat => t.width.encode e) = b.offsets ∧
      lib.data arr = b.values
  back : (lib.view arr).ImportedAs fun d => c.sameSlots? d = some true

/-- An array comes in with its slots, and every window on it with the slots of the window. -/
structure ArrowLibrary.ComesIn (t : ColumnType) (arr : α) : Prop where
  whole : (lib.view arr).ImportedAs (t := t) (Column.Holds (lib.view arr).slots)
  window : ∀ start length : Nat, start + length ≤ (lib.view arr).slotCount →
    ∃ b, lib.slice? arr start length = some b ∧
      (lib.view b).slots = Slots.slice (lib.view arr).slots start length ∧
      (lib.view b).ImportedAs (t := t)
        (Column.Holds (Slots.slice (lib.view arr).slots start length))

end ArrowLibrary

section ArrowLibrary

variable {t : ColumnType} {α : Type} {lib : ArrowLibrary α}

theorem Column.Encodes.holds {c : Column t} {xs : Slots} (h : c.Encodes xs) : c.Holds xs :=
  ⟨h.shows, h.represents⟩

theorem ArrowArray.Fits.importedAs {arr : ArrowArray} (h : arr.Fits t.width) :
    arr.ImportedAs (t := t) (Column.Holds arr.slots) := by
  intro name a hlimit hroom
  obtain ⟨d, b, hdone, hd⟩ := Column.ofArrow_done h name hlimit hroom
  exact ⟨d, b, hdone, hd.holds⟩

namespace ArrowLibrary.Standard

theorem comesIn (hlib : lib.Standard t.width) (arr : α) : lib.ComesIn t arr where
  whole := (hlib.laidOut arr).fits.importedAs
  window := fun start length hrange => by
    obtain ⟨b, hb, hwindow⟩ := hlib.slice? arr start length hrange
    have hslots := hwindow.slots_eq hrange
    exact ⟨b, hb, hslots, hslots ▸ (hlib.laidOut b).fits.importedAs⟩

theorem exportedAs (hlib : lib.Standard t.width) {c : Column t} {xs : Slots} (h : c.Encodes xs)
    (hvalues : t.element.Admits xs) : c.ExportedAs lib xs (lib.ofSlots xs) := by
  have hlaid := hlib.laidOut (lib.ofSlots xs)
  have hmade := hlib.ofSlots xs h.fits
  have hslots := hlaid.slots_eq hmade
  refine ⟨h.export? hvalues lib, hslots, ?_, fun name a hlimit hroom => ?_⟩
  · obtain ⟨b, hb, hrepresents⟩ := h.represents
    refine ⟨b, hb, ?_, by rw [hmade.data, hrepresents.values_eq]⟩
    simp only [hrepresents.offsets, hmade.offsets, List.flatMap_map, Slots.prefixSum_eq]
  · obtain ⟨d, b, hdone, hd⟩ := Column.ofArrow_done hlaid.fits name hlimit hroom
    rw [hslots] at hd
    have hsame := h.sameSlots? hd
    rw [decide_eq_true rfl] at hsame
    exact ⟨d, b, hdone, hsame⟩

end ArrowLibrary.Standard

end ArrowLibrary

namespace Workspace

/-- Every column of a reachable workspace whose values are of its element type goes out as an array
with the same slots, offsets and value bytes, and comes back equal to itself; and every array comes
in with exactly the slots of its window, in their one encoding. The library of arrays is any that
lays them out in the Arrow way. -/
theorem exchange (t : ColumnType) {α : Type} (lib : ArrowLibrary α)
    (hlib : lib.Standard t.width) :
    (∀ (limits : List Nat) (w : Workspace) (place : Nat) (seat : Seat t), Reachable limits w →
      (w.places t)[place]? = some (some seat) →
        ∃ xs, seat.column.slots? = some xs ∧ seat.column.Shows xs ∧
          (t.element.Admits xs → ∃ arr, seat.column.ExportedAs lib xs arr)) ∧
    ∀ arr, lib.ComesIn t arr := by
  refine ⟨fun limits w place seat h hseat => ?_, hlib.comesIn⟩
  obtain ⟨xs, hxs⟩ := h.encoded t place seat (Session.seatAt?_eq_some.2 hseat)
  exact ⟨xs, hxs.slots?, hxs.shows, fun hvalues => ⟨_, hlib.exportedAs hxs hvalues⟩⟩

/-- A column with a null slot and a slot written anew, which goes out as a plain array and comes
back; and the last two slots of the array, whose first value stays behind. -/
theorem exchange_of_rewritten : ∃ (w : Workspace) (seat : Seat ⟨.text, .narrow⟩)
    (arr slice : PlainArray .narrow) (d e : Column ⟨.text, .narrow⟩) (a b : Allocator),
    Reachable [192] w ∧ (w.places ⟨.text, .narrow⟩)[0]? = some (some seat) ∧
      seat.column.ExportedAs (PlainArray.library .narrow)
        [some [97, 98], none, some [195, 169]] arr ∧
      Column.ofArrow "b" arr.view { limit := 192 } = .done d a ∧
      seat.column.sameSlots? d = some true ∧ arr.slice? 1 2 = some slice ∧
      slice.data = [97, 98, 195, 169] ∧
      Column.ofArrow "c" slice.view { limit := 192 } = .done e b ∧
      e.Holds [none, some [195, 169]] := by
  have hrun : Yields [192]
      [.create 0 0 { name := "a", type := ⟨.text, .narrow⟩ } { initialSlots := 1 },
        .edit 0 (.setText 2 "é"), .edit 0 (.setText 0 "a"), .edit 0 (.setText 0 "ab")]
      (fun (seat : Seat ⟨.text, .narrow⟩) _ =>
        seat.column.slots? = some [some [97, 98], none, some [195, 169]]) = true := by
    decide +kernel
  obtain ⟨w, seat, _, hreach, hseat, -, hend⟩ :=
    Reachable.of_yields hrun (by simp [Command.Safe, Edit.Safe])
  have hslots := of_decide_eq_true hend
  obtain ⟨hout, hin⟩ :=
    exchange ⟨.text, .narrow⟩ (PlainArray.library .narrow) (PlainArray.standard .narrow)
  obtain ⟨xs, hxs, -, harray⟩ := hout _ w 0 seat hreach hseat
  cases hslots.symm.trans hxs
  have hvalues : Element.text.Admits [some [97, 98], none, some [195, 169]] := by
    intro _ v hv
    simp only [List.mem_cons, Option.some.injEq, reduceCtorEq, List.not_mem_nil, or_false,
      false_or] at hv
    rcases hv with rfl | rfl <;> decide +kernel
  obtain ⟨arr, hexported⟩ := harray hvalues
  obtain ⟨ys, hys⟩ := hreach.encoded _ 0 seat (Session.seatAt?_eq_some.2 hseat)
  cases hslots.symm.trans hys.slots?
  cases hexported.done.symm.trans (hys.export? hvalues _)
  obtain ⟨d, a, hd, hsame⟩ := hexported.back "b" { limit := 192 } (by decide) (by decide +kernel)
  obtain ⟨slice, hslice, -, himported⟩ := (hin ((PlainArray.library .narrow).ofSlots
    [some [97, 98], none, some [195, 169]])).window 1 2 (by decide)
  cases hslice.symm.trans (show _ = some _ from rfl)
  obtain ⟨e, b, he, hholds⟩ := himported "c" { limit := 192 } (by decide) (by decide +kernel)
  rw [hexported.slots] at hholds
  exact ⟨w, seat, _, _, d, e, a, b, hreach, hseat, hexported, hd, hsame, hslice, by decide +kernel,
    he, hholds⟩

end Workspace

end PackedColumn
