import PackedColumn.Proofs.Copies
import PackedColumn.Proofs.Workspaces

/-!
# The bytes of the defined slots

A list of slots has one encoding in three buffers: the prefix sums of the
lengths, the bytes of all values one behind the other, and a flag for each slot
that holds one (`Buffers.Represents`). `Buffers.slots` reads such buffers
without a column, and what a column gives out is always the encoding of the
slots that it shows. Only the flags past the last slot are left open.

* `Represents.slots_eq`: decoding gives the slots back.
* `Represents.eq_iff`: slots are equal exactly when their encodings are.
* `Encodes.represents`: a column that stands for slots gives out their encoding.
* `Reachable.buffers_canonical`: both, for any two columns that ever arise.
-/

namespace PackedColumn

/-! ## Blocks of one length -/

section blocks

variable {α : Type} {f : Nat → List α} {k : Nat}

theorem length_flatMap_range (hf : ∀ i, (f i).length = k) (n : Nat) :
    ((List.range n).flatMap f).length = n * k := by
  induction n with
  | zero => simp
  | succ n ih =>
    rw [List.range_succ, List.flatMap_append, List.flatMap_singleton, List.length_append, ih, hf,
      Nat.add_mul, Nat.one_mul]

theorem take_drop_flatMap_range (hf : ∀ i, (f i).length = k) {i n : Nat} (hi : i < n) :
    (((List.range n).flatMap f).drop (i * k)).take k = f i := by
  induction n with
  | zero => omega
  | succ n ih =>
    have hlen := length_flatMap_range hf n
    rw [List.range_succ, List.flatMap_append, List.flatMap_singleton]
    rcases Nat.lt_or_ge i n with hlt | hge
    · have hblock : (i + 1) * k ≤ n * k := Nat.mul_le_mul_right k hlt
      rw [Nat.add_mul, Nat.one_mul] at hblock
      rw [List.drop_append_of_le_length (by omega),
        List.take_append_of_le_length (by rw [List.length_drop]; omega), ih hlt]
    · obtain rfl : i = n := by omega
      rw [List.drop_left' hlen, List.take_of_length_le (Nat.le_of_eq (hf i))]

end blocks

namespace Slots

/-- The sum of the lengths of the first `i` slots, a null one counting 0. -/
def prefixSum (xs : Slots) (i : Nat) : Nat :=
  Size.total ((xs.take i).map fun x => (x.getD []).length)

theorem prefixSum_eq (xs : Slots) (i : Nat) : xs.prefixSum i = xs.offset i := by
  rw [prefixSum, offset]
  induction xs.take i with
  | nil => rfl
  | cons x xs ih =>
    rw [bytes_cons, List.length_append, List.map_cons, Size.total_cons, ih]
    rfl

/-- The values that are there, one behind the other. -/
theorem bytes_eq_flatten (xs : Slots) : xs.bytes = (xs.filterMap id).flatten := by
  induction xs with
  | nil => rfl
  | cons x xs ih =>
    rw [bytes_cons, ih]
    cases x with
    | none => rfl
    | some v => rfl

end Slots

namespace Buffers

variable {b b' : Buffers} {w : OffsetWidth} {xs ys : Slots}

/-! ## Reading buffers -/

/-- The number of slots: there is one offset more. -/
def slotCount (b : Buffers) (w : OffsetWidth) : Nat := b.offsets.length / w.bytes - 1

/-- Offset `i` as a byte position. -/
def position (b : Buffers) (w : OffsetWidth) (i : Nat) : Nat :=
  (w.decode ((b.offsets.drop (i * w.bytes)).take w.bytes)).toNat

/-- Slot `i`: the bytes between two offsets, if its flag is set. -/
def slot (b : Buffers) (w : OffsetWidth) (i : Nat) : Option (List UInt8) :=
  if Bits.get b.validity.toArray i then
    some ((b.values.drop (b.position w i)).take (b.position w (i + 1) - b.position w i))
  else none

/-- The slots in order. -/
def slots (b : Buffers) (w : OffsetWidth) : Slots := (List.range (b.slotCount w)).map (b.slot w)

/-- The buffers are the encoding of a list of slots. -/
structure Represents (b : Buffers) (w : OffsetWidth) (xs : Slots) : Prop where
  offsets_length : b.offsets.length = (xs.length + 1) * w.bytes
  /-- The offsets are the prefix sums of the lengths. -/
  offsets : b.offsets = (List.range (xs.length + 1)).flatMap fun i => w.encode (xs.prefixSum i)
  /-- All of them are offsets of the width. -/
  fits : ∀ i, w.Holds (xs.prefixSum i)
  values : b.values = (xs.filterMap id).flatten
  validity_length : b.validity.length = (xs.length + 7) / 8
  /-- The flags of slots with a value are set, counted from the lowest bit of each byte. -/
  validity : ∀ i < xs.length, Bits.get b.validity.toArray i = true ↔ xs[i]? ≠ some none

namespace Represents

theorem values_eq (h : b.Represents w xs) : b.values = xs.bytes := by
  rw [h.values, Slots.bytes_eq_flatten]

theorem position_eq (h : b.Represents w xs) {i : Nat} (hi : i ≤ xs.length) :
    b.position w i = xs.offset i := by
  have hblock := take_drop_flatMap_range (f := fun i => w.encode (xs.prefixSum i))
    (fun _ => OffsetWidth.length_encode ..) (Nat.lt_succ_of_le hi)
  rw [position, h.offsets, hblock, OffsetWidth.decode_encode (h.fits i), Int.toNat_natCast,
    Slots.prefixSum_eq]

theorem slotCount_eq (h : b.Represents w xs) : b.slotCount w = xs.length := by
  rw [slotCount, h.offsets_length, Nat.mul_div_cancel _ w.bytes_pos, Nat.add_sub_cancel]

theorem slot_eq (h : b.Represents w xs) {i : Nat} {x : Option (List UInt8)}
    (hx : xs[i]? = some x) : b.slot w i = x := by
  obtain ⟨hi, hx'⟩ := List.getElem?_eq_some_iff.1 hx
  have hflag := h.validity i hi
  rw [hx] at hflag
  cases x with
  | none =>
    rw [slot, if_neg fun hset => hflag.1 hset rfl]
  | some v =>
    have hstop := Slots.offset_succ hi
    rw [hx', Slots.value_some] at hstop
    have hbytes := Slots.bytes_eq_of_lt hi
    rw [hx', Slots.value_some, List.append_assoc] at hbytes
    rw [slot, if_pos (hflag.2 nofun), h.position_eq (Nat.le_of_lt hi), h.position_eq hi, h.values_eq,
      hbytes, hstop, Nat.add_sub_cancel_left, Slots.offset, List.drop_left, List.take_left]

/-- Decoding the buffers gives the slots back. -/
theorem slots_eq (h : b.Represents w xs) : b.slots w = xs := by
  refine List.ext_getElem (by rw [slots, List.length_map, List.length_range, h.slotCount_eq])
    fun i hi hi' => ?_
  simp only [slots, List.getElem_map, List.getElem_range]
  exact h.slot_eq (List.getElem?_eq_getElem hi')

/-- Slots are equal exactly when their encodings are, but for the flags behind the last slot. -/
theorem eq_iff (h : b.Represents w xs) (h' : b'.Represents w ys) :
    xs = ys ↔ b.offsets = b'.offsets ∧ b.values = b'.values ∧
      ∀ i < xs.length, Bits.get b.validity.toArray i = Bits.get b'.validity.toArray i := by
  constructor
  · rintro rfl
    refine ⟨h.offsets.trans h'.offsets.symm, h.values.trans h'.values.symm, fun i hi => ?_⟩
    exact Bool.eq_iff_iff.2 ((h.validity i hi).trans (h'.validity i hi).symm)
  · -- The decoder reads nothing but what is equal here.
    rintro ⟨hoffsets, hvalues, hflags⟩
    have hcount : b.slotCount w = b'.slotCount w := by rw [slotCount, slotCount, hoffsets]
    have hposition : b.position w = b'.position w := by
      funext i
      rw [position, position, hoffsets]
    rw [← h.slots_eq, ← h'.slots_eq, slots, slots, hcount]
    refine List.map_congr_left fun i hi => ?_
    rw [List.mem_range, ← hcount, h.slotCount_eq] at hi
    rw [slot, slot, hflags i hi, hposition, hvalues]

end Represents

end Buffers

/-! ## Columns -/

namespace Column

variable {t : ColumnType} {c d : Column t} {xs ys : Slots}

namespace Encodes

/-- A column that stands for slots gives out their encoding. -/
theorem represents (h : c.Encodes xs) : ∃ b, c.buffers? = some b ∧ b.Represents t.width xs := by
  have hcount : c.count ≤ c.validity.bitCapacity := by
    rw [h.count]
    exact Nat.le_trans h.le_slotCapacity (Nat.min_le_left ..)
  obtain ⟨flags, hflags, hlen, hbits⟩ := Validity.exists_covering? hcount
  have hcover := Bits.le_byteCount c.count
  rw [h.count] at hlen hcover
  have hentries : c.offsets.entries? c.count =
      some ((List.range (xs.length + 1)).flatMap fun i => t.width.encode (xs.prefixSum i)) := by
    simp only [h.count, OffsetTable.entries?_eq h.offsets, Slots.prefixSum_eq]
  refine ⟨⟨flags, _, xs.bytes⟩, ?_, length_flatMap_range (fun _ => OffsetWidth.length_encode ..) _,
    rfl, fun i => ?_, Slots.bytes_eq_flatten xs, ?_, fun i hi => ?_⟩
  · simp only [buffers?, hflags, hentries, h.totalBytes?, h.leading?, Option.bind_eq_bind,
      Option.bind_some]
    rfl
  · rw [Slots.prefixSum_eq]
    exact OffsetWidth.holds_natCast (Nat.le_trans (Slots.offset_le xs i) h.fits)
  · rw [hlen, Bits.byteCount]
    split <;> omega
  · have hx := List.getElem?_eq_getElem hi
    have hflag := (Validity.get?_eq_some_iff.1 (h.flags i _ hx)).2
    rw [hbits i (by omega), hflag, hx]
    cases xs[i] <;> simp

theorem agreeFrom? (hc : c.Encodes xs) (hd : d.Encodes ys) {i n : Nat} (hx : i + n ≤ xs.length)
    (hy : i + n ≤ ys.length) :
    c.agreeFrom? d i n = some (decide ((xs.drop i).take n = (ys.drop i).take n)) := by
  induction n generalizing i with
  | zero => simp [Column.agreeFrom?]
  | succ n ih =>
    have hix : i < xs.length := by omega
    have hiy : i < ys.length := by omega
    simp only [Column.agreeFrom?, hc.slot? (List.getElem?_eq_getElem hix),
      hd.slot? (List.getElem?_eq_getElem hiy), Option.bind_eq_bind, Option.bind_some]
    rw [List.drop_eq_getElem_cons hix, List.drop_eq_getElem_cons hiy, List.take_succ_cons,
      List.take_succ_cons]
    split
    · rename_i heq
      rw [ih (by omega) (by omega), heq]
      simp
    · rename_i hne
      simp [hne]

/-- Columns are compared by their slots. -/
theorem sameSlots? (hc : c.Encodes xs) (hd : d.Encodes ys) :
    c.sameSlots? d = some (decide (xs = ys)) := by
  rw [Column.sameSlots?]
  split
  · rename_i hcount
    rw [hc.count, hd.count] at hcount
    rw [hc.agreeFrom? hd (by rw [hc.count]; omega) (by rw [hc.count]; omega), hc.count, List.drop_zero,
      List.drop_zero, List.take_length, hcount, List.take_length]
  · rename_i hcount
    rw [hc.count, hd.count] at hcount
    rw [decide_eq_false fun heq => hcount (congrArg List.length heq)]

end Encodes

end Column

namespace Workspace

variable {t : ColumnType} {w : Workspace} {limits : List Nat} {place : Nat} {seat : Seat t}

/-- A column of a reachable workspace gives out the encoding of the slots it shows, from which they
can be read again, and it compares equal to a column of its type in the same or any other reachable
workspace exactly when the bytes of both are equal, flags behind the last slot apart. -/
theorem Reachable.buffers_canonical (h : Reachable limits w)
    (hseat : (w.places t)[place]? = some (some seat)) :
    ∃ (xs : Slots) (b : Buffers), seat.column.Shows xs ∧ seat.column.buffers? = some b ∧
      b.Represents t.width xs ∧ b.slots t.width = xs ∧
      ∀ (limits' : List Nat) (w' : Workspace) (place' : Nat) (seat' : Seat t),
        Reachable limits' w' → (w'.places t)[place']? = some (some seat') →
        ∃ b' same, seat'.column.buffers? = some b' ∧
          seat.column.sameSlots? seat'.column = some same ∧
          (same = true ↔ b.offsets = b'.offsets ∧ b.values = b'.values ∧
            ∀ i < xs.length, Bits.get b.validity.toArray i = Bits.get b'.validity.toArray i) := by
  obtain ⟨xs, hxs⟩ := h.encoded t place seat (Session.seatAt?_eq_some.2 hseat)
  obtain ⟨b, hb, hrepresents⟩ := hxs.represents
  refine ⟨xs, b, hxs.shows, hb, hrepresents, hrepresents.slots_eq,
    fun limits' w' place' seat' h' hseat' => ?_⟩
  obtain ⟨ys, hys⟩ := h'.encoded t place' seat' (Session.seatAt?_eq_some.2 hseat')
  obtain ⟨b', hb', hrepresents'⟩ := hys.represents
  exact ⟨b', _, hb', hxs.sameSlots? hys,
    decide_eq_true_iff.trans (hrepresents.eq_iff hrepresents')⟩

/-- Two columns with different histories and memory, one of them dropped to fewer slots. -/
theorem buffers_canonical_of_rewritten : ∃ (w w' : Workspace) (seat seat' : Seat ⟨.bytes, .narrow⟩)
    (xs : Slots) (b b' : Buffers), Reachable [512] w ∧ Reachable [1024] w' ∧
      seat.column.footprint ≠ seat'.column.footprint ∧ seat.column.Shows xs ∧
      seat.column.buffers? = some b ∧ b.Represents .narrow xs ∧ b.slots .narrow = xs ∧
      seat'.column.buffers? = some b' ∧ seat.column.sameSlots? seat'.column = some true ∧
      b.offsets = b'.offsets ∧ b.values = b'.values ∧
      ∀ i < xs.length, Bits.get b.validity.toArray i = Bits.get b'.validity.toArray i := by
  have hrun : (runAll (start ([512].map fun l => { limit := l }) 1)
      ([.create 0 0 { name := "a", type := ⟨.bytes, .narrow⟩ } { initialSlots := 1 },
        .edit 0 (.pushAll [some ⟨[97, 98], 1⟩, none])].map fun c => (⟨.bytes, .narrow⟩, c))).any
      (fun w => (runAll (start ([1024].map fun l => { limit := l }) 1)
        ([.create 0 0 { name := "b", type := ⟨.bytes, .narrow⟩ } { initialSlots := 40 },
          .edit 0 (.set 2 (some ⟨[1], 3⟩)), .edit 0 (.set 0 (some ⟨[97, 98, 99], 1⟩)),
          .edit 0 (.set 0 (some ⟨[97, 98], 1⟩)), .edit 0 (.setCount 2)].map
            fun c => (⟨.bytes, .narrow⟩, c))).any
        (fun w' => ((w.session ⟨.bytes, .narrow⟩).seatAt? 0).any fun seat =>
          ((w'.session ⟨.bytes, .narrow⟩).seatAt? 0).any fun seat' =>
            seat.column.footprint ≠ seat'.column.footprint ∧
              seat.column.sameSlots? seat'.column = some true)) = true := by decide +kernel
  obtain ⟨w, hw, hrest⟩ := (Option.any_eq_true _ _).1 hrun
  obtain ⟨w', hw', hrest⟩ := (Option.any_eq_true _ _).1 hrest
  obtain ⟨seat, hseat, hrest⟩ := (Option.any_eq_true _ _).1 hrest
  obtain ⟨seat', hseat', hrest⟩ := (Option.any_eq_true _ _).1 hrest
  obtain ⟨hsize, hsame⟩ := of_decide_eq_true hrest
  have hreach := (Reachable.start 1).runAll (by simp [Command.Safe, Edit.Safe]) hw
  have hreach' := (Reachable.start 1).runAll (by simp [Command.Safe, Edit.Safe]) hw'
  obtain ⟨xs, b, hshows, hb, hrepresents, hslots, hcompare⟩ :=
    hreach.buffers_canonical (Session.seatAt?_eq_some.1 hseat)
  obtain ⟨b', same, hb', hanswer, hiff⟩ :=
    hcompare [1024] w' 0 seat' hreach' (Session.seatAt?_eq_some.1 hseat')
  have htrue : same = true := Option.some.inj (hanswer.symm.trans hsame)
  exact ⟨w, w', seat, seat', xs, b, b', hreach, hreach', hsize, hshows, hb, hrepresents, hslots, hb',
    hsame, hiff.1 htrue⟩

end Workspace

end PackedColumn
