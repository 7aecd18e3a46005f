import PackedColumn.Proofs.Encoding

/-!
# Readers

The readers of a column take different paths to their answers: single flags,
ones counted by whole bytes, single offsets, stretches of the value bytes, or
the three buffers given out. On a column that stands for slots they tell of
the same list (`Readings`), whatever the buffers hold behind the last slot.

* `Bits.count_eq`: counting by whole bytes counts single bits.
* `Encodes.nullCount?_eq`, `Encodes.size?_eq`: the readers of a whole column.
* `Encodes.readsValue`, `readsOutside`: the readers of one slot, defined or not.
* `Encodes.iterates`: the cursor, after any number of steps.
* `Reachable.readers_agree`: all of them, on any column that ever arises.
-/

namespace PackedColumn

/-! ## Counting -/

theorem Size.total_append (ms ns : List Nat) : total (ms ++ ns) = total ms + total ns := by
  induction ms with
  | nil => exact (Nat.zero_add _).symm
  | cons m ms ih => rw [List.cons_append, total_cons, total_cons, ih, Nat.add_assoc]

/-- Counting positions of a list is counting its elements. -/
theorem countP_range_length {α : Type} {xs : List α} {p : Nat → Bool} {q : α → Bool}
    (h : ∀ i x, xs[i]? = some x → p i = q x) :
    (List.range xs.length).countP p = xs.countP q := by
  have hmap : (List.range xs.length).map p = xs.map q := by
    refine List.ext_getElem (by simp) fun i hi hi' => ?_
    rw [List.length_map] at hi'
    rw [List.getElem_map, List.getElem_map, List.getElem_range,
      h i _ (List.getElem?_eq_getElem hi')]
  have hcount := congrArg (List.countP id) hmap
  rwa [List.countP_map, List.countP_map] at hcount

namespace Bits

variable {bytes : Bytes} {n : Nat}

/-- The ones of one byte among those of the sequence. -/
theorem countFrom_byte (bytes : Bytes) (k : Nat) :
    countFrom bytes (k * 8) 8 = popcount (bytes.getD k 0) := by
  rw [countFrom, List.range'_eq_map_range, List.countP_map, popcount_eq]
  refine List.countP_congr fun j hj => ?_
  rw [List.mem_range] at hj
  rw [Function.comp_apply, get, show (k * 8 + j) / 8 = k by omega,
    show (k * 8 + j) % 8 = j by omega]

theorem countFrom_add (bytes : Bytes) (i m n : Nat) :
    countFrom bytes i (m + n) = countFrom bytes i m + countFrom bytes (i + m) n := by
  rw [countFrom, ← List.range'_append_1, List.countP_append]
  rfl

theorem total_popcount {k : Nat} (hk : k ≤ bytes.size) :
    Size.total ((bytes.slice 0 k).map popcount) = countFrom bytes 0 (k * 8) := by
  induction k with
  | zero => simp [Bytes.slice_eq, countFrom]
  | succ k ih =>
    have hlt : k < bytes.toList.length := hk
    have hslice : bytes.slice 0 (k + 1) = bytes.slice 0 k ++ [bytes.getD k 0] := by
      rw [Bytes.slice_eq, Bytes.slice_eq, List.drop_zero, Nat.sub_zero, Nat.sub_zero,
        List.take_succ_eq_append_getElem hlt, Array.getD_eq_getD_getElem?,
        Array.getElem?_eq_getElem hk]
      rfl
    rw [hslice, List.map_append, Size.total_append, ih (by omega), Nat.add_mul, Nat.one_mul,
      countFrom_add, Nat.zero_add, countFrom_byte]
    rfl

/-- Counting whole bytes at once finds the ones that single bits show. -/
theorem count_eq (hn : n ≤ 8 * bytes.size) : count bytes n = (List.range n).countP (get bytes) := by
  rw [count, total_popcount (by omega)]
  have hsplit := countFrom_add bytes 0 (n / 8 * 8) (n % 8)
  rw [Nat.zero_add, show n / 8 * 8 + n % 8 = n by omega] at hsplit
  rw [← hsplit, countFrom, List.range_eq_range']

end Bits

namespace Column

variable {t : ColumnType} {c : Column t} {xs : Slots} {b : Buffers} {i : Nat}
  {x : Option (List UInt8)}

/-! ## The whole column -/

theorem Encodes.nullCount?_eq (h : c.Encodes xs) :
    c.nullCount? = some (xs.countP Option.isNone) := by
  have hroom : xs.length ≤ c.validity.bitCapacity :=
    Nat.le_trans h.le_slotCapacity (Nat.min_le_left ..)
  have hbits : xs.length ≤ 8 * c.validity.block.bytes.size := by
    simp only [Validity.bitCapacity, Block.size] at hroom
    omega
  have hset : (List.range xs.length).countP (Bits.get c.validity.block.bytes) =
      xs.countP Option.isSome :=
    countP_range_length fun i x hx => (Validity.get?_eq_some_iff.1 (h.flags i x hx)).2
  have hall := List.length_eq_countP_add_countP Option.isSome (l := xs)
  have hnull : xs.countP Option.isNone = xs.countP fun x => ¬ x.isSome :=
    List.countP_congr fun x _ => by cases x <;> simp
  rw [Column.nullCount?, h.count, Validity.nullCount?, if_pos hroom, Bits.count_eq hbits, hset,
    hnull]
  congr 1
  omega

/-- The size of a column is that of its buffers, of which an empty one counts none. -/
theorem Encodes.size?_eq (h : c.Encodes xs) (hb : c.buffers? = some b) :
    c.size? = some (if xs.length = 0 then 0
      else b.validity.length + b.offsets.length + b.values.length) := by
  rw [Column.size?, hb, h.count, Option.map_some]
  split <;> rfl

/-! ## One slot -/

/-- All readers of slot `i` tell of the value `x`, and find it in the buffers where the lengths of
the slots before put it. -/
structure ReadsValue (c : Column t) (b : Buffers) (xs : Slots) (i : Nat)
    (x : Option (List UInt8)) : Prop where
  get : c.get i = some (.ok x)
  readInto : ∀ buffer, c.readInto i buffer = .done x.isSome (x.getD [])
  isNull : c.isNull? i = some x.isNone
  isSet : c.isSet? i = some !x.isNone
  startOffset : c.startOffset i = some (.ok (xs.prefixSum i))
  stopOffset : c.stopOffset i = some (.ok (xs.prefixSum i + (x.getD []).length))
  /-- The next slot starts where this one stops. -/
  next : i + 1 < c.count → c.startOffset (i + 1) = c.stopOffset i
  length : c.length i = some (.ok (x.getD []).length)
  isEmptyAt : c.isEmptyAt i = some (.ok (x = none ∨ x = some []))
  values : (b.values.drop (xs.prefixSum i)).take (x.getD []).length = x.getD []

/-- All readers of slot `i` report that there is none, and leave what they were given alone. -/
structure ReadsOutside (c : Column t) (i : Nat) : Prop where
  get : c.get i = some (.error (.indexOutOfBounds i c.count))
  readInto : ∀ buffer, c.readInto i buffer = .refused (.indexOutOfBounds i c.count) buffer
  getText : c.getText i = some (.error (.indexOutOfBounds i c.count))
  startOffset : c.startOffset i = some (.error (.indexOutOfBounds i c.count))
  stopOffset : c.stopOffset i = some (.error (.indexOutOfBounds i c.count))
  length : c.length i = some (.error (.indexOutOfBounds i c.count))
  isEmptyAt : c.isEmptyAt i = some (.error (.indexOutOfBounds i c.count))

theorem readsOutside (hi : c.count ≤ i) : c.ReadsOutside i := by
  have hget : c.get i = some (.error (.indexOutOfBounds i c.count)) := atSlot_of_le hi _
  refine ⟨hget, fun buffer => ?_, ?_, atSlot_of_le hi _, atSlot_of_le hi _, atSlot_of_le hi _,
    atSlot_of_le hi _⟩
  · rw [readInto_apply, hget]
  · rw [getText, hget]
    rfl

namespace Encodes

theorem startOffset_eq (h : c.Encodes xs) (hi : i < xs.length) :
    c.startOffset i = some (.ok (xs.prefixSum i)) := by
  rw [Column.startOffset, atSlot_of_lt (by rwa [h.count]), h.start? (Nat.le_of_lt hi),
    Slots.prefixSum_eq]
  rfl

theorem stopOffset_eq (h : c.Encodes xs) (hi : i < xs.length) :
    c.stopOffset i = some (.ok (xs.prefixSum (i + 1))) := by
  have hstop : c.offsets.stop? i = some (xs.offset (i + 1)) := h.start? hi
  rw [Column.stopOffset, atSlot_of_lt (by rwa [h.count]), hstop, Slots.prefixSum_eq]
  rfl

theorem readsValue (h : c.Encodes xs) (hb : b.Represents t.width xs) (hx : xs[i]? = some x) :
    c.ReadsValue b xs i x := by
  obtain ⟨hi, hx'⟩ := List.getElem?_eq_some_iff.1 hx
  have hcount : i < c.count := by rwa [h.count]
  have hnull : c.isNull? i = some x.isNone := by
    rw [isNull?, if_pos hcount, h.flags i x hx]
    cases x <;> rfl
  have hsucc : xs.prefixSum (i + 1) = xs.prefixSum i + (x.getD []).length := by
    rw [Slots.prefixSum_eq, Slots.prefixSum_eq, Slots.offset_succ hi, hx']
    rfl
  refine ⟨h.get hx, fun buffer => ?_, hnull, ?_, h.startOffset_eq hi, ?_, fun hnext => ?_, ?_, ?_,
    ?_⟩
  · rw [readInto_apply, h.get hx]
  · rw [isSet?, hnull]
    rfl
  · rw [h.stopOffset_eq hi, hsucc]
  · rw [h.count] at hnext
    rw [h.startOffset_eq hnext, h.stopOffset_eq hi]
  · rw [Column.length, atSlot_of_lt hcount, h.length? hx]
    rfl
  · rw [Column.isEmptyAt, atSlot_of_lt hcount, h.length? hx]
    cases x with
    | none => rfl
    | some v => cases v <;> simp
  · have hbytes := Slots.bytes_eq_of_lt hi
    rw [hx', List.append_assoc] at hbytes
    rw [hb.values_eq, hbytes, Slots.prefixSum_eq, Slots.offset, List.drop_left]
    exact List.take_left ..

/-! ## Slot after slot -/

theorem next?_eq (h : c.Encodes xs) (i : Nat) :
    (Cursor.mk c i).next? = some (xs[i]?, ⟨c, if i < xs.length then i + 1 else i⟩) := by
  rw [Cursor.next?, h.count]
  by_cases hi : i < xs.length
  · rw [if_pos hi, if_pos hi, h.slot? (List.getElem?_eq_getElem hi), List.getElem?_eq_getElem hi]
    rfl
  · rw [if_neg hi, if_neg hi, List.getElem?_eq_none (Nat.le_of_not_lt hi)]

theorem advance?_eq (h : c.Encodes xs) {i : Nat} (hi : i ≤ xs.length) (n : Nat) :
    (Cursor.mk c i).advance? n = some ⟨c, min (i + n) xs.length⟩ := by
  induction n generalizing i with
  | zero => rw [Cursor.advance?, Nat.add_zero, Nat.min_eq_left hi]
  | succ n ih =>
    rw [Cursor.advance?, h.next?_eq]
    by_cases hlt : i < xs.length
    · rw [if_pos hlt, List.getElem?_eq_getElem hlt]
      simp only
      rw [ih hlt, Nat.succ_add, Nat.add_succ]
    · rw [if_neg hlt, List.getElem?_eq_none (Nat.le_of_not_lt hlt)]
      simp only [Option.some.injEq, Cursor.mk.injEq, true_and]
      omega

theorem rest?_eq (h : c.Encodes xs) {i : Nat} (hi : i ≤ xs.length) :
    (Cursor.mk c i).rest? = some (xs.drop i) := by
  have hcount : i + (c.count - i) = xs.length := by
    rw [h.count]
    omega
  rw [Cursor.rest?, Cursor.remaining, h.slotsFrom? [] i _ (Nat.le_of_eq hcount),
    List.take_of_length_le (by rw [List.length_drop]; omega)]
  rfl

end Encodes

/-- After `n` steps of a cursor from the first slot: how many slots are said to come and which do,
and that the step after them gives slot `n`, if there is one, and goes on to the one behind it. -/
def IteratesAt (c : Column t) (xs : Slots) (n : Nat) : Prop :=
  ∃ k after : Cursor t, (Cursor.start c).advance? n = some k ∧ k.remaining = xs.length - n ∧
    k.rest? = some (xs.drop n) ∧ k.next? = some (xs[n]?, after) ∧
    (Cursor.start c).advance? (n + 1) = some after

theorem Encodes.iterates (h : c.Encodes xs) (n : Nat) : c.IteratesAt xs n := by
  have hle : min n xs.length ≤ xs.length := Nat.min_le_right ..
  have hn := h.advance?_eq (Nat.zero_le _) n
  have hsucc := h.advance?_eq (Nat.zero_le _) (n + 1)
  rw [Nat.zero_add] at hn hsucc
  refine ⟨_, _, hn, ?_, ?_, (h.next?_eq _).trans ?_, hsucc⟩
  · rw [Cursor.remaining, h.count]
    dsimp only
    omega
  · rw [h.rest?_eq hle]
    rcases Nat.le_total n xs.length with hin | hout
    · rw [Nat.min_eq_left hin]
    · rw [Nat.min_eq_right hout, List.drop_length, List.drop_of_length_le hout]
  · -- Behind the last slot the cursor stands still.
    rcases Nat.lt_or_ge n xs.length with hin | hout
    · rw [Nat.min_eq_left (Nat.le_of_lt hin), if_pos hin, Nat.min_eq_left hin]
    · rw [Nat.min_eq_right hout, if_neg (Nat.lt_irrefl _), List.getElem?_eq_none (Nat.le_refl _),
        List.getElem?_eq_none hout, Nat.min_eq_right (Nat.le_succ_of_le hout)]

/-- What all readers of a column tell of its slots. -/
structure Readings (c : Column t) (xs : Slots) (b : Buffers) : Prop where
  count : c.count = xs.length
  inside : ∀ i x, xs[i]? = some x → c.ReadsValue b xs i x
  outside : ∀ i, c.count ≤ i → c.ReadsOutside i
  iterates : ∀ n, c.IteratesAt xs n
  nullCount : c.nullCount? = some (xs.countP Option.isNone)
  size : c.size? = some (if xs.length = 0 then 0
    else b.validity.length + b.offsets.length + b.values.length)

theorem Encodes.readings (h : c.Encodes xs) (hb : b.Represents t.width xs)
    (hbuffers : c.buffers? = some b) : c.Readings xs b where
  count := h.count
  inside := fun _ _ hx => h.readsValue hb hx
  outside := fun _ hi => readsOutside hi
  iterates := h.iterates
  nullCount := h.nullCount?_eq
  size := h.size?_eq hbuffers

end Column

namespace Workspace

variable {t : ColumnType} {w : Workspace} {limits : List Nat} {place : Nat} {seat : Seat t}

/-- All readers of a column of a reachable workspace tell of the same slots. -/
theorem Reachable.readers_agree (h : Reachable limits w)
    (hseat : (w.places t)[place]? = some (some seat)) :
    ∃ (xs : Slots) (b : Buffers), seat.column.slots? = some xs ∧ seat.column.buffers? = some b ∧
      seat.column.Readings xs b := by
  obtain ⟨xs, hxs⟩ := h.encoded t place seat (Session.seatAt?_eq_some.2 hseat)
  obtain ⟨b, hb, hrepresents⟩ := hxs.represents
  exact ⟨xs, b, hxs.slots?, hb, hxs.readings hrepresents hb⟩

/-- A column cut to fewer slots, one of them emptied: what it held past them is still in the
buffers. -/
theorem readers_agree_of_cut : ∃ (w : Workspace) (seat : Seat ⟨.bytes, .wide⟩) (xs : Slots)
    (b : Buffers),
    Reachable [2048] w ∧ (w.places ⟨.bytes, .wide⟩)[0]? = some (some seat) ∧
      seat.column.count = 3 ∧ seat.column.validity.get? 4 = some true ∧
      seat.column.offsets.length? 4 = some 2 ∧ seat.column.slots? = some xs ∧
      seat.column.buffers? = some b ∧ seat.column.Readings xs b := by
  have hrun : Yields [2048]
      [.create 0 0 { name := "a", type := ⟨.bytes, .wide⟩ } { initialSlots := 1 },
        .edit 0 (.pushAll [some ⟨[1], 3⟩, none, some ⟨[], 0⟩, some ⟨[4, 5], 1⟩, some ⟨[6, 7], 1⟩]),
        .edit 0 (.set 0 (some ⟨[8], 1⟩)), .edit 0 (.setCount 3)]
      (fun (seat : Seat ⟨.bytes, .wide⟩) _ => seat.column.count = 3 ∧
        seat.column.validity.get? 4 = some true ∧
        seat.column.offsets.length? 4 = some 2) = true := by
    decide +kernel
  obtain ⟨w, seat, a, hreach, hseat, -, hend⟩ :=
    Reachable.of_yields hrun (by simp [Command.Safe, Edit.Safe])
  obtain ⟨hcount, hflag, hlength⟩ := of_decide_eq_true hend
  obtain ⟨xs, b, hxs, hb, hreadings⟩ := hreach.readers_agree hseat
  exact ⟨w, seat, xs, b, hreach, hseat, hcount, hflag, hlength, hxs, hb, hreadings⟩

end Workspace

end PackedColumn
