import PackedColumn.Memory.Paid
import PackedColumn.Proofs.Readers
import PackedColumn.Proofs.Reserves

/-!
# Flags as an array of booleans

Whatever the bytes of a block are, the flags packed in it are as many booleans
as it has bits. All readers of flags read that array, a write replaces one
element of it, and growing appends unset ones. So after any changes each flag
is the value last written to it, or what it was before.

* `reads_toList`: the readers.
* `toList_put`, `toList_clear`, `toList_growsTo`: what the changes make of the array.
* `Change.ends`: how one change ends, and `Change.flag_runAll`: what any number of them leave.
* `flags_are_array`: all of it, for flags with the allocator that pays for them.
-/

namespace PackedColumn.Validity

variable {v w : Validity} {xs : List Bool} {i j n : Nat}

/-! ## The array -/

theorem bitCapacity_eq (v : Validity) : v.bitCapacity = 8 * v.block.bytes.size :=
  Nat.mul_comm ..

@[simp] theorem length_toList (v : Validity) : v.toList.length = v.bitCapacity := by
  rw [toList, Bits.toList, List.length_map, List.length_range, bitCapacity_eq]

theorem getElem?_toList (v : Validity) (i : Nat) : v.toList[i]? = v.get? i := by
  rw [toList, Bits.toList, List.getElem?_map, get?, bitCapacity_eq]
  split
  · rename_i hi
    rw [List.getElem?_range hi]
    rfl
  · rename_i hi
    rw [List.getElem?_eq_none (by simpa using hi)]
    rfl

/-- The array is known by its elements. -/
theorem toList_eq_of_get? (h : ∀ j, v.get? j = xs[j]?) : v.toList = xs :=
  List.ext_getElem? fun j => (getElem?_toList v j).trans (h j)

theorem take_toList (hn : n ≤ v.bitCapacity) :
    v.toList.take n = (List.range n).map (Bits.get v.block.bytes) := by
  rw [bitCapacity_eq] at hn
  rw [toList, Bits.toList, ← List.map_take, List.take_range, Nat.min_eq_left hn]

/-! ## Readers -/

/-- Flags are read as an array of booleans. -/
structure Reads (v : Validity) (xs : List Bool) : Prop where
  bitCapacity : v.bitCapacity = xs.length
  get? : ∀ i, v.get? i = xs[i]?
  nullCount? : ∀ n,
    v.nullCount? n = if n ≤ xs.length then some ((xs.take n).count false) else none
  /-- The bytes that cover the first flags are as few as can be and have them as their bits, counted
  from the lowest one of each byte. -/
  covering? : ∀ n ≤ xs.length, ∃ bytes, v.covering? n = some bytes ∧ bytes.length = (n + 7) / 8 ∧
    (Bits.toList bytes.toArray).take n = xs.take n
  covering?_eq_none : ∀ n, xs.length < n → v.covering? n = none

theorem count_false_map_range (p : Nat → Bool) (n : Nat) :
    ((List.range n).map p).count false = n - (List.range n).countP p := by
  have hall := List.length_eq_countP_add_countP p (l := List.range n)
  have hunset : ((List.range n).map p).count false = (List.range n).countP (fun i => !p i) := by
    rw [List.count, List.countP_map]
    exact List.countP_congr fun i _ => by cases hi : p i <;> simp [hi]
  rw [List.length_range] at hall
  simp only [Bool.not_eq_true, Bool.decide_eq_false] at hall
  rw [hunset]
  omega

theorem nullCount?_eq (v : Validity) (n : Nat) :
    v.nullCount? n =
      if n ≤ v.toList.length then some ((v.toList.take n).count false) else none := by
  rw [nullCount?, length_toList]
  split
  · rename_i hn
    rw [take_toList hn, count_false_map_range, Bits.count_eq (bitCapacity_eq v ▸ hn)]
  · rfl

theorem byteCount_eq (n : Nat) : Bits.byteCount n = (n + 7) / 8 := by
  unfold Bits.byteCount
  split <;> omega

theorem covering?_eq_none (hn : v.bitCapacity < n) : v.covering? n = none := by
  have hlarge : v.block.size < Bits.byteCount n := by
    have := Bits.le_byteCount n
    rw [bitCapacity] at hn
    omega
  rw [covering?, Block.read?, if_neg (by omega)]

theorem reads_toList (v : Validity) : v.Reads v.toList where
  bitCapacity := (length_toList v).symm
  get? := fun i => (getElem?_toList v i).symm
  nullCount? := nullCount?_eq v
  covering? := fun n hn => by
    rw [length_toList] at hn
    obtain ⟨bytes, hbytes, hlength, hbits⟩ := exists_covering? hn
    have hcover := Bits.le_byteCount n
    refine ⟨bytes, hbytes, hlength.trans (byteCount_eq n), ?_⟩
    rw [take_toList hn, Bits.toList, ← List.map_take, List.take_range,
      Nat.min_eq_left (by rw [List.size_toArray, hlength]; exact hcover)]
    refine List.map_congr_left fun j hj => hbits j ?_
    rw [List.mem_range] at hj
    omega
  covering?_eq_none := fun n hn => covering?_eq_none (by rwa [length_toList] at hn)

/-! ## Changes of the array -/

theorem toList_put (hi : i < v.bitCapacity) (valid : Bool) :
    (v.put i valid).toList = v.toList.set i valid := by
  refine toList_eq_of_get? fun j => ?_
  rw [get?_put hi, List.getElem?_set, length_toList, if_pos hi, getElem?_toList]
  simp only [eq_comm]

theorem toList_clear (v : Validity) : v.clear.toList = List.replicate v.bitCapacity false := by
  have hcapacity : v.clear.bitCapacity = v.bitCapacity := by
    rw [bitCapacity, clear, Block.size_fill, bitCapacity]
  have hzeroed : v.clear.block.Zeroed := fun x hx => by
    rw [clear, Block.toList_fill] at hx
    exact List.eq_of_mem_replicate hx
  refine toList_eq_of_get? fun j => ?_
  rw [List.getElem?_replicate]
  split
  · rename_i hj
    exact get?_of_zeroed hzeroed (hcapacity ▸ hj)
  · rename_i hj
    rw [get?, hcapacity, if_neg hj]

theorem toList_growsTo (h : v.block.GrowsTo w.block) :
    w.toList = v.toList ++ List.replicate (w.bitCapacity - v.bitCapacity) false := by
  have hle : v.bitCapacity ≤ w.bitCapacity := Nat.mul_le_mul_right 8 h.size_le
  refine toList_eq_of_get? fun j => ?_
  rw [List.getElem?_append, length_toList, List.getElem?_replicate, getElem?_toList]
  by_cases hold : j < v.bitCapacity
  · rw [if_pos hold, get?, get?, if_pos hold, if_pos (by omega), Bits.get_growsTo h]
  · -- Behind the end of the former flags every bit counts as unset.
    have hunset : Bits.get w.block.bytes j = false := by
      rw [Bits.get_growsTo h]
      exact Bool.eq_false_iff.2 fun hset => hold (Bits.lt_of_get hset)
    rw [if_neg hold, get?, hunset]
    congr 1
    simp only [eq_iff_iff]
    omega

/-! ## One change -/

/-- The changes of flags. -/
inductive Change where
  /-- Replaces flag `i`. -/
  | put (i : Nat) (valid : Bool)
  /-- Unsets every flag. -/
  | clear
  /-- Makes room for `n` flags. -/
  | reserve (n : Nat)
  deriving Repr, DecidableEq

namespace Change

variable {p q : Paid Validity} {m : Change} {ms : List Change} {valid : Bool}

/-- Carries a change out. -/
def run : Change → Call MemoryRefusal (Paid Validity) Unit
  | put i valid => Paid.change (·.put? i valid)
  | clear => Paid.change fun v => some v.clear
  | reserve n => Paid.request (·.reserve n)

/-- The flags after a history of changes, refused ones included; there are none if a change breaks
its contract. -/
def runAll (p : Paid Validity) : List Change → Option (Paid Validity)
  | [] => some p
  | m :: ms => do
    let p ← (m.run p).state?
    runAll p ms

/-- The value that a change writes to flag `j`. -/
def writes? (j : Nat) : Change → Option Bool
  | put i valid => if i = j then some valid else none
  | clear => some false
  | reserve _ => none

/-- The last value that changes write to flag `j`. -/
def lastWritten? (j : Nat) (ms : List Change) : Option Bool := (ms.filterMap (writes? j)).getLast?

/-- What changes make of the array that flags are. -/
structure Ends (p : Paid Validity) : Prop where
  put : ∀ i < p.buffer.bitCapacity, ∀ valid, ∃ w,
    run (.put i valid) p = .done () { p with buffer := w } ∧
      w.toList = p.buffer.toList.set i valid
  put_past : ∀ i, p.buffer.bitCapacity ≤ i → ∀ valid, run (.put i valid) p = .breach
  clear : ∃ w, run .clear p = .done () { p with buffer := w } ∧
    w.toList = List.replicate p.buffer.bitCapacity false
  /-- Room that is granted is behind the flags, all of it unset and paid for. -/
  reserve : ∀ n,
    (∃ w a, run (.reserve n) p = .done () ⟨a, w⟩ ∧ n ≤ w.bitCapacity ∧
      (∃ k, w.toList = p.buffer.toList ++ List.replicate k false) ∧
      p.allocator.Grants (w.block.size - p.buffer.block.size) a) ∨
    ∃ e a, run (.reserve n) p = .refused e { p with allocator := a } ∧
      (p.allocator.limit ≤ Size.max → a = p.allocator)
  /-- It is granted where the machine has it and the account as well. -/
  reserve_done : ∀ n, Size.roundUp (Bits.byteCount n) < Block.bound →
    p.allocator.allocated + max p.buffer.block.size (Size.roundUp (Bits.byteCount n)) ≤
      p.allocator.limit + p.buffer.block.size → ∃ q, run (.reserve n) p = .done () q

theorem run_put (hi : i < p.buffer.bitCapacity) :
    run (put i valid) p = .done () { p with buffer := p.buffer.put i valid } := by
  rw [run]
  exact Paid.change_of_some (put?_eq_some_iff.2 ⟨hi, rfl⟩)

theorem run_put_past (hi : p.buffer.bitCapacity ≤ i) : run (put i valid) p = .breach := by
  rw [run]
  exact Paid.change_of_none (if_neg (Nat.not_lt_of_le hi))

theorem run_clear (p : Paid Validity) :
    run clear p = .done () { p with buffer := p.buffer.clear } := rfl

theorem run_reserve (p : Paid Validity) (n : Nat) :
    (∃ w a, run (reserve n) p = .done () ⟨a, w⟩ ∧ p.buffer.block.GrowsTo w.block ∧
      n ≤ w.bitCapacity ∧ p.allocator.Grants (w.block.size - p.buffer.block.size) a) ∨
    ∃ e a, run (reserve n) p = .refused e { p with allocator := a } ∧
      (p.allocator.limit ≤ Size.max → a = p.allocator) := by
  have hsat := reserve_sat p.buffer n p.allocator
  rw [run]
  cases hend : p.buffer.reserve n p.allocator with
  | done w a =>
    rw [hend] at hsat
    exact .inl ⟨w, a, Paid.request_of_done hend, hsat⟩
  | refused e a =>
    rw [hend] at hsat
    exact .inr ⟨e, a, Paid.request_of_refused hend, hsat⟩
  | breach =>
    rw [hend] at hsat
    exact hsat.elim

theorem ends (p : Paid Validity) : Ends p where
  put := fun i hi valid => ⟨_, run_put hi, toList_put hi valid⟩
  put_past := fun i hi valid => run_put_past hi
  clear := ⟨_, run_clear p, toList_clear p.buffer⟩
  reserve := fun n => (run_reserve p n).imp_left fun ⟨w, a, hrun, hgrows, hn, ha⟩ =>
    ⟨w, a, hrun, hn, ⟨_, toList_growsTo hgrows⟩, ha⟩
  reserve_done := fun n hmachine hroom => by
    obtain ⟨w, a, hdone, -⟩ := Validity.reserve_done hmachine hroom
    rw [run]
    exact ⟨_, Paid.request_of_done hdone⟩

/-! ## Histories -/

/-- Flag `i`, where a flag that there is not counts as unset. -/
def flag (p : Paid Validity) (i : Nat) : Bool := (p.buffer.get? i).getD false

theorem flag_eq (p : Paid Validity) (i : Nat) : flag p i = (p.buffer.toList[i]?).getD false := by
  rw [flag, getElem?_toList]

/-- A change keeps all flags but those that it writes. -/
theorem flag_run (h : (m.run p).state? = some q) :
    p.buffer.bitCapacity ≤ q.buffer.bitCapacity ∧
      ∀ j, flag q j = (m.writes? j).getD (flag p j) := by
  cases m with
  | put i valid =>
    rcases Nat.lt_or_ge i p.buffer.bitCapacity with hi | hi
    · rw [run_put hi] at h
      cases h
      refine ⟨Nat.le_of_eq (bitCapacity_put ..).symm, fun j => ?_⟩
      rw [flag_eq, flag_eq, toList_put hi, List.getElem?_set, writes?, length_toList, if_pos hi]
      split <;> rfl
    · rw [run_put_past hi] at h
      cases h
  | clear =>
    rw [run_clear] at h
    cases h
    refine ⟨Nat.le_of_eq ?_, fun j => ?_⟩
    · rw [bitCapacity, bitCapacity, Validity.clear, Block.size_fill]
    · rw [flag_eq, toList_clear, List.getElem?_replicate]
      split <;> rfl
  | reserve n =>
    rcases run_reserve p n with ⟨w, a, hrun, hgrows, -⟩ | ⟨e, a, hrun, -⟩
    · rw [hrun] at h
      cases h
      refine ⟨Nat.mul_le_mul_right 8 hgrows.size_le, fun j => ?_⟩
      rw [flag_eq, flag_eq, toList_growsTo hgrows, List.getElem?_append]
      split
      · rfl
      · rename_i hj
        rw [List.getElem?_replicate, List.getElem?_eq_none (Nat.le_of_not_lt hj)]
        split <;> rfl
    · rw [hrun] at h
      cases h
      exact ⟨Nat.le_refl _, fun j => rfl⟩

theorem lastWritten?_cons (j : Nat) (m : Change) (ms : List Change) :
    lastWritten? j (m :: ms) = (lastWritten? j ms).or (m.writes? j) := by
  rw [lastWritten?, lastWritten?, List.filterMap_cons]
  cases m.writes? j with
  | none => simp
  | some b => simp [List.getLast?_cons]

/-- After any changes a flag has the value last written to it. -/
theorem flag_runAll (h : runAll p ms = some q) :
    p.buffer.bitCapacity ≤ q.buffer.bitCapacity ∧
      ∀ j, flag q j = (lastWritten? j ms).getD (flag p j) := by
  induction ms generalizing p with
  | nil =>
    cases h
    exact ⟨Nat.le_refl _, fun j => rfl⟩
  | cons m ms ih =>
    obtain ⟨p₁, hm, hms⟩ := Option.bind_eq_some_iff.1 h
    obtain ⟨hle, hflag⟩ := flag_run hm
    obtain ⟨hle', hflag'⟩ := ih hms
    refine ⟨Nat.le_trans hle hle', fun j => ?_⟩
    rw [hflag', hflag, lastWritten?_cons]
    cases lastWritten? j ms <;> rfl

theorem state?_run_eq_none_iff :
    (m.run p).state? = none ↔ ∃ i valid, m = put i valid ∧ p.buffer.bitCapacity ≤ i := by
  cases m with
  | put i valid =>
    rcases Nat.lt_or_ge i p.buffer.bitCapacity with hi | hi
    · rw [run_put hi]
      refine ⟨nofun, ?_⟩
      rintro ⟨i, valid, ⟨⟩, hpast⟩
      exact absurd hi (Nat.not_lt_of_le hpast)
    · rw [run_put_past hi]
      exact ⟨fun _ => ⟨i, valid, rfl, hi⟩, fun _ => rfl⟩
  | clear =>
    rw [run_clear]
    exact ⟨nofun, nofun⟩
  | reserve n =>
    rcases run_reserve p n with ⟨w, a, hrun, -⟩ | ⟨e, a, hrun, -⟩
    · rw [hrun]
      exact ⟨nofun, nofun⟩
    · rw [hrun]
      exact ⟨nofun, nofun⟩

/-- A history breaks its contract exactly at a write past the flags that there are by then. -/
theorem runAll_eq_none_iff : runAll p ms = none ↔
    ∃ before i valid after q, ms = before ++ put i valid :: after ∧ runAll p before = some q ∧
      q.buffer.bitCapacity ≤ i := by
  induction ms generalizing p with
  | nil =>
    refine ⟨nofun, ?_⟩
    rintro ⟨before, i, valid, after, q, hms, -⟩
    exact absurd hms (by simp)
  | cons m ms ih =>
    show (m.run p).state?.bind (runAll · ms) = none ↔ _
    constructor
    · intro h
      cases hm : (m.run p).state? with
      | none =>
        obtain ⟨i, valid, rfl, hi⟩ := state?_run_eq_none_iff.1 hm
        exact ⟨[], i, valid, ms, p, rfl, rfl, hi⟩
      | some p₁ =>
        rw [hm, Option.bind_some, ih] at h
        obtain ⟨before, i, valid, after, q, rfl, hbefore, hi⟩ := h
        refine ⟨m :: before, i, valid, after, q, rfl, ?_, hi⟩
        rw [runAll, hm]
        exact hbefore
    · rintro ⟨before, i, valid, after, q, hms, hbefore, hi⟩
      rcases List.cons_eq_append_iff.1 hms with ⟨rfl, hput⟩ | ⟨before', rfl, rfl⟩
      · cases hbefore
        cases hput
        rw [state?_run_eq_none_iff.2 ⟨i, valid, rfl, hi⟩]
        rfl
      · obtain ⟨p₁, hm, hrest⟩ := Option.bind_eq_some_iff.1 hbefore
        rw [hm, Option.bind_some, ih]
        exact ⟨before', i, valid, after, q, rfl, hrest, hi⟩

end Change

/-- Flags with the allocator that pays for them, whatever their bytes are: all readers read one array
of booleans; each change makes of it what it should, or leaves it as it was; and after any number of
changes, none of them a write past the flags that there are by then, each flag is the value last
written to it, or what it was before if none was. -/
theorem flags_are_array (p : Paid Validity) :
    p.buffer.Reads p.buffer.toList ∧ Change.Ends p ∧
      (∀ ms, Change.runAll p ms = none ↔ ∃ before i valid after q,
        ms = before ++ .put i valid :: after ∧ Change.runAll p before = some q ∧
          q.buffer.bitCapacity ≤ i) ∧
      ∀ ms q, Change.runAll p ms = some q → p.buffer.bitCapacity ≤ q.buffer.bitCapacity ∧
        ∀ j < q.buffer.bitCapacity, q.buffer.get? j =
          some ((Change.lastWritten? j ms).getD ((p.buffer.get? j).getD false)) := by
  refine ⟨reads_toList p.buffer, Change.ends p, fun ms => Change.runAll_eq_none_iff,
    fun ms q hrun => ?_⟩
  obtain ⟨hle, hflag⟩ := Change.flag_runAll hrun
  refine ⟨hle, fun j hj => ?_⟩
  obtain ⟨b, hb⟩ := Option.isSome_iff_exists.1 (get?_isSome_iff.2 hj)
  have hlast := hflag j
  rw [Change.flag, hb] at hlast
  rw [hb]
  exact congrArg some hlast

example : (Change.runAll ⟨.unlimited, .empty⟩ [.reserve 9, .put 3 true, .put 8 true, .put 3 false,
    .reserve 600]).map (fun q => (q.buffer.get? 3, q.buffer.get? 8, q.buffer.get? 600)) =
      some (some false, some true, some false) := by decide +kernel

end PackedColumn.Validity
