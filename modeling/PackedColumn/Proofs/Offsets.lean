import PackedColumn.Offsets.Table
import PackedColumn.Proofs.Memory

/-!
# Offset tables entry by entry

A table is described by the integers that `get?` gives for each entry, which
always are offsets of its width (`holds_of_get?`).

* `exists_get?`: the entries within the memory held can be read.
* `get?_put`, `get?_fillFrom`, `get?_shift?`: the entries after writing.
* `OffsetTable.reserve_sat`: room for more entries.
* `entries?_eq`: the bytes of the first entries are their encodings in order.
-/

namespace PackedColumn

namespace OffsetWidth

theorem holds_decode (w : OffsetWidth) (bs : List UInt8) : w.Holds (w.decode bs) := by
  cases w <;> simp only [Holds, decode, max, modulus, Int.bmod] <;> omega

theorem holds_natCast {w : OffsetWidth} {n : Nat} (h : n ≤ w.max) : w.Holds (n : Int) := by
  cases w <;> simp only [Holds, max] at * <;> omega

theorem holds_zero (w : OffsetWidth) : w.Holds 0 := holds_natCast (Nat.zero_le _)

theorem max_le (w : OffsetWidth) : w.max ≤ wide.max := by cases w <;> decide

theorem bytes_le (w : OffsetWidth) : w.bytes ≤ 8 := by cases w <;> decide

theorem encode_zero (w : OffsetWidth) : w.encode 0 = List.replicate w.bytes 0 := by
  cases w <;> decide

end OffsetWidth

namespace OffsetTable

variable {w : OffsetWidth} {t u : OffsetTable w}

/-! ## Which entries there are -/

theorem get?_of_size_zero (h : t.block.size = 0) : t.get? 0 = some 0 := by
  simp [get?, Block.isEmpty, h]

theorem get?_of_le {i : Nat} (h : (i + 1) * w.bytes ≤ t.block.size) :
    t.get? i = some (w.decode ((t.block.toList.drop (i * w.bytes)).take w.bytes)) := by
  have hw := w.bytes_pos
  rw [Nat.add_mul, Nat.one_mul] at h
  have hne : ¬ (t.block.isEmpty && i == 0) = true := by simp [Block.isEmpty]; omega
  rw [get?, if_neg hne, Block.read?_eq_some_iff.2 ⟨h, rfl⟩, Option.map_some]

/-- An entry is the one of a table without memory, or lies in the memory held. -/
theorem get?_cases {i : Nat} {v : Int} (h : t.get? i = some v) :
    (t.block.size = 0 ∧ i = 0 ∧ v = 0) ∨
      ((i + 1) * w.bytes ≤ t.block.size ∧
        v = w.decode ((t.block.toList.drop (i * w.bytes)).take w.bytes)) := by
  rw [get?] at h
  split at h
  · rename_i he
    simp only [Block.isEmpty, Bool.and_eq_true, beq_iff_eq] at he
    exact .inl ⟨he.1, he.2, (Option.some.inj h).symm⟩
  · obtain ⟨bs, hr, hv⟩ := Option.map_eq_some_iff.1 h
    obtain ⟨hle, rfl⟩ := Block.read?_eq_some_iff.1 hr
    exact .inr ⟨by rw [Nat.add_mul, Nat.one_mul]; exact hle, hv.symm⟩

theorem holds_of_get? {i : Nat} {v : Int} (h : t.get? i = some v) : w.Holds v := by
  rcases get?_cases h with ⟨-, -, rfl⟩ | ⟨-, rfl⟩
  · exact w.holds_zero
  · exact w.holds_decode _

theorem le_slotCapacity_iff (h : 0 < t.block.size) {i : Nat} :
    i ≤ t.slotCapacity ↔ (i + 1) * w.bytes ≤ t.block.size := by
  have hd := t.block.size_dvd
  have hw := w.bytes_le
  have h1 : 1 ≤ t.block.size / w.bytes := by
    rw [Nat.le_div_iff_mul_le w.bytes_pos]
    simp only [Block.size] at h ⊢; omega
  rw [slotCapacity, ← Nat.le_div_iff_mul_le w.bytes_pos]
  omega

theorem slotCapacity_of_size_zero (h : t.block.size = 0) : t.slotCapacity = 0 := by
  simp [slotCapacity, h]

theorem le_slotCapacity_of_get? {i : Nat} {v : Int} (h : t.get? i = some v) :
    i ≤ t.slotCapacity := by
  rcases get?_cases h with ⟨-, rfl, -⟩ | ⟨hle, -⟩
  · exact Nat.zero_le _
  · have : 0 < (i + 1) * w.bytes := Nat.mul_pos i.succ_pos w.bytes_pos
    exact (le_slotCapacity_iff (by omega)).2 hle

theorem exists_get? {i : Nat} (h : i ≤ t.slotCapacity) : ∃ v, t.get? i = some v := by
  by_cases h0 : t.block.size = 0
  · obtain rfl : i = 0 := by have := slotCapacity_of_size_zero h0; omega
    exact ⟨0, get?_of_size_zero h0⟩
  · exact ⟨_, get?_of_le ((le_slotCapacity_iff (by omega)).1 h)⟩

theorem start?_of_get? {i n : Nat} (h : t.get? i = some (n : Int)) : t.start? i = some n := by
  rw [start?, h]; rfl

/-! ## Entries after a change -/

theorem get?_growsTo (h : t.block.GrowsTo u.block) {i : Nat} {v : Int} (hv : t.get? i = some v) :
    u.get? i = some v := by
  obtain ⟨n, hn⟩ := h
  have hs : u.block.size = t.block.size + n := by
    simpa using congrArg List.length hn
  rcases get?_cases hv with ⟨h0, rfl, rfl⟩ | ⟨hle, rfl⟩
  · by_cases hu : u.block.size = 0
    · exact get?_of_size_zero hu
    · have hl := (le_slotCapacity_iff (t := u) (i := 0) (by omega)).1 (Nat.zero_le _)
      rw [get?_of_le hl, hn, List.eq_nil_of_length_eq_zero (by simpa using h0 : t.block.toList.length = 0),
        Nat.zero_mul, List.drop_zero, List.nil_append, List.take_replicate,
        Nat.min_eq_left (by omega), ← OffsetWidth.encode_zero,
        OffsetWidth.decode_encode w.holds_zero]
  · rw [get?_of_le (by omega), hn]
    have hl : t.block.toList.length = t.block.size := rfl
    rw [Nat.add_mul, Nat.one_mul] at hle
    rw [List.drop_append_of_le_length (by omega),
      List.take_append_of_le_length (by rw [List.length_drop]; omega)]

theorem get?_put {i : Nat} {v : Int} (hv : w.Holds v) (h : (i + 1) * w.bytes ≤ t.block.size)
    (j : Nat) : (t.put i v).get? j = if j = i then some v else t.get? j :=
  get?_put? hv (put?_eq_some_iff.2 ⟨h, rfl⟩) j

theorem get?_fillFrom {v : Int} (hv : w.Holds v) {i n : Nat}
    (h : (i + n) * w.bytes ≤ t.block.size) (j : Nat) :
    (t.fillFrom v i n).get? j = if i ≤ j ∧ j < i + n then some v else t.get? j := by
  induction n generalizing t i with
  | zero => rw [if_neg (by omega)]; rfl
  | succ n ih =>
    have h1 : (i + 1) * w.bytes ≤ t.block.size :=
      Nat.le_trans (Nat.mul_le_mul_right _ (by omega)) h
    rw [fillFrom, ih (by rwa [size_put, Nat.add_right_comm]), get?_put hv h1]
    by_cases hj : j = i
    · subst hj; simp
    · rw [if_neg hj]
      congr 1
      simp only [eq_iff_iff]; omega

/-- Entries moved by one distance, as long as they stay offsets. -/
theorem get?_shift? {delta : Int} {i n : Nat} (h : ∀ j, i ≤ j → j < i + n →
      ∃ e : Nat, t.get? j = some (e : Int) ∧ 0 ≤ (e + delta : Int) ∧ w.Holds (e + delta))
    (hs : (i + n) * w.bytes ≤ t.block.size) :
    ∃ u, t.shift? delta i n = some u ∧ u.block.size = t.block.size ∧
      ∀ j, u.get? j = if i ≤ j ∧ j < i + n then (t.get? j).map (· + delta) else t.get? j := by
  induction n generalizing t i with
  | zero => exact ⟨t, rfl, rfl, fun j => by rw [if_neg (by omega)]⟩
  | succ n ih =>
    obtain ⟨e, he, h0, hm⟩ := h i (by omega) (by omega)
    have h1 : (i + 1) * w.bytes ≤ t.block.size :=
      Nat.le_trans (Nat.mul_le_mul_right _ (by omega)) hs
    have hput := get?_put hm h1
    have hwide : OffsetWidth.wide.Holds (e + delta : Int) := by
      have := w.max_le
      have := hm.2
      simp only [OffsetWidth.Holds, OffsetWidth.max] at *
      omega
    obtain ⟨u, hu, hsize, hget⟩ := ih (t := t.put i (e + delta)) (i := i + 1)
      (fun j hj hj' => by
        rw [hput, if_neg (by omega)]; exact h j (by omega) (by omega))
      (by rwa [size_put, Nat.add_right_comm])
    refine ⟨u, ?_, by rw [hsize, size_put], fun j => ?_⟩
    · have hp : t.put? i (if w.Holds (e + delta : Int) then e + delta else 0) =
          some (t.put i (e + delta)) := put?_eq_some_iff.2 ⟨h1, by rw [if_pos hm]⟩
      simp only [shift?, start?_of_get? he, Option.bind_eq_bind, Option.bind_some, if_pos hwide, hp]
      exact hu
    · rw [hget, hput]
      by_cases hj : j = i
      · subst hj
        rw [if_neg (by omega), if_pos rfl, if_pos (by omega), he]; rfl
      · rw [if_neg hj]
        congr 1
        simp only [eq_iff_iff]; omega

/-! ## Room for more entries -/

theorem reserve_eq (t : OffsetTable w) (slots committed : Nat) :
    t.reserve slots committed =
      if slots ≤ t.slotCapacity ∧ t.block.size ≠ 0 then pure t
      else if Size.max < (slots + 1) * w.bytes then .refuse .tooLarge
      else do
        let block ← Allocator.reallocate t.block ((slots + 1) * w.bytes)
        let last ← .require ((mk block : OffsetTable w).get? committed)
        return (mk block).fillFrom last (committed + 1) ((mk block : OffsetTable w).slotCapacity -
          committed) := by
  have hw := w.bytes_pos
  have hsize : (Size.add? slots 1).bind (Size.mul? · w.bytes) =
      if Size.max < (slots + 1) * w.bytes then none else some ((slots + 1) * w.bytes) := by
    have : slots + 1 ≤ (slots + 1) * w.bytes := Nat.le_mul_of_pos_right _ hw
    unfold Size.add? Size.mul?
    split
    · simp only [Option.bind_some]
      split <;> split <;> first | rfl | omega
    · rw [if_pos (by omega)]; rfl
  unfold reserve
  by_cases hs : slots ≤ t.slotCapacity ∧ t.block.size ≠ 0
  · rw [if_pos hs, if_pos (by simpa [Block.isEmpty] using hs)]
  rw [if_neg hs, if_neg (by simpa [Block.isEmpty] using hs), hsize]
  by_cases ho : Size.max < (slots + 1) * w.bytes
  · simp only [if_pos ho]
  simp only [if_neg ho]
  split
  · rename_i he
    rw [Allocator.allocate_eq_reallocate (Block.isEmpty_iff.1 he) (Nat.mul_pos (by omega) hw)]
  · rfl

theorem reserve_sat (t : OffsetTable w) (slots committed : Nat) (a : Allocator) :
    (t.reserve slots committed a).Sat
      (fun u b => slots ≤ u.slotCapacity ∧ 0 < u.block.size ∧
        (∀ j ≤ committed, ∀ v, t.get? j = some v → u.get? j = some v) ∧
        t.block.size ≤ u.block.size ∧ a.Grants (u.block.size - t.block.size) b)
      (fun _ b => a.limit ≤ Size.max → b = a) (t.get? committed = none) := by
  rw [reserve_eq]
  split
  · rename_i h
    exact ⟨h.1, Nat.pos_of_ne_zero h.2, fun _ _ _ h => h, Nat.le_refl _,
      by rw [Nat.sub_self]; exact .refl a⟩
  split
  · exact fun _ => rfl
  refine Call.sat_bind.2 ((Allocator.reallocate_sat ..).mono (fun b c ⟨hb, hsize, ha⟩ => ?_)
    (fun _ _ h => h) False.elim)
  refine Call.sat_bind.2 (Call.sat_require.2 ⟨fun v hv => ?_, fun hn => ?_⟩)
  · have hround := Size.le_roundUp ((slots + 1) * w.bytes)
    have hpos : 0 < (slots + 1) * w.bytes := Nat.mul_pos (by omega) w.bytes_pos
    have hb0 : 0 < b.size := by omega
    have hle := hb.size_le
    have hcap := le_slotCapacity_of_get? hv
    simp only [Call.pure_apply, Outcome.sat_done]
    have hlast : (committed + 1 + ((mk b : OffsetTable w).slotCapacity - committed)) * w.bytes ≤
        b.size := by
      rw [show committed + 1 + ((mk b : OffsetTable w).slotCapacity - committed) =
        (mk b : OffsetTable w).slotCapacity + 1 by omega]
      exact (le_slotCapacity_iff (t := mk b) hb0).1 (Nat.le_refl _)
    refine ⟨(le_slotCapacity_iff (by simpa using hb0)).2 (by rw [size_fillFrom]; simp only; omega),
      by simpa using hb0, fun j hj x hx => ?_, by simpa using hle, by simpa using ha⟩
    rw [get?_fillFrom (holds_of_get? hv) hlast, if_neg (by omega)]
    exact get?_growsTo (u := mk b) hb hx
  · cases hc : t.get? committed with
    | none => rfl
    | some v => rw [get?_growsTo (u := mk b) hb hc] at hn; cases hn

/-! ## The encoded entries -/

theorem entries?_eq {n : Nat} {e : Nat → Int} (h : ∀ i ≤ n, t.get? i = some (e i)) :
    t.entries? n = some ((List.range (n + 1)).flatMap fun i => w.encode (e i)) := by
  by_cases h0 : t.block.size = 0
  · obtain rfl : n = 0 := by
      have := le_slotCapacity_of_get? (h n (Nat.le_refl n))
      have := slotCapacity_of_size_zero h0
      omega
    have he : e 0 = 0 := Option.some.inj ((h 0 (Nat.le_refl 0)).symm.trans (get?_of_size_zero h0))
    simp [entries?, Block.isEmpty, h0, he, OffsetWidth.encode_zero]
  · have hentry : ∀ i ≤ n, (i + 1) * w.bytes ≤ t.block.size ∧
        (t.block.toList.drop (i * w.bytes)).take w.bytes = w.encode (e i) := fun i hi => by
      rcases get?_cases (h i hi) with ⟨hz, -, -⟩ | ⟨hle, hv⟩
      · exact absurd hz h0
      · rw [hv, OffsetWidth.encode_decode]
        · exact ⟨hle, rfl⟩
        · rw [Nat.add_mul, Nat.one_mul] at hle
          simp only [List.length_take, List.length_drop, Block.length_toList]
          omega
    have hall : ∀ k ≤ n + 1, t.block.toList.take (k * w.bytes) =
        (List.range k).flatMap fun i => w.encode (e i) := fun k => by
      induction k with
      | zero => simp
      | succ k ih =>
        intro hk
        rw [Nat.add_mul, Nat.one_mul, List.take_add, ih (by omega), (hentry k (by omega)).2,
          List.range_succ, List.flatMap_append, List.flatMap_singleton]
    have hne : ¬ t.block.isEmpty = true := by simpa using h0
    rw [entries?, if_neg hne, Block.read?_eq_some_iff]
    exact ⟨by have := (hentry n (Nat.le_refl n)).1; omega, by rw [List.drop_zero, hall _ (Nat.le_refl _)]⟩

end OffsetTable

end PackedColumn
