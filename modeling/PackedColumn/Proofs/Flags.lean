import PackedColumn.Proofs.Memory
import PackedColumn.Validity

/-!
# Flags kept, grown and written

Validity flags in terms of single bits, which growing never changes, since
the bits past the end of a sequence count as unset.

* `get?_growsTo`, `get?_put`: flags after growing, and after writing one.
* `Validity.reserve_sat`: room for more flags.
-/

namespace PackedColumn

theorem Bits.get_growsTo {b c : Block} (h : b.GrowsTo c) (i : Nat) :
    Bits.get c.bytes i = Bits.get b.bytes i := by
  simp only [Bits.get, h.getD_bytes]

/-- A set bit lies in the bytes. -/
theorem Bits.lt_of_get {bytes : Bytes} {i : Nat} (h : Bits.get bytes i = true) :
    i < bytes.size * 8 := by
  by_cases hi : i / 8 < bytes.size
  · omega
  · rw [Bits.get, Array.getD_eq_getD_getElem?, Array.getElem?_eq_none (by omega)] at h
    simp [Bits.test] at h

theorem Bits.le_byteCount (n : Nat) : n ≤ 8 * Bits.byteCount n := by
  unfold Bits.byteCount; split <;> omega

namespace Validity

variable {v w : Validity}

theorem get?_eq_some_iff {i : Nat} {b : Bool} :
    v.get? i = some b ↔ i < v.bitCapacity ∧ Bits.get v.block.bytes i = b := by
  unfold get?; split <;> simp [*]

theorem get?_growsTo (h : v.block.GrowsTo w.block) {i : Nat} {b : Bool}
    (hi : v.get? i = some b) : w.get? i = some b := by
  obtain ⟨hc, hb⟩ := get?_eq_some_iff.1 hi
  have hs : v.bitCapacity ≤ w.bitCapacity := Nat.mul_le_mul_right _ h.size_le
  exact get?_eq_some_iff.2 ⟨by omega, by rw [Bits.get_growsTo h, hb]⟩

theorem get?_put {i : Nat} (hi : i < v.bitCapacity) (b : Bool) (j : Nat) :
    (v.put i b).get? j = if j = i then some b else v.get? j :=
  get?_put? (put?_eq_some_iff.2 ⟨hi, rfl⟩) j

theorem reserve_eq (v : Validity) (n : Nat) :
    v.reserve n = if Bits.byteCount n ≤ v.block.size then pure v
      else Validity.mk <$> Allocator.reallocate v.block (Bits.byteCount n) := by
  unfold reserve
  split
  · rfl
  split
  · rename_i hn he
    rw [Allocator.allocate_eq_reallocate (Block.isEmpty_iff.1 he) (by omega)]
  · rfl

theorem reserve_sat (v : Validity) (n : Nat) (a : Allocator) :
    (v.reserve n a).Sat
      (fun w u => v.block.GrowsTo w.block ∧ n ≤ w.bitCapacity ∧
        a.Grants (w.block.size - v.block.size) u)
      (fun _ u => a.limit ≤ Size.max → u = a) False := by
  have hn := Bits.le_byteCount n
  rw [reserve_eq]
  split
  · refine ⟨.refl _, ?_, by rw [Nat.sub_self]; exact .refl a⟩
    simp only [bitCapacity]; omega
  · refine Call.sat_map.2 ((Allocator.reallocate_sat ..).mono (fun b u hb => ?_)
      (fun _ _ h => h) id)
    have hs := hb.2.1
    have := Size.le_roundUp (Bits.byteCount n)
    refine ⟨hb.1, ?_, hb.2.2⟩
    show n ≤ b.size * 8
    omega

end Validity

end PackedColumn
