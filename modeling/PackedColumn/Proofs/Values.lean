import PackedColumn.Proofs.Memory
import PackedColumn.ValueStore

/-!
# Value bytes kept, grown and moved

* `ValueStore.reserve_sat`: room for more bytes.
* `exists_write?_append`: a value written behind all others.
* `exists_move?_write?`: a value written in place of another, the bytes behind it having moved.
-/

namespace PackedColumn.ValueStore

variable {s u : ValueStore}

theorem reserve_eq (s : ValueStore) (needed : Nat) :
    s.reserve needed = if needed ≤ s.capacity then pure s
      else mk <$> Allocator.reallocate s.block (max needed (2 * s.capacity)) := by
  unfold reserve
  split
  · rfl
  split
  · rename_i hn he
    have h0 : s.capacity = 0 := Block.isEmpty_iff.1 he
    rw [Allocator.allocate_eq_reallocate h0 (by omega), h0, Nat.mul_zero, Nat.max_zero]
  · rfl

theorem reserve_sat (s : ValueStore) (needed : Nat) (a : Allocator) :
    (s.reserve needed a).Sat
      (fun u b => s.block.GrowsTo u.block ∧ needed ≤ u.capacity ∧
        a.Grants (u.block.size - s.block.size) b)
      (fun _ b => a.limit ≤ Size.max → b = a) False := by
  rw [reserve_eq]
  split
  · rename_i h
    exact ⟨.refl _, h, by rw [Nat.sub_self]; exact .refl a⟩
  · refine Call.sat_map.2 ((Allocator.reallocate_sat ..).mono (fun b u ⟨hb, hs, ha⟩ => ?_)
      (fun _ _ h => h) id)
    have := Size.le_roundUp (max needed (2 * s.capacity))
    exact ⟨hb, by simp only [capacity]; omega, ha⟩

/-! ## Stretches of the bytes -/

/-- Writing into what lies behind some bytes. -/
theorem toList_write_append {b : Block} {p r xs : List UInt8} (h : b.toList = p ++ r)
    (hx : xs.length ≤ r.length) : (b.write p.length xs).toList = p ++ xs ++ r.drop xs.length := by
  have hs : b.size = p.length + r.length := by rw [← Block.length_toList, h, List.length_append]
  rw [Block.toList_write (by omega), h, List.take_left, List.drop_append,
    List.drop_of_length_le (by omega), Nat.add_sub_cancel_left, List.nil_append]

/-- A value between others. -/
theorem read?_eq {p o q : List UInt8} (h : p ++ o ++ q <+: s.block.toList) :
    s.read? p.length o.length = some o := by
  unfold read?
  split
  · rename_i h0
    rw [List.eq_nil_of_length_eq_zero h0]
  · obtain ⟨r, hr⟩ := h
    have hl := congrArg List.length hr
    simp only [List.length_append, Block.length_toList] at hl
    refine Block.read?_eq_some_iff.2 ⟨by omega, ?_⟩
    rw [← hr, List.append_assoc, List.append_assoc, List.drop_left, List.take_left]

/-- A value in place of as many bytes, with the same bytes before and behind it. -/
theorem exists_write? {p o q xs : List UInt8} (h : p ++ o ++ q <+: s.block.toList)
    (hx : xs.length = o.length) : ∃ u, s.write? p.length xs = some u ∧
      p ++ xs ++ q <+: u.block.toList ∧ u.block.size = s.block.size := by
  obtain ⟨r, hr⟩ := h
  have hl : s.block.toList = p ++ (o ++ (q ++ r)) := by simp only [← hr, List.append_assoc]
  have hs := congrArg List.length hl
  simp only [Block.length_toList, List.length_append] at hs
  refine ⟨_, write?_eq_some_iff.2 ⟨by simp only [capacity]; omega, rfl⟩, ⟨r, ?_⟩,
    Block.size_write ..⟩
  rw [toList_write_append hl (by simp only [List.length_append]; omega), hx, List.drop_left]
  simp only [List.append_assoc]

/-- A value behind all others. -/
theorem exists_write?_append {p xs : List UInt8} (h : p <+: s.block.toList)
    (hc : p.length + xs.length ≤ s.capacity) : ∃ u, s.write? p.length xs = some u ∧
      p ++ xs <+: u.block.toList ∧ u.block.size = s.block.size := by
  obtain ⟨r, hr⟩ := h
  have hs := congrArg List.length hr
  simp only [Block.length_toList, List.length_append] at hs
  simp only [capacity] at hc
  refine ⟨_, write?_eq_some_iff.2 ⟨hc, rfl⟩, ?_, Block.size_write ..⟩
  rw [toList_write_append hr.symm (by omega)]
  exact List.prefix_append ..

/-- A value in place of another of any length, once the bytes behind it have moved. They are read
before any is overwritten, so it does not matter that the two places overlap. -/
theorem exists_move?_write? {p o q xs : List UInt8} (h : p ++ o ++ q <+: s.block.toList)
    (hc : p.length + xs.length + q.length ≤ s.capacity) :
    ∃ m, s.move? (p ++ o).length (p ++ o ++ q).length (p.length + xs.length) = some m ∧
      ∃ u, m.write? p.length xs = some u ∧ p ++ xs ++ q <+: u.block.toList ∧
        u.block.size = s.block.size := by
  obtain ⟨r, hr⟩ := h
  have hs := congrArg List.length hr
  simp only [Block.length_toList, List.length_append] at hs
  simp only [capacity] at hc
  have hq : (s.block.toList.drop (p ++ o).length).take ((p ++ o ++ q).length - (p ++ o).length) =
      q := by
    rw [← hr, List.append_assoc _ q, List.drop_left, @List.length_append _ (p ++ o),
      Nat.add_sub_cancel_left, List.take_left]
  have hm : s.block.move? (p ++ o).length (p ++ o ++ q).length (p.length + xs.length) =
      some (s.block.write (p.length + xs.length) q) :=
    Block.move?_eq_some_iff.2 ⟨by simp, by simp only [List.length_append]; omega,
      by simp only [List.length_append]; omega, by rw [hq]⟩
  refine ⟨_, by rw [move?, hm]; rfl, ?_⟩
  have hmoved : (s.block.write (p.length + xs.length) q).toList =
      p ++ ((s.block.toList.drop p.length).take xs.length ++
        (q ++ s.block.toList.drop (p.length + xs.length + q.length))) := by
    rw [Block.toList_write hc, List.take_add, ← hr, List.append_assoc p, List.append_assoc p,
      List.take_left, List.drop_left]
    simp only [List.append_assoc]
  have hgap : ((s.block.toList.drop p.length).take xs.length).length = xs.length := by
    simp only [List.length_take, List.length_drop, Block.length_toList]; omega
  generalize (s.block.toList.drop p.length).take xs.length = gap at hmoved hgap
  refine ⟨_, write?_eq_some_iff.2 ⟨by simp only [capacity, Block.size_write]; omega, rfl⟩, ?_,
    by simp⟩
  rw [toList_write_append hmoved (by simp only [List.length_append]; omega),
    List.drop_left' hgap, ← List.append_assoc]
  exact List.prefix_append ..

end PackedColumn.ValueStore
