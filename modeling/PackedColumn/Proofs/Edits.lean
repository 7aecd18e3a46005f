import PackedColumn.Edit
import PackedColumn.Proofs.Growth
import PackedColumn.Proofs.Writes

/-!
# Edits as changes of a list

What each edit makes of the slots of a column when it is done
(`Edit.onSlots`), and what it may leave behind when it is refused
(`Edit.Leaves`). The buffers follow the list through every history of edits
that make room for what they write.

* `Encodes.set_sat`, `Encodes.pushAll_sat`, `Encodes.setCount_sat`, `Encodes.padTo_sat`,
  `Encodes.setLast_sat`, `renewWith_sat`: one operation on a column that stands for slots.
* `Edit.run_sat`: any edit, and `Edit.runAll_encodes`: any history.
* `Edit.runAll_simulates`: no edit of a new column breaks its contract, and each changes the slots
  as read back in the way its list operation says.
-/

namespace PackedColumn

/-! ## What edits do to lists -/

/-- Whether the byte string of a slot could be in memory at all. -/
def Blob.Addressable (x : Option Blob) : Prop := (x.map Blob.size).getD 0 ≤ OffsetWidth.wide.max

namespace Slots

theorem length_value_map (x : Option Blob) :
    (value (x.map Blob.toList)).length = (x.map Blob.size).getD 0 := by
  cases x with
  | none => rfl
  | some b => exact Blob.length_toList b

theorem put_length (xs : Slots) (x : Option (List UInt8)) : xs.put xs.length x = xs ++ [x] := by
  rw [put_of_le (Nat.le_refl _), padTo_of_le (Nat.le_refl _)]

end Slots

namespace Edit

/-- The edits that make room for what they write. -/
def Safe : Edit → Prop
  | overwrite .. => False
  | _ => True

/-- The slot numbers and byte strings that an edit may be given. -/
def Sized : Edit → Prop
  | overwrite i x | set i x => i < Size.max ∧ Blob.Addressable x
  | setText i text => i < Size.max ∧ Blob.Addressable (some (.ofText text))
  | push x => Blob.Addressable x
  | pushText text => Blob.Addressable (text.map .ofText)
  | pushAll xs => ∀ x ∈ xs, Blob.Addressable x
  | padTo n => n ≤ Size.max
  | _ => True

/-- What an edit that is done makes of the slots. -/
def onSlots (xs : Slots) : Edit → Slots
  | overwrite i x | set i x => xs.put i (x.map Blob.toList)
  | setText i text => xs.put i (some (Blob.ofText text).toList)
  | push x => xs ++ [x.map Blob.toList]
  | pushText text => xs ++ [(text.map Blob.ofText).map Blob.toList]
  | pushAll ys => xs ++ ys.map (·.map Blob.toList)
  | setCount n => xs.resize n
  | padTo n => xs.padTo n
  | setLast last => xs.blankFrom ((last.map (· + 1)).getD 0)
  | expectSlots .. | expectDensity .. | reserve .. => xs
  | renew | renewWith .. | reset | clear => []

/-- What an edit that is refused may leave of the slots: allocating anew has given up all of them
by then, several values are written up to the one refused, and any other edit changes nothing. -/
def Leaves (xs ys : Slots) : Edit → Prop
  | renew | renewWith .. => ys = []
  | pushAll zs => ∃ k < zs.length, ys = xs ++ (zs.take k).map (·.map Blob.toList)
  | _ => ys = xs

end Edit

/-! ## One operation -/

namespace Column

variable {t : ColumnType} {c : Column t} {s : Owned t} {xs : Slots}

theorem Encodes.set_sat (h : s.column.Encodes xs) (i : Nat) (x : Option Blob) :
    (set i x s).Sat
      (fun _ u => u.column.Encodes (xs.put i (x.map Blob.toList)) ∧
        (s.column.Clean → u.column.Clean))
      (fun _ u => u.column.Encodes xs) (¬ (i < Size.max ∧ Blob.Addressable x)) := by
  refine Call.sat_bind.2 ((h.makeRoom_sat i _).mono (fun _ u ⟨hu, hi, hcap, hmax⟩ => ?_)
    (fun _ u hu => h.growsTo hu.column) fun hbreach ⟨hi, hx⟩ => ?_)
  · rw [← Slots.length_value_map, ← Slots.length_bytes_put] at hcap hmax
    obtain ⟨d, hd, hput, hclean⟩ := (h.growsTo hu.column).exists_put? _ hi hcap hmax
    rw [Op.change_of_some hd]
    exact ⟨hput, fun hs => hclean (hu.column.clean hs)⟩
  · unfold Blob.Addressable at hx
    omega

/-- A write that is done has made room, and then put the value there within the memory held. -/
theorem Encodes.of_set_done (h : s.column.Encodes xs) {i : Nat} {x : Option Blob} {u : Owned t}
    (hdone : set i x s = .done () u) :
    ∃ v : Owned t, s.GrowsTo v ∧ v.column.put? i (x.map Blob.toList) = some u.column ∧
      u.column.Encodes (xs.put i (x.map Blob.toList)) := by
  obtain ⟨⟨⟩, v, hroom, hchange⟩ := Outcome.bind_eq_done_iff.1 hdone
  obtain ⟨hgrown, hi, hcap, hmax⟩ := (h.makeRoom_sat i ((x.map Blob.size).getD 0)).of_done hroom
  rw [← Slots.length_value_map, ← Slots.length_bytes_put] at hcap hmax
  obtain ⟨d, hput, hd, -⟩ := (h.growsTo hgrown.column).exists_put? _ hi hcap hmax
  rw [Op.change_of_some hput] at hchange
  cases hchange
  exact ⟨v, hgrown, hput, hd⟩

theorem Encodes.push_sat (h : s.column.Encodes xs) (x : Option Blob) :
    (push x s).Sat
      (fun _ u => u.column.Encodes (xs ++ [x.map Blob.toList]) ∧
        (s.column.Clean → u.column.Clean))
      (fun _ u => u.column.Encodes xs) (¬ Blob.Addressable x) := by
  rw [← Slots.put_length, push, h.count]
  exact (h.set_sat xs.length x).mono (fun _ _ h => h) (fun _ _ h => h)
    fun hbreach hx => hbreach ⟨h.count_lt_max, hx⟩

theorem Encodes.pushAll_sat (h : s.column.Encodes xs) (ys : List (Option Blob)) :
    (pushAll ys s).Sat
      (fun _ u => u.column.Encodes (xs ++ ys.map (·.map Blob.toList)) ∧
        (s.column.Clean → u.column.Clean))
      (fun _ u => ∃ k < ys.length, u.column.Encodes (xs ++ (ys.take k).map (·.map Blob.toList)))
      (¬ ∀ y ∈ ys, Blob.Addressable y) := by
  induction ys generalizing s xs with
  | nil => exact ⟨by rwa [List.map_nil, List.append_nil], id⟩
  | cons y ys ih =>
    refine Call.sat_bind.2 ((h.push_sat y).mono (fun _ u ⟨hu, hclean⟩ => ?_) (fun _ u hu => ?_)
      fun hbreach hall => hbreach (hall y List.mem_cons_self))
    · refine (ih hu).mono (fun _ v ⟨hv, hcl⟩ => ?_) (fun _ v ⟨k, hk, hv⟩ => ?_)
        fun hbreach hall => hbreach fun z hz => hall z (List.mem_cons_of_mem y hz)
      · rw [List.append_assoc] at hv
        exact ⟨hv, fun hs => hcl (hclean hs)⟩
      · rw [List.append_assoc] at hv
        exact ⟨k + 1, Nat.succ_lt_succ hk, hv⟩
    · exact ⟨0, Nat.succ_pos _, by rwa [List.take_zero, List.map_nil, List.append_nil]⟩

theorem Encodes.setCount_sat (h : s.column.Encodes xs) (n : Nat) :
    (setCount n s).Sat (fun _ u => u.column.Encodes (xs.resize n)) (fun _ u => u.column.Encodes xs)
      False := by
  have hwrite : ∀ u : Owned t, u.column.Encodes xs → n ≤ u.column.slotCapacity →
      (Op.change (fun c => c.follow? (c.extent.planCount? n)) u).Sat
        (fun _ v => v.column.Encodes (xs.resize n)) (fun _ v => v.column.Encodes xs) False := by
    intro u hu hn
    obtain ⟨d, hd, hresize⟩ := hu.exists_setCount hn
    rw [Op.change_of_some hd]
    exact hresize
  unfold setCount
  simp only [Call.sat_bind, Op.column_apply, Outcome.sat_done]
  split
  · refine Call.sat_bind.2 ((growSlots_sat _ s).mono (fun _ u hu => ?_)
      (fun _ u hu => h.growsTo hu.column) h.get?_count_ne_none)
    exact hwrite u (h.growsTo hu.1.column) (Nat.le_trans (Nat.le_max_left ..) hu.2)
  · exact hwrite s h (by omega)

theorem Encodes.padTo_sat (h : s.column.Encodes xs) (n : Nat) :
    (padTo n s).Sat (fun _ u => u.column.Encodes (xs.padTo n)) (fun _ u => u.column.Encodes xs)
      (Size.max < n) := by
  have hwrite : ∀ u : Owned t, u.column.Encodes xs → n ≤ u.column.slotCapacity →
      (Op.change (fun c => c.follow? (c.extent.planPad? n)) u).Sat
        (fun _ v => v.column.Encodes (xs.padTo n)) (fun _ v => v.column.Encodes xs)
        (Size.max < n) := by
    intro u hu hn
    obtain ⟨d, hd, hpad⟩ := hu.exists_padTo hn
    rw [Op.change_of_some hd]
    exact hpad
  unfold padTo
  split
  · refine Call.sat_bind.2 ((h.makeRoom_sat _ 0).mono (fun _ u hu => ?_)
      (fun _ u hu => h.growsTo hu.column) fun hbreach => ?_)
    · have hi := hu.2.1
      exact hwrite u (h.growsTo hu.1.column) (by omega)
    · omega
  · exact hwrite s h (by omega)

theorem Encodes.setLast_sat (h : s.column.Encodes xs) (last : Option Nat) :
    (setLast last s).Sat
      (fun _ u => u.column.Encodes (xs.blankFrom ((last.map (· + 1)).getD 0)))
      (fun _ u => u.column.Encodes xs) False := by
  have hwrite : (∀ l ∈ last, l < xs.length) → (Op.change (fun c =>
      c.blank? ((last.map (· + 1)).getD 0) s.column.count { s.column.extent with last }) s).Sat
        (fun _ v => v.column.Encodes (xs.blankFrom ((last.map (· + 1)).getD 0)))
        (fun _ v => v.column.Encodes xs) False := by
    intro hl
    obtain ⟨d, hd, hblank⟩ := h.exists_setLast hl
    rw [Op.change_of_some hd]
    exact hblank
  unfold setLast
  simp only [Call.sat_bind, Op.column_apply, Outcome.sat_done]
  cases last with
  | none => exact hwrite fun l hl => absurd hl (Option.not_mem_none l)
  | some i =>
    simp only
    split
    · exact h
    · rename_i hi
      rw [h.count] at hi
      apply hwrite
      intro l hl
      rw [Option.mem_some] at hl
      omega

/-! ## Starting over -/

theorem encodes_clear (s : Owned t) : s.clear.column.Encodes [] := encodes_nil rfl rfl

theorem encodes_reset (c : Column t) : c.reset.Encodes [] := by
  refine encodes_nil rfl ?_
  show c.offsets.clear.get? 0 = some 0
  rcases Nat.eq_zero_or_pos c.offsets.clear.block.size with h0 | hpos
  · exact OffsetTable.get?_of_size_zero h0
  · have hl := (OffsetTable.le_slotCapacity_iff hpos).1 (Nat.zero_le _)
    rw [OffsetTable.get?_of_le hl]
    rw [Nat.zero_add, Nat.one_mul] at hl
    simp only [OffsetTable.clear, Block.size_fill] at hl
    simp only [OffsetTable.clear, Block.toList_fill, Nat.zero_mul, List.drop_zero,
      List.take_replicate, Nat.min_eq_left hl, ← OffsetWidth.encode_zero,
      OffsetWidth.decode_encode t.width.holds_zero]

theorem renewWith_sat (bytes slots : Nat) (s : Owned t) :
    (renewWith bytes slots s).Sat (fun _ u => u.column.Encodes []) (fun _ u => u.column.Encodes [])
      False := by
  have hempty := encodes_clear s
  have hreserve := (reserve_sat slots bytes s.clear).mono (fun _ u h => hempty.growsTo h.1.column)
    (fun _ u _ => encodes_clear u) hempty.get?_count_ne_none
  unfold renewWith
  cases hr : reserve slots bytes s.clear <;> rw [hr] at hreserve <;> exact hreserve

end Column

namespace Edit

variable {t : ColumnType} {s : Owned t} {xs : Slots}

theorem run_sat (h : s.column.Encodes xs) (e : Edit) (hsafe : e.Safe) :
    (e.run s).Sat (fun _ u => u.column.Encodes (e.onSlots xs))
      (fun _ u => ∃ ys, e.Leaves xs ys ∧ u.column.Encodes ys) (¬ e.Sized) := by
  have hset : ∀ i x, (Column.set i x s).Sat (fun _ u => u.column.Encodes (xs.put i (x.map Blob.toList)))
      (fun _ u => ∃ ys, ys = xs ∧ u.column.Encodes ys) (¬ (i < Size.max ∧ Blob.Addressable x)) :=
    fun i x => (h.set_sat i x).mono (fun _ _ h => h.1) (fun _ _ h => ⟨xs, rfl, h⟩) id
  have hpush : ∀ x, (Column.push x s).Sat (fun _ u => u.column.Encodes (xs ++ [x.map Blob.toList]))
      (fun _ u => ∃ ys, ys = xs ∧ u.column.Encodes ys) (¬ Blob.Addressable x) :=
    fun x => (h.push_sat x).mono (fun _ _ h => h.1) (fun _ _ h => ⟨xs, rfl, h⟩) id
  have hrenew : ∀ bytes slots, (Column.renewWith bytes slots s).Sat (fun _ u => u.column.Encodes [])
      (fun _ u => ∃ ys, ys = [] ∧ u.column.Encodes ys) (¬ True) := fun bytes slots =>
    (Column.renewWith_sat bytes slots s).mono (fun _ _ h => h) (fun _ _ h => ⟨[], rfl, h⟩) False.elim
  cases e with
  | overwrite => exact hsafe.elim
  | set i x => exact hset i x
  | setText i text => exact hset i _
  | push x => exact hpush x
  | pushText text => exact hpush _
  | pushAll ys =>
    exact (h.pushAll_sat ys).mono (fun _ _ h => h.1) (fun _ _ ⟨k, hk, h⟩ => ⟨_, ⟨k, hk, rfl⟩, h⟩) id
  | setCount n =>
    exact (h.setCount_sat n).mono (fun _ _ h => h) (fun _ _ h => ⟨xs, rfl, h⟩) False.elim
  | padTo n =>
    exact (h.padTo_sat n).mono (fun _ _ h => h) (fun _ _ h => ⟨xs, rfl, h⟩) Nat.not_le_of_gt
  | setLast last =>
    exact (h.setLast_sat last).mono (fun _ _ h => h) (fun _ _ h => ⟨xs, rfl, h⟩) False.elim
  | expectSlots slots => exact ⟨h.extent, h.flags, h.offsets, h.values, h.fits⟩
  | expectDensity slots density => exact ⟨h.extent, h.flags, h.offsets, h.values, h.fits⟩
  | renew => exact hrenew _ _
  | renewWith bytes slots => exact hrenew bytes slots
  | reserve slots bytes =>
    exact (Column.reserve_sat slots bytes s).mono (fun _ u hu => h.growsTo hu.1.column)
      (fun _ u hu => ⟨xs, rfl, h.growsTo hu.column⟩)
      fun hnone => absurd hnone h.get?_count_ne_none
  | reset => exact Column.encodes_reset s.column
  | clear => exact Column.encodes_clear s

/-- Along any history the buffers stand for a list of slots. -/
theorem runAll_encodes (h : s.column.Encodes xs) {es : List Edit}
    (hes : ∀ e ∈ es, e.Safe ∧ e.Sized) :
    ∃ u ys, runAll s es = some u ∧ u.column.Encodes ys := by
  induction es generalizing s xs with
  | nil => exact ⟨s, xs, rfl, h⟩
  | cons e es ih =>
    obtain ⟨hsafe, hsized⟩ := hes e List.mem_cons_self
    have hstep : (e.run s).Sat (fun _ u => ∃ ys, u.column.Encodes ys)
        (fun _ u => ∃ ys, u.column.Encodes ys) False :=
      (run_sat h e hsafe).mono (fun _ _ hu => ⟨_, hu⟩) (fun _ _ ⟨ys, _, hu⟩ => ⟨ys, hu⟩)
        fun hbreach => hbreach hsized
    obtain ⟨u, hu, ys, hys⟩ := hstep.exists_state?
    obtain ⟨v, zs, hv, hzs⟩ := ih hys fun f hf => hes f (List.mem_cons_of_mem e hf)
    exact ⟨v, zs, by rw [runAll_cons, hu]; exact hv, hzs⟩

/-- Edits of a new column simulate list operations. After any history, whether its edits were done
or refused, the column shows a list, and the next edit turns that list into the one its list
operation gives when it is done, and into one it may leave when it is refused. -/
theorem runAll_simulates (a : Allocator) (name : String) (nullable : Bool) (settings : Settings)
    (es : List Edit) (e : Edit) (hes : ∀ f ∈ e :: es, f.Safe ∧ f.Sized) :
    ∃ (s : Owned t) (xs : Slots), runAll ⟨a, .new name nullable settings⟩ es = some s ∧
      s.column.Shows xs ∧
      (e.run s).Sat (fun _ u => u.column.Shows (e.onSlots xs))
        (fun _ u => ∃ ys, e.Leaves xs ys ∧ u.column.Shows ys) False := by
  obtain ⟨s, xs, hs, hxs⟩ := runAll_encodes (Column.encodes_new (t := t) name nullable settings)
    (s := ⟨a, .new name nullable settings⟩) fun f hf => hes f (List.mem_cons_of_mem e hf)
  obtain ⟨hsafe, hsized⟩ := hes e List.mem_cons_self
  exact ⟨s, xs, hs, hxs.shows, (run_sat hxs e hsafe).mono (fun _ _ h => h.shows)
    (fun _ _ ⟨ys, hleaves, h⟩ => ⟨ys, hleaves, h.shows⟩) fun hbreach => hbreach hsized⟩

theorem runAll_simulates_of_rewritten :
    ∃ (s : Owned ⟨.bytes, .narrow⟩) (xs : Slots),
      runAll ⟨{ limit := 200 }, .new "a" true .default⟩
        [.reserve 4 10, .push (some ⟨[1, 2], 1⟩), .set 3 (some ⟨[7], 3⟩), .setLast (some 0),
          .padTo 100, .setCount 2] = some s ∧
      s.column.Shows xs ∧
      (run (.set 0 (some ⟨[5], 5⟩)) s).Sat
        (fun _ u => u.column.Shows (xs.put 0 (some [5, 5, 5, 5, 5])))
        (fun _ u => ∃ ys, ys = xs ∧ u.column.Shows ys) False :=
  runAll_simulates { limit := 200 } "a" true .default _ (.set 0 (some ⟨[5], 5⟩))
    (by simp [Safe, Sized, Blob.Addressable, Blob.size, Size.max, OffsetWidth.max])

end Edit

end PackedColumn
