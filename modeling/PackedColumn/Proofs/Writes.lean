import PackedColumn.Column.Write
import PackedColumn.Proofs.Layout

/-!
# Writing within the memory held

Each change of the buffers turns what they stand for into another list of
slots, provided that the memory suffices.

* `exists_blankSlots?`: slots made null, entry by entry; `exists_blank_padTo` and
  `exists_blank_blankFrom` for the two ways in which columns do it.
* `exists_append?`, `exists_replace?`: a value behind all others, and one among them, which moves
  the entries behind it (`exists_shift?`).
* `Encodes.exists_put?`: writing a slot puts it into the list.
* `Encodes.exists_setCount`, `Encodes.exists_padTo`, `Encodes.exists_setLast`: the changes that
  write no value.
-/

namespace PackedColumn

namespace Column

open Slots (value bytes offset)

variable {t : ColumnType} {w : OffsetWidth} {v : Validity} {o : OffsetTable w} {s : ValueStore}
  {c d : Column t} {xs ys : Slots} {i n : Nat}

/-! ## Sizes

No write within the memory held changes how much that is. -/

/-- Only the slots of a column have changed, and each buffer has the size it had. -/
structure InPlace (c d : Column t) : Prop where
  same : d = { c with
    validity := d.validity, offsets := d.offsets, values := d.values, extent := d.extent }
  flags : d.validity.block.size = c.validity.block.size
  entries : d.offsets.block.size = c.offsets.block.size
  values : d.values.block.size = c.values.block.size

namespace InPlace

theorem footprint_eq (h : c.InPlace d) : d.footprint = c.footprint := by
  rw [footprint, footprint, h.flags, h.entries, h.values]

theorem slotCapacity_eq (h : c.InPlace d) : d.slotCapacity = c.slotCapacity := by
  simp only [slotCapacity, Validity.bitCapacity, OffsetTable.slotCapacity, h.flags, h.entries]

theorem byteCapacity_eq (h : c.InPlace d) : d.byteCapacity = c.byteCapacity := h.values

theorem initialBytes_eq (h : c.InPlace d) : d.initialBytes = c.initialBytes := by rw [h.same]

end InPlace

theorem blankSlots?_sizes {v' : Validity} {o' : OffsetTable w}
    (h : blankSlots? v o i n = some (v', o')) :
    v'.block.size = v.block.size ∧ o'.block.size = o.block.size := by
  induction n generalizing v o i with
  | zero => cases h; exact ⟨rfl, rfl⟩
  | succ n ih =>
    simp only [blankSlots?, Option.bind_eq_bind, Option.bind_eq_some_iff] at h
    obtain ⟨v₁, hv, e, -, o₁, ho, hrest⟩ := h
    obtain ⟨-, rfl⟩ := Validity.put?_eq_some_iff.1 hv
    obtain ⟨-, rfl⟩ := OffsetTable.put?_eq_some_iff.1 ho
    obtain ⟨hv', ho'⟩ := ih hrest
    exact ⟨by rw [hv', Validity.size_put], by rw [ho', OffsetTable.size_put]⟩

theorem write?_size {s' : ValueStore} {xs : List UInt8} (h : s.write? i xs = some s') :
    s'.block.size = s.block.size := by
  obtain ⟨-, rfl⟩ := ValueStore.write?_eq_some_iff.1 h
  exact Block.size_write ..

theorem append?_sizes {x : List UInt8} {o' : OffsetTable w} {s' : ValueStore}
    (h : append? o s i x = some (o', s')) :
    o'.block.size = o.block.size ∧ s'.block.size = s.block.size := by
  simp only [append?, Option.bind_eq_bind, Option.bind_eq_some_iff] at h
  obtain ⟨start, -, h⟩ := h
  split at h
  · simp only [Option.bind_eq_some_iff] at h
    obtain ⟨o₁, ho, s₁, hs, h⟩ := h
    cases h
    obtain ⟨-, rfl⟩ := OffsetTable.put?_eq_some_iff.1 ho
    exact ⟨OffsetTable.size_put .., write?_size hs⟩
  · cases h

theorem shift?_size {o' : OffsetTable w} {delta : Int} (h : o.shift? delta i n = some o') :
    o'.block.size = o.block.size := by
  induction n generalizing o i with
  | zero => cases h; rfl
  | succ n ih =>
    simp only [OffsetTable.shift?, Option.bind_eq_bind, Option.bind_eq_some_iff] at h
    obtain ⟨start, -, h⟩ := h
    split at h
    · obtain ⟨o₁, ho, h⟩ := Option.bind_eq_some_iff.1 h
      obtain ⟨-, rfl⟩ := OffsetTable.put?_eq_some_iff.1 ho
      rw [ih h, OffsetTable.size_put]
    · cases h

theorem replace?_sizes {x : List UInt8} {count : Nat} {o' : OffsetTable w} {s' : ValueStore}
    (h : replace? o s count i x = some (o', s')) :
    o'.block.size = o.block.size ∧ s'.block.size = s.block.size := by
  simp only [replace?, Option.bind_eq_bind, Option.bind_eq_some_iff] at h
  obtain ⟨start, -, former, -, h⟩ := h
  split at h
  · obtain ⟨s₁, hs, h⟩ := Option.bind_eq_some_iff.1 h
    cases h
    exact ⟨rfl, write?_size hs⟩
  · simp only [Option.bind_eq_some_iff] at h
    obtain ⟨total, -, m, hm, o₁, ho, s₁, hs, h⟩ := h
    cases h
    obtain ⟨b, hb, rfl⟩ := Option.map_eq_some_iff.1 hm
    obtain ⟨-, -, -, rfl⟩ := Block.move?_eq_some_iff.1 hb
    exact ⟨shift?_size ho, by rw [write?_size hs, Block.size_write]⟩

/-- Writing a slot: the plan, the slots before it, its value, and its flag. -/
theorem put?_eq_some_iff {x : Option (List UInt8)} : c.put? i x = some d ↔
    ∃ plan v' o' o₂ s₂, c.extent.planSet? i = some plan ∧
      blankSlots? c.validity c.offsets plan.fillStart (plan.fillStop - plan.fillStart) =
        some (v', o') ∧
      (if plan.defined = true then replace? o' c.values c.extent.count i (value x)
        else append? o' c.values i (value x)) = some (o₂, s₂) ∧
      i < v'.bitCapacity ∧
      d = { c with
        validity := v'.put i x.isSome, offsets := o₂, values := s₂, extent := plan.next } := by
  obtain ⟨name, nullable, validity, offsets, values, extent, initialSlots, initialBytes⟩ := c
  simp only [put?, Option.bind_eq_bind, Option.bind_eq_some_iff, Option.pure_def,
    show x.getD [] = value x from rfl]
  constructor
  · rintro ⟨plan, hplan, ⟨v', o'⟩, hfill, h⟩
    split at h <;> rename_i hdef <;> simp only [Option.bind_eq_some_iff] at h <;>
    · obtain ⟨⟨o₂, s₂⟩, hstore, v₂, hv, h⟩ := h
      cases h
      obtain ⟨hi, rfl⟩ := Validity.put?_eq_some_iff.1 hv
      exact ⟨plan, v', o', o₂, s₂, hplan, hfill, by simpa [hdef] using hstore, hi, rfl⟩
  · rintro ⟨plan, v', o', o₂, s₂, hplan, hfill, hstore, hi, rfl⟩
    refine ⟨plan, hplan, (v', o'), hfill, ?_⟩
    have hv := Validity.put?_eq_some_iff.2 ⟨hi, Eq.refl (v'.put i x.isSome)⟩
    split <;> rename_i hdef <;> simp only [hdef] at hstore <;>
    · exact Option.bind_eq_some_iff.2 ⟨(o₂, s₂), hstore, Option.bind_eq_some_iff.2 ⟨_, hv, rfl⟩⟩

theorem put?_inPlace {x : Option (List UInt8)} (h : c.put? i x = some d) : c.InPlace d := by
  obtain ⟨plan, v', o', o₂, s₂, -, hfill, hstore, -, rfl⟩ := put?_eq_some_iff.1 h
  obtain ⟨hv, ho⟩ := blankSlots?_sizes hfill
  have hs : o₂.block.size = o'.block.size ∧ s₂.block.size = c.values.block.size := by
    split at hstore
    · exact replace?_sizes hstore
    · exact append?_sizes hstore
  exact ⟨rfl, (Validity.size_put ..).trans hv, hs.1.trans ho, hs.2⟩

/-- Making slots null under another extent. -/
theorem blank?_eq_some_iff {stop : Nat} {e : Extent} : c.blank? i stop e = some d ↔
    ∃ v' o', blankSlots? c.validity c.offsets i (stop - i) = some (v', o') ∧
      d = { c with validity := v', offsets := o', extent := e } := by
  obtain ⟨name, nullable, validity, offsets, values, extent, initialSlots, initialBytes⟩ := c
  simp only [blank?, Option.bind_eq_bind, Option.bind_eq_some_iff, Option.pure_def,
    Option.some.injEq, Prod.exists, eq_comm (a := d)]

theorem blank?_inPlace {stop : Nat} {e : Extent} (h : c.blank? i stop e = some d) :
    c.InPlace d := by
  obtain ⟨v', o', hfill, rfl⟩ := blank?_eq_some_iff.1 h
  obtain ⟨hv, ho⟩ := blankSlots?_sizes hfill
  exact ⟨rfl, hv, ho, rfl⟩

theorem follow?_inPlace {p : Option Extent.Plan} (h : c.follow? p = some d) : c.InPlace d := by
  obtain ⟨plan, -, h⟩ := Option.bind_eq_some_iff.1 h
  exact blank?_inPlace h

/-! ## Making slots null -/

theorem exists_blankSlots? {e : Int} (hv : i + n ≤ v.bitCapacity) (ho : i + n ≤ o.slotCapacity)
    (he : o.get? i = some e) : ∃ v' o', blankSlots? v o i n = some (v', o') ∧
      (∀ j, v'.get? j = if i ≤ j ∧ j < i + n then some false else v.get? j) ∧
      ∀ j, o'.get? j = if i < j ∧ j ≤ i + n then some e else o.get? j := by
  induction n generalizing v o i with
  | zero =>
    exact ⟨v, o, rfl, fun j => by rw [if_neg (by omega)], fun j => by rw [if_neg (by omega)]⟩
  | succ n ih =>
    have hpos : 0 < o.block.size := Nat.pos_of_ne_zero fun h => by
      have := OffsetTable.slotCapacity_of_size_zero h; omega
    have hsize : (i + 1 + 1) * w.bytes ≤ o.block.size :=
      (OffsetTable.le_slotCapacity_iff hpos).1 (by omega)
    have hflag : v.put? i false = some (v.put i false) :=
      Validity.put?_eq_some_iff.2 ⟨by omega, rfl⟩
    have hentry := OffsetTable.get?_put (OffsetTable.holds_of_get? he) hsize
    obtain ⟨v', o', hrun, hv', ho'⟩ := ih (v := v.put i false) (o := o.put (i + 1) e) (i := i + 1)
      (by rw [Validity.bitCapacity_put]; omega) (by rw [OffsetTable.slotCapacity_put]; omega)
      (by rw [hentry, if_pos rfl])
    refine ⟨v', o', ?_, fun j => ?_, fun j => ?_⟩
    · simp only [blankSlots?, hflag, he, OffsetTable.put?_eq_some_iff.2 ⟨hsize, rfl⟩,
        Option.bind_eq_bind, Option.bind_some, hrun]
    · rw [hv', Validity.get?_put (by omega)]
      by_cases hj : j = i
      · subst hj; rw [if_neg (by omega), if_pos rfl, if_pos (by omega)]
      · rw [if_neg hj]; congr 1; simp only [eq_iff_iff]; omega
    · rw [ho', hentry]
      by_cases hj : j = i + 1
      · subst hj; rw [if_neg (by omega), if_pos rfl, if_pos (by omega)]
      · rw [if_neg hj]; congr 1; simp only [eq_iff_iff]; omega

/-- The slots from `a` on made null, where the list already has null ones or ends. -/
theorem exists_blank_of_tail {a : Nat} (hm : v.Marks xs) (hd : o.Delimits xs) (ha : a ≤ xs.length)
    (hv : a + n ≤ v.bitCapacity) (ho : a + n ≤ o.slotCapacity) (head : ys.take a = xs.take a)
    (mid : ∀ j, a ≤ j → j < a + n → ys[j]? = some none)
    (tail : ∀ j, a + n ≤ j → j < ys.length → ys[j]? = xs[j]? ∧
      ys.offset (j + 1) = xs.offset (j + 1)) :
    ∃ v' o', blankSlots? v o a n = some (v', o') ∧ v'.Marks ys ∧ o'.Delimits ys ∧
      ∀ j, v'.get? j = some true → v.get? j = some true := by
  obtain ⟨v', o', hrun, hv', ho'⟩ := exists_blankSlots? hv ho (hd a ha)
  have htake : ∀ j ≤ a, ys.take j = xs.take j := fun j hj => by
    rw [← Nat.min_eq_left hj, ← List.take_take, ← List.take_take, head]
  refine ⟨v', o', hrun, fun j x hx => ?_, fun j hj => ?_, fun j hj => ?_⟩
  · rw [hv']
    split
    · rename_i hmid
      rw [mid j hmid.1 hmid.2] at hx
      cases hx; rfl
    · by_cases hja : j < a
      · refine hm j x ?_
        rw [← List.getElem?_take_of_lt hja, ← head, List.getElem?_take_of_lt hja, hx]
      · have hj := (List.getElem?_eq_some_iff.1 hx).1
        exact hm j x ((tail j (by omega) hj).1 ▸ hx)
  · rw [ho']
    split
    · rename_i hmid
      rw [Slots.offset_of_blank (Nat.le_of_lt hmid.1) fun k hk hkj => mid k hk (by omega),
        Slots.offset_congr head]
    · by_cases hja : j ≤ a
      · rw [hd j (by omega), Slots.offset_congr (htake j hja)]
      · obtain ⟨k, rfl⟩ : ∃ k, j = k + 1 := ⟨j - 1, by omega⟩
        obtain ⟨hk, hoff⟩ := tail k (by omega) (by omega)
        have hlt : k < xs.length := by
          rw [List.getElem?_eq_getElem (by omega)] at hk
          exact (List.getElem?_eq_some_iff.1 hk.symm).1
        rw [hd (k + 1) (by omega), hoff]
  · rw [hv'] at hj
    split at hj
    · cases hj
    · exact hj

/-- The slots from `a` to just before `stop` made null, all that are defined being null already. -/
theorem exists_blank_padTo {a stop : Nat} (hm : v.Marks xs) (hd : o.Delimits xs)
    (ha : a ≤ xs.length) (hv : max a stop ≤ v.bitCapacity) (ho : max a stop ≤ o.slotCapacity)
    (hblank : ∀ j, a ≤ j → j < xs.length → xs[j]? = some none) :
    ∃ v' o', blankSlots? v o a (max a stop - a) = some (v', o') ∧ v'.Marks (xs.padTo stop) ∧
      o'.Delimits (xs.padTo stop) ∧ ∀ j, v'.get? j = some true → v.get? j = some true := by
  refine exists_blank_of_tail hm hd ha (by omega) (by omega) (Slots.take_padTo ha)
    (fun j hj hjs => ?_) fun j hj hjs => ?_
  · rw [Slots.getElem?_padTo]
    split
    · exact hblank j hj (by assumption)
    · rw [if_pos (by omega)]
  · rw [Slots.length_padTo] at hjs
    exact ⟨by rw [Slots.getElem?_padTo, if_pos (by omega)],
      Slots.offset_congr (Slots.take_padTo (by omega))⟩

/-- All slots from `a` on made null. -/
theorem exists_blank_blankFrom {a : Nat} (hm : v.Marks xs) (hd : o.Delimits xs)
    (ha : a ≤ xs.length) (hv : xs.length ≤ v.bitCapacity) (ho : xs.length ≤ o.slotCapacity) :
    ∃ v' o', blankSlots? v o a (xs.length - a) = some (v', o') ∧ v'.Marks (xs.blankFrom a) ∧
      o'.Delimits (xs.blankFrom a) := by
  have head : (xs.blankFrom a).take a = xs.take a := by
    rw [Slots.blankFrom, List.take_append_of_le_length (by rw [List.length_take]; omega),
      List.take_take, Nat.min_self]
  obtain ⟨v', o', hrun, hm', hd', -⟩ := exists_blank_of_tail hm hd ha (n := xs.length - a)
    (by omega) (by omega) head
    (fun j hj hjs => by rw [Slots.getElem?_blankFrom, if_neg (by omega), if_pos (by omega)])
    fun j hj hjs => by rw [Slots.length_blankFrom] at hjs; omega
  exact ⟨v', o', hrun, hm', hd'⟩

/-! ## Values -/

/-- A value behind all others. -/
theorem exists_append? (hd : o.Delimits xs) (hs : xs.bytes <+: s.block.toList)
    (x : Option (List UInt8)) (ho : xs.length < o.slotCapacity)
    (hc : xs.bytes.length + (value x).length ≤ s.capacity)
    (hf : xs.bytes.length + (value x).length ≤ w.max) :
    ∃ o' s', append? o s xs.length (value x) = some (o', s') ∧ o'.Delimits (xs ++ [x]) ∧
      bytes (xs ++ [x]) <+: s'.block.toList := by
  have hpos : 0 < o.block.size := Nat.pos_of_ne_zero fun h => by
    have := OffsetTable.slotCapacity_of_size_zero h; omega
  have hsize := (OffsetTable.le_slotCapacity_iff hpos).1 (show xs.length + 1 ≤ _ by omega)
  have hstart := hd.total?
  obtain ⟨s', hwrite, hbytes, -⟩ := ValueStore.exists_write?_append hs hc
  have hstop : ((xs.bytes.length + (value x).length : Nat) : Int) = offset (xs ++ [x]) (xs.length + 1) := by
    rw [← show (xs ++ [x]).length = xs.length + 1 by simp, Slots.offset_length,
      Slots.bytes_append, Slots.bytes_cons, Slots.bytes_nil, List.append_nil, List.length_append]
  refine ⟨o.put (xs.length + 1) (xs.bytes.length + (value x).length : Nat), s', ?_, fun j hj => ?_,
    by simpa using hbytes⟩
  · simp only [append?, hstart, Option.bind_eq_bind, Option.bind_some, if_pos hf,
      OffsetTable.put?_eq_some_iff.2 ⟨hsize, rfl⟩, hwrite, Option.pure_def]
  · rw [OffsetTable.get?_put (OffsetWidth.holds_natCast hf) hsize]
    split
    · rename_i hj'
      rw [hj', hstop]
    · rw [List.length_append, List.length_singleton] at hj
      rw [hd j (by omega), Slots.offset_congr (List.take_append_of_le_length (by omega)).symm]

/-- The entries behind a slot moved as far as the end of its value moves. -/
theorem exists_shift? (hd : o.Delimits xs) (x : Option (List UInt8)) (hi : i < xs.length)
    (hf : (bytes (xs.set i x)).length ≤ w.max) :
    ∃ o', o.shift? ((value x).length - (value xs[i]).length : Int) (i + 1) (xs.length - i) =
      some o' ∧ o'.Delimits (xs.set i x) := by
  have hshiftable : ∀ j, i + 1 ≤ j → j < i + 1 + (xs.length - i) → ∃ e : Nat,
      o.get? j = some (e : Int) ∧ 0 ≤ (e + ((value x).length - (value xs[i]).length) : Int) ∧
        w.Holds (e + ((value x).length - (value xs[i]).length)) := by
    intro j hj hj'
    have hle := Slots.offset_le (xs.set i x) j
    refine ⟨_, hd j (by omega), ?_⟩
    rw [← Slots.offset_set_eq hi (show i < j by omega)]
    exact ⟨by omega, OffsetWidth.holds_natCast (by omega)⟩
  have hsize : (i + 1 + (xs.length - i)) * w.bytes ≤ o.block.size := by
    rw [show i + 1 + (xs.length - i) = xs.length + 1 by omega]
    rcases OffsetTable.get?_cases (hd _ (Nat.le_refl _)) with ⟨-, h0, -⟩ | ⟨hle, -⟩
    · omega
    · exact hle
  obtain ⟨o', hshift, -, hget⟩ := OffsetTable.get?_shift? hshiftable hsize
  refine ⟨o', hshift, fun j hj => ?_⟩
  rw [List.length_set] at hj
  rw [hget, hd j hj]
  split
  · rw [Option.map_some, ← Slots.offset_set_eq hi (show i < j by omega)]
  · rw [Slots.offset_set_of_le (by omega)]

/-- A value of the same length in place of another. -/
theorem exists_replace?_same (hd : o.Delimits xs) (hs : xs.bytes <+: s.block.toList)
    (x : Option (List UInt8)) (hi : i < xs.length)
    (hlen : (value x).length = (value xs[i]).length) :
    ∃ s', replace? o s xs.length i (value x) = some (o, s') ∧ o.Delimits (xs.set i x) ∧
      bytes (xs.set i x) <+: s'.block.toList := by
  have hstart := hd.start? (Nat.le_of_lt hi)
  have hformer : o.stop? i = some (xs.offset (i + 1)) := hd.start? hi
  rw [Slots.bytes_eq_of_lt hi] at hs
  obtain ⟨s', hwrite, hbytes, -⟩ := ValueStore.exists_write? hs hlen
  refine ⟨s', ?_, fun j hj => ?_, by rwa [Slots.bytes_set hi]⟩
  · simp only [replace?, hstart, hformer, Option.bind_eq_bind, Option.bind_some, offset, hwrite]
    rw [if_pos (by rw [Slots.bytes_take_succ hi, List.length_append, hlen])]
    rfl
  · rw [List.length_set] at hj
    rw [hd j hj]
    by_cases hij : j ≤ i
    · rw [Slots.offset_set_of_le hij]
    · have := Slots.offset_set_of_lt (x := x) hi (show i < j by omega)
      rw [show offset (xs.set i x) j = xs.offset j by omega]

/-- A value in place of another; the bytes behind it move, and so do the offsets of those slots. -/
theorem exists_replace? (hd : o.Delimits xs) (hs : xs.bytes <+: s.block.toList)
    (x : Option (List UInt8)) (hi : i < xs.length)
    (hc : (bytes (xs.set i x)).length ≤ s.capacity) (hf : (bytes (xs.set i x)).length ≤ w.max) :
    ∃ o' s', replace? o s xs.length i (value x) = some (o', s') ∧ o'.Delimits (xs.set i x) ∧
      bytes (xs.set i x) <+: s'.block.toList := by
  by_cases hlen : (value x).length = (value xs[i]).length
  · obtain ⟨s', hreplace⟩ := exists_replace?_same hd hs x hi hlen
    exact ⟨o, s', hreplace⟩
  have hstart := hd.start? (Nat.le_of_lt hi)
  have hformer : o.stop? i = some (xs.offset (i + 1)) := hd.start? hi
  have hstop : xs.offset (i + 1) = (bytes (xs.take i)).length + (value xs[i]).length := by
    rw [offset, Slots.bytes_take_succ hi, List.length_append]
  obtain ⟨o', hshift, hd'⟩ := exists_shift? hd x hi hf
  have htotal := hd.total?
  rw [Slots.bytes_eq_of_lt hi] at hs htotal
  rw [Slots.bytes_set hi] at hc ⊢
  simp only [List.length_append] at hc
  obtain ⟨m, hmove, s', hwrite, hbytes, -⟩ := ValueStore.exists_move?_write? hs hc
  refine ⟨o', s', ?_, hd', hbytes⟩
  rw [← show ((xs.offset i + (value x).length : Nat) : Int) - (xs.offset (i + 1) : Nat) =
    (value x).length - (value xs[i]).length by rw [hstop, offset]; omega] at hshift
  rw [← List.length_append] at hstop
  simp only [replace?, hstart, hformer, htotal, Option.bind_eq_bind, Option.bind_some, hshift]
  rw [if_neg (by rw [hstop, List.length_append, offset]; omega), hstop, offset, hmove]
  simp only [Option.bind_some, hwrite]
  rfl

theorem lt_slotCapacity_of_append? {x : List UInt8} {o' : OffsetTable w} {s' : ValueStore}
    (h : append? o s i x = some (o', s')) : i < o.slotCapacity := by
  simp only [append?, Option.bind_eq_bind, Option.bind_eq_some_iff] at h
  obtain ⟨start, -, h⟩ := h
  split at h
  · obtain ⟨o₁, ho, -⟩ := Option.bind_eq_some_iff.1 h
    obtain ⟨hle, -⟩ := OffsetTable.put?_eq_some_iff.1 ho
    have hpos : 0 < (i + 1 + 1) * w.bytes := Nat.mul_pos (Nat.succ_pos _) w.bytes_pos
    exact (OffsetTable.le_slotCapacity_iff (by omega)).2 hle
  · cases h

theorem room_of_append? {x : Option (List UInt8)} {o' : OffsetTable w} {s' : ValueStore}
    (hd : o.Delimits xs) (h : append? o s xs.length (value x) = some (o', s')) :
    xs.bytes.length + (value x).length ≤ s.capacity := by
  simp only [append?, hd.total?, Option.bind_eq_bind, Option.bind_some] at h
  split at h
  · simp only [Option.bind_eq_some_iff] at h
    obtain ⟨o₁, -, s₁, hs, -⟩ := h
    exact (ValueStore.write?_eq_some_iff.1 hs).1
  · cases h

theorem room_of_replace? {x : Option (List UInt8)} {o' : OffsetTable w} {s' : ValueStore}
    (hd : o.Delimits xs) (hi : i < xs.length) (hs : xs.bytes.length ≤ s.capacity)
    (h : replace? o s xs.length i (value x) = some (o', s')) :
    (bytes (xs.set i x)).length ≤ s.capacity := by
  have hsucc := Slots.offset_succ hi
  have hstart := hd.start? (Nat.le_of_lt hi)
  have hformer : o.stop? i = some (xs.offset (i + 1)) := hd.start? hi
  have htotal := hd.total?
  have hlength := Slots.length_bytes_put xs i x
  rw [Slots.put_of_lt hi, Slots.sizeWith_of_lt hi] at hlength
  simp only [replace?, hstart, hformer, htotal, Option.bind_eq_bind, Option.bind_some] at h
  have hle := Slots.offset_le xs (i + 1)
  split at h
  · omega
  · simp only [Option.bind_eq_some_iff] at h
    obtain ⟨m, hm, -⟩ := h
    obtain ⟨b, hb, -⟩ := Option.map_eq_some_iff.1 hm
    obtain ⟨-, -, hroom, -⟩ := Block.move?_eq_some_iff.1 hb
    simp only [ValueStore.capacity] at *
    omega

/-- A value put where it belongs, once the slots before it are there. -/
theorem exists_store? (hd : o.Delimits (xs.padTo i)) (hs : bytes xs <+: s.block.toList)
    (x : Option (List UInt8)) (ho : i < o.slotCapacity)
    (hc : (bytes (xs.put i x)).length ≤ s.capacity)
    (hf : (bytes (xs.put i x)).length ≤ w.max) :
    ∃ o' s', (if i < xs.length then replace? o s xs.length i (value x)
        else append? o s i (value x)) = some (o', s') ∧
      o'.Delimits (xs.put i x) ∧ bytes (xs.put i x) <+: s'.block.toList := by
  by_cases hi : i < xs.length
  · rw [Slots.padTo_of_le (Nat.le_of_lt hi)] at hd
    rw [Slots.put_of_lt hi] at hc hf ⊢
    rw [if_pos hi]
    exact exists_replace? hd hs x hi hc hf
  · have hl : (xs.padTo i).length = i := by rw [Slots.length_padTo]; omega
    rw [Slots.put_of_le (by omega)] at hc hf ⊢
    simp only [Slots.bytes_append, Slots.bytes_cons, Slots.bytes_nil, List.append_nil,
      List.length_append] at hc hf
    rw [← Slots.bytes_padTo xs i] at hs
    have happend := exists_append? hd hs x (by rw [hl]; exact ho) hc hf
    rw [if_neg hi]
    rwa [hl] at happend

/-! ## Flags and extents of the lists -/

theorem marks_put (hm : v.Marks (xs.padTo i)) (hi : i < v.bitCapacity) (x : Option (List UInt8)) :
    (v.put i x.isSome).Marks (xs.put i x) := by
  intro j y hy
  rw [Validity.get?_put hi]
  by_cases hj : j = i
  · rw [Slots.getElem?_put, if_pos hj] at hy
    cases hy
    exact if_pos hj
  · rw [if_neg hj]
    exact hm j y (by rw [← Slots.getElem?_put_of_ne hj, hy])

theorem covers_put {e : Extent} (h : e.Covers xs) (x : Option (List UInt8)) :
    (⟨max e.count (i + 1), some (max (e.last.getD 0) i)⟩ : Extent).Covers (xs.put i x) where
  count := by rw [Slots.length_put, h.count]
  last_lt := by
    have hlast := h.last_lt
    rintro l ⟨⟩
    rw [Slots.length_put]
    cases he : e.last with
    | none => simp only [Option.getD_none]; omega
    | some l => have := hlast l he; simp only [Option.getD_some]; omega
  blank := fun j hj hjl => by
    rw [Slots.length_put] at hjl
    have hlt := Extent.next_le_iff.1 hj _ rfl
    have hnext : e.next ≤ j := Extent.next_le_iff.2 fun l hl => by
      rw [hl, Option.getD_some] at hlt; omega
    rw [Slots.getElem?_put, if_neg (by omega), Slots.getElem?_padTo, if_pos (by omega)]
    exact h.blank j hnext (by omega)

theorem covers_resize (xs : Slots) (n : Nat) :
    (⟨n, if n = 0 then none else some (n - 1)⟩ : Extent).Covers (xs.resize n) where
  count := (Slots.length_resize ..).symm
  last_lt := fun l hl => by
    rw [Slots.length_resize]
    simp only at hl
    split at hl
    · cases hl
    · cases hl
      omega
  blank := fun j hj hjl => by
    rw [Slots.length_resize] at hjl
    have := Extent.next_le_iff.1 hj (n - 1) (if_neg (by omega))
    omega

theorem covers_padTo {e : Extent} (h : e.Covers xs) (n : Nat) :
    (⟨max e.count n, if e.next < n then some (n - 1) else e.last⟩ : Extent).Covers
      (xs.padTo n) where
  count := by rw [Slots.length_padTo, h.count]
  last_lt := fun l hl => by
    rw [Slots.length_padTo]
    simp only at hl
    split at hl
    · cases hl
      omega
    · have := h.last_lt l hl
      omega
  blank := fun j hj hjl => by
    rw [Slots.length_padTo] at hjl
    rw [Extent.next_le_iff] at hj
    have hnext : e.next ≤ j ∧ n ≤ j := by
      simp only at hj
      split at hj
      · have := hj (n - 1) rfl
        omega
      · have := Extent.next_le_iff.2 hj
        omega
    rw [Slots.getElem?_padTo, if_pos (by omega)]
    exact h.blank j hnext.1 (by omega)

theorem covers_blankFrom {e : Extent} (h : e.Covers xs) {last : Option Nat}
    (hl : ∀ l ∈ last, l < xs.length) :
    ({ e with last } : Extent).Covers (xs.blankFrom ((last.map (· + 1)).getD 0)) where
  count := by rw [Slots.length_blankFrom, h.count]
  last_lt := fun l hll => by rw [Slots.length_blankFrom]; exact hl l hll
  blank := fun j hj hjl => by
    rw [Slots.length_blankFrom] at hjl
    have hnext : (last.map (· + 1)).getD 0 ≤ j := hj
    rw [Slots.getElem?_blankFrom, if_neg (by omega), if_pos hjl]

/-! ## Whole columns -/

theorem nextFree?_eq {e : Extent} (h : e.next ≤ Size.max) : e.nextFree? = some e.next := by
  rw [Extent.nextFree?_eq_some_iff]
  unfold Extent.next at *
  cases hl : e.last with
  | none => exact .inl ⟨rfl, rfl⟩
  | some l => rw [hl] at h; exact .inr ⟨l, rfl, rfl, h⟩

namespace Encodes

/-- Null slots from the highest one written to slot `n`. -/
theorem exists_fill (h : c.Encodes xs) (hn : n ≤ c.slotCapacity) :
    ∃ v' o', blankSlots? c.validity c.offsets c.extent.next
        (max c.extent.next n - c.extent.next) = some (v', o') ∧
      v'.Marks (xs.padTo n) ∧ o'.Delimits (xs.padTo n) ∧
      ∀ j, v'.get? j = some true → c.validity.get? j = some true := by
  have hnext := h.extent.next_le
  have hslots := h.le_slotCapacity
  have hroom : max c.extent.next n ≤ c.slotCapacity := by omega
  exact exists_blank_padTo h.flags h.offsets hnext (Nat.le_trans hroom (Nat.min_le_left ..))
    (Nat.le_trans hroom (Nat.min_le_right ..)) h.extent.blank

theorem nextFree? (h : c.Encodes xs) : c.extent.nextFree? = some c.extent.next := by
  have := h.extent.next_le
  have := h.count_lt_max
  exact nextFree?_eq (by omega)

/-- Writing a slot within the memory held. -/
theorem exists_put? (h : c.Encodes xs) (x : Option (List UInt8)) (hi : i < c.slotCapacity)
    (hc : (bytes (xs.put i x)).length ≤ c.byteCapacity)
    (hf : (bytes (xs.put i x)).length ≤ t.width.max) :
    ∃ d, c.put? i x = some d ∧ d.Encodes (xs.put i x) ∧ (c.Clean → d.Clean) := by
  have hmax := c.slotCapacity_lt
  have hbits : c.slotCapacity ≤ c.validity.bitCapacity := Nat.min_le_left ..
  have hentries : c.slotCapacity ≤ c.offsets.slotCapacity := Nat.min_le_right ..
  obtain ⟨v', o', hfill, hm, hd, hclean⟩ := h.exists_fill (Nat.le_of_lt hi)
  obtain ⟨hvsize, hosize⟩ := blankSlots?_sizes hfill
  have hv' : i < v'.bitCapacity := by
    rw [Validity.bitCapacity, hvsize]; exact Nat.lt_of_lt_of_le hi hbits
  have ho' : i < o'.slotCapacity := by
    rw [OffsetTable.slotCapacity, hosize]; exact Nat.lt_of_lt_of_le hi hentries
  obtain ⟨o₂, s₂, hstore, hd₂, hs₂⟩ := exists_store? hd h.values x ho' hc hf
  have hplan : c.extent.planSet? i = some ⟨c.extent.next, max c.extent.next i, i < c.extent.count,
      ⟨max c.extent.count (i + 1), some (max (c.extent.last.getD 0) i)⟩⟩ :=
    Extent.planSet?_eq_some_iff.2 ⟨_, h.nextFree?, by omega, rfl⟩
  refine ⟨_, put?_eq_some_iff.2 ⟨_, v', o', o₂, s₂, hplan, hfill, ?_, hv', rfl⟩,
    ⟨covers_put h.extent x, marks_put hm hv' x, hd₂, hs₂, hf⟩, fun hcl j hj => ?_⟩
  · have hcount : c.extent.count = xs.length := h.count
    simpa only [decide_eq_true_eq, hcount] using hstore
  · change (v'.put i x.isSome).get? j = _ at hj
    show j < max c.extent.count (i + 1)
    rw [Validity.get?_put hv'] at hj
    split at hj
    · omega
    · exact Nat.lt_of_lt_of_le (hcl j (hclean j hj)) (Nat.le_max_left ..)

/-- A write within the memory held finds the room it needs, or breaks its contract. -/
theorem room_of_put? (h : c.Encodes xs) {x : Option (List UInt8)} (hput : c.put? i x = some d) :
    i < c.slotCapacity ∧ (bytes (xs.put i x)).length ≤ c.byteCapacity := by
  obtain ⟨plan, v', o', o₂, s₂, hplan, hfill, hstore, hi, -⟩ := put?_eq_some_iff.1 hput
  obtain ⟨first, hfirst, -, rfl⟩ := Extent.planSet?_eq_some_iff.1 hplan
  rw [h.nextFree?] at hfirst
  cases hfirst
  obtain ⟨hvsize, hosize⟩ := blankSlots?_sizes hfill
  have hcount : c.extent.count = xs.length := h.count
  simp only [decide_eq_true_eq, hcount] at hstore
  have hslot : i < c.slotCapacity := by
    refine Nat.lt_min.2 ⟨by rwa [Validity.bitCapacity, ← hvsize], ?_⟩
    split at hstore
    · exact Nat.lt_of_lt_of_le (by assumption) (Nat.le_trans h.le_slotCapacity (Nat.min_le_right ..))
    · rw [OffsetTable.slotCapacity, ← hosize]
      exact lt_slotCapacity_of_append? hstore
  obtain ⟨v₁, o₁, hfill', -, hd, -⟩ := h.exists_fill (Nat.le_of_lt hslot)
  rw [hfill] at hfill'
  cases hfill'
  refine ⟨hslot, ?_⟩
  split at hstore
  · rename_i hlt
    rw [Slots.padTo_of_le (Nat.le_of_lt hlt)] at hd
    rw [Slots.put_of_lt hlt]
    exact room_of_replace? hd hlt h.byteCapacity hstore
  · have hl : (xs.padTo i).length = i := by rw [Slots.length_padTo]; omega
    rw [Slots.put_of_le (by omega), Slots.bytes_append, Slots.bytes_cons, Slots.bytes_nil,
      List.append_nil, List.length_append]
    exact room_of_append? hd (by rwa [hl])

/-- Such a write puts the slot into the list, provided that the memory held is no larger than the
largest offset. -/
theorem of_put? (h : c.Encodes xs) {x : Option (List UInt8)} (hput : c.put? i x = some d)
    (hmax : c.byteCapacity ≤ t.width.max) : d.Encodes (xs.put i x) := by
  obtain ⟨hi, hroom⟩ := h.room_of_put? hput
  obtain ⟨d', hd', hencodes, -⟩ := h.exists_put? x hi hroom (Nat.le_trans hroom hmax)
  rw [hput] at hd'
  cases hd'
  exact hencodes

/-- Having exactly `n` slots. -/
theorem exists_setCount (h : c.Encodes xs) (hn : n ≤ c.slotCapacity) :
    ∃ d, c.follow? (c.extent.planCount? n) = some d ∧ d.Encodes (xs.resize n) := by
  obtain ⟨v', o', hfill, hm, hd, -⟩ := h.exists_fill hn
  have hplan : c.extent.planCount? n = some ⟨c.extent.next, max c.extent.next n, false,
      ⟨n, if n = 0 then none else some (n - 1)⟩⟩ :=
    Extent.planCount?_eq_some_iff.2 ⟨_, h.nextFree?, rfl⟩
  have hbytes : bytes (xs.resize n) <+: bytes xs :=
    Slots.bytes_padTo xs n ▸ Slots.bytes_take_isPrefix (xs.padTo n) n
  refine ⟨_, Option.bind_eq_some_iff.2 ⟨_, hplan, blank?_eq_some_iff.2 ⟨v', o', hfill, rfl⟩⟩,
    covers_resize xs n, fun j x hx => ?_, fun j hj => ?_, hbytes.trans h.values,
    Nat.le_trans hbytes.length_le h.fits⟩
  · refine hm j x ?_
    rw [Slots.resize, List.getElem?_take] at hx
    split at hx
    · exact hx
    · cases hx
  · rw [Slots.length_resize] at hj
    rw [hd j (by rw [Slots.length_padTo]; omega), Slots.resize, Slots.offset_congr]
    rw [List.take_take, Nat.min_eq_left hj]

/-- Having every slot below `n` written. -/
theorem exists_padTo (h : c.Encodes xs) (hn : n ≤ c.slotCapacity) :
    ∃ d, c.follow? (c.extent.planPad? n) = some d ∧ d.Encodes (xs.padTo n) := by
  obtain ⟨v', o', hfill, hm, hd, -⟩ := h.exists_fill hn
  have hplan : c.extent.planPad? n = some ⟨c.extent.next, max c.extent.next n, false,
      ⟨max c.extent.count n, if c.extent.next < n then some (n - 1) else c.extent.last⟩⟩ :=
    Extent.planPad?_eq_some_iff.2 ⟨_, h.nextFree?, rfl⟩
  refine ⟨_, Option.bind_eq_some_iff.2 ⟨_, hplan, blank?_eq_some_iff.2 ⟨v', o', hfill, rfl⟩⟩,
    covers_padTo h.extent n, hm, hd, ?_, ?_⟩
  · rw [Slots.bytes_padTo]
    exact h.values
  · rw [Slots.bytes_padTo]
    exact h.fits

/-- Taking a slot for the highest one written. -/
theorem exists_setLast (h : c.Encodes xs) {last : Option Nat} (hl : ∀ l ∈ last, l < xs.length) :
    ∃ d, c.blank? ((last.map (· + 1)).getD 0) c.count { c.extent with last } = some d ∧
      d.Encodes (xs.blankFrom ((last.map (· + 1)).getD 0)) := by
  have hslots := h.le_slotCapacity
  have hnext : (last.map (· + 1)).getD 0 ≤ xs.length :=
    (Extent.next_le_iff (e := { c.extent with last })).2 hl
  obtain ⟨v', o', hfill, hm, hd⟩ := exists_blank_blankFrom h.flags h.offsets hnext
    (Nat.le_trans hslots (Nat.min_le_left ..)) (Nat.le_trans hslots (Nat.min_le_right ..))
  have hbytes : bytes (xs.blankFrom ((last.map (· + 1)).getD 0)) <+: bytes xs := by
    rw [Slots.bytes_blankFrom]
    exact Slots.bytes_take_isPrefix ..
  exact ⟨_, blank?_eq_some_iff.2 ⟨v', o', by rw [h.count]; exact hfill, rfl⟩,
    covers_blankFrom h.extent hl, hm, hd, hbytes.trans h.values,
    Nat.le_trans hbytes.length_le h.fits⟩

end Encodes

end Column

end PackedColumn
