import PackedColumn.Column.Check
import PackedColumn.Edit
import PackedColumn.Proofs.Flags
import PackedColumn.Proofs.Offsets

/-!
# What the layout check decides

The check reads the entries of the offset table and the flags of the defined
slots, and the bytes behind these may be any. `Layout` is what it reads, the
entries being signed integers, and `Layout.Verdict` relates it to an answer of
the check: sound, or the first fault with the smallest slot that shows it.

* `IsFirst`: the first number of a stretch with a property, as searches find it
  (`exists_decrease?`, `exists_fullNull?`).
* `HasLayout.exists_verdict`: the check always answers, and takes an entry for the byte position
  that it gives, so that a negative one counts as 0.
* `Layout.Verdict.signed`: for tables that do not start below 0 this makes no difference.
* `checkLayout_verdict`: what the check decides; `checkLayout_overlooks_negative_start`: a table that
  starts below 0 passes.
-/

namespace PackedColumn

/-! ## Searching a stretch of numbers -/

/-- The first of the `n` numbers from `i` on that has the property, if one has it. -/
def IsFirst (p : Nat → Prop) (i n : Nat) : Option Nat → Prop
  | none => ∀ j, i ≤ j → j < i + n → ¬ p j
  | some k => i ≤ k ∧ k < i + n ∧ p k ∧ ∀ j, i ≤ j → j < k → ¬ p j

namespace IsFirst

variable {p : Nat → Prop} {i n : Nat} {r : Option Nat}

theorem zero (p : Nat → Prop) (i : Nat) : IsFirst p i 0 none := fun j hj hj' => by omega

theorem head (h : p i) : IsFirst p i (n + 1) (some i) :=
  ⟨Nat.le_refl i, by omega, h, fun j hj hj' => by omega⟩

theorem tail (h : ¬ p i) (hr : IsFirst p (i + 1) n r) : IsFirst p i (n + 1) r := by
  have hrest : ∀ {j}, i ≤ j → (i + 1 ≤ j → ¬ p j) → ¬ p j := fun {j} hj hnot => by
    rcases Nat.eq_or_lt_of_le hj with rfl | hlt
    · exact h
    · exact hnot hlt
  cases r with
  | none => exact fun j hj hj' => hrest hj fun hlt => hr j hlt (by omega)
  | some k =>
    obtain ⟨hk, hkn, hp, hbefore⟩ := hr
    exact ⟨by omega, by omega, hp, fun j hj hj' => hrest hj fun hlt => hbefore j hlt hj'⟩

end IsFirst

/-! ## Layouts -/

/-- What the layout check reads of a column. -/
structure Layout where
  /-- Where each slot starts, as a signed integer; it is where the one before ends. -/
  entry : Nat → Int
  /-- Which slots hold a value. -/
  valid : Nat → Bool
  /-- The number of defined slots. -/
  count : Nat
  /-- The number of bytes there is memory for. -/
  capacity : Nat

namespace Layout

/-- The byte position that an entry gives: a negative one counts as 0. -/
def position (v : Int) : Int := max v 0

/-- Slot `i` ends before it starts. -/
def Decreases (l : Layout) (i : Nat) : Prop := l.entry (i + 1) < l.entry i

/-- Slot `i` is null, and does not end where it starts. -/
def FullNull (l : Layout) (read : Int → Int) (i : Nat) : Prop :=
  l.valid i = false ∧ read (l.entry i) ≠ read (l.entry (i + 1))

/-- The buffers fit together, an entry being taken for the position that `read` makes of it. -/
structure Sound (l : Layout) (read : Int → Int) : Prop where
  /-- The first value starts at byte 0. -/
  start : read (l.entry 0) = 0
  /-- No slot ends before it starts. -/
  ascending : ∀ i < l.count, l.entry i ≤ l.entry (i + 1)
  /-- The values end within their memory. -/
  within : read (l.entry l.count) ≤ l.capacity
  /-- A null slot ends where it starts. -/
  null_empty : ∀ i < l.count, l.valid i = false → read (l.entry i) = read (l.entry (i + 1))

/-- The fault that shows first, every check before its own having passed. -/
def FirstFault (l : Layout) (read : Int → Int) : LayoutFault → Prop
  | .lateStart => read (l.entry 0) ≠ 0
  | .decrease slot => read (l.entry 0) = 0 ∧ IsFirst l.Decreases 0 l.count (some slot)
  | .overrun stop capacity =>
    read (l.entry 0) = 0 ∧ IsFirst l.Decreases 0 l.count none ∧
      stop = read (l.entry l.count) ∧ capacity = l.capacity ∧ capacity < stop
  | .fullNull slot =>
    read (l.entry 0) = 0 ∧ IsFirst l.Decreases 0 l.count none ∧
      read (l.entry l.count) ≤ l.capacity ∧ IsFirst (l.FullNull read) 0 l.count (some slot)
  | .described _ => False

/-- The answer that a check of the layout is to give. -/
def Verdict (l : Layout) (read : Int → Int) : Except ColumnError Unit → Prop
  | .ok () => l.Sound read
  | .error (.invalidLayout fault) => l.FirstFault read fault
  | .error _ => False

variable {l : Layout} {read : Int → Int} {r : Except ColumnError Unit}

theorem ascending_of_none (h : IsFirst l.Decreases 0 l.count none) {i : Nat} (hi : i < l.count) :
    l.entry i ≤ l.entry (i + 1) := Int.not_lt.1 (h i (Nat.zero_le i) (by omega))

/-- Entries that do not decrease are no smaller than the first one. -/
theorem start_le (h : ∀ i < l.count, l.entry i ≤ l.entry (i + 1)) {i : Nat} (hi : i ≤ l.count) :
    l.entry 0 ≤ l.entry i := by
  induction i with
  | zero => exact Int.le_refl _
  | succ i ih => exact Int.le_trans (ih (by omega)) (h i hi)

/-- A sound layout has no fault. -/
theorem Sound.not_firstFault (h : l.Sound read) (fault : LayoutFault) :
    ¬ l.FirstFault read fault := by
  cases fault with
  | lateStart => exact fun hstart => hstart h.start
  | decrease slot =>
    rintro ⟨-, -, hslot, hdec, -⟩
    exact Int.not_lt.2 (h.ascending slot (by omega)) hdec
  | overrun stop capacity =>
    rintro ⟨-, -, hstop, hcapacity, hlt⟩
    have := h.within
    omega
  | fullNull slot =>
    rintro ⟨-, -, -, -, hslot, ⟨hnull, hne⟩, -⟩
    exact hne (h.null_empty slot (by omega) hnull)
  | described reason => exact id

namespace Verdict

theorem ok_iff (h : l.Verdict read r) : r = .ok () ↔ l.Sound read := by
  rcases r with e | ⟨⟩
  · refine ⟨nofun, fun hsound => ?_⟩
    cases e with
    | invalidLayout fault => exact absurd h (hsound.not_firstFault fault)
    | _ => exact h.elim
  · exact ⟨fun _ => h, fun _ => rfl⟩

/-- Unless the table starts below 0, every entry that is compared is the position it gives. -/
theorem signed (h : l.Verdict position r) (hstart : 0 ≤ l.entry 0) : l.Verdict id r := by
  have hzero : position (l.entry 0) = l.entry 0 := Int.max_eq_left hstart
  have hsame : (∀ i < l.count, l.entry i ≤ l.entry (i + 1)) →
      ∀ i ≤ l.count, position (l.entry i) = l.entry i := fun hasc i hi =>
    Int.max_eq_left (Int.le_trans hstart (start_le hasc hi))
  rcases r with e | ⟨⟩
  · cases e with
    | invalidLayout fault =>
      cases fault with
      | lateStart =>
        show l.entry 0 ≠ 0
        rw [← hzero]
        exact h
      | decrease slot => exact ⟨hzero ▸ h.1, h.2⟩
      | overrun stop capacity =>
        obtain ⟨h0, hasc, hstop, hcapacity, hlt⟩ := h
        rw [hsame (fun _ => ascending_of_none hasc) _ (Nat.le_refl _)] at hstop
        exact ⟨hzero ▸ h0, hasc, hstop, hcapacity, hlt⟩
      | fullNull slot =>
        -- The checks before this one have passed, so no entry is below the first one.
        obtain ⟨h0, hasc, hwithin, hslot, hslot', ⟨hnull, hne⟩, hbefore⟩ := h
        have hentry := hsame fun _ => ascending_of_none hasc
        rw [hentry _ (Nat.le_refl _)] at hwithin
        rw [hentry slot (by omega), hentry (slot + 1) (by omega)] at hne
        refine ⟨hzero ▸ h0, hasc, hwithin, hslot, hslot', ⟨hnull, hne⟩, fun j hj hjs hfull => ?_⟩
        refine hbefore j hj hjs ⟨hfull.1, ?_⟩
        rw [hentry j (by omega), hentry (j + 1) (by omega)]
        exact hfull.2
      | described reason => exact h
    | _ => exact h
  · have hentry := hsame h.ascending
    refine ⟨hzero ▸ h.start, h.ascending, ?_, fun i hi hnull => ?_⟩
    · exact hentry l.count (Nat.le_refl _) ▸ h.within
    · have hempty := h.null_empty i hi hnull
      rwa [hentry i (by omega), hentry (i + 1) (by omega)] at hempty

end Verdict

end Layout

/-! ## The searches of the check -/

/-- Looking for an entry that is smaller than the one before it. -/
theorem OffsetTable.exists_decrease? {w : OffsetWidth} {t : OffsetTable w} {e : Nat → Int}
    {i n : Nat} (h : ∀ j, i ≤ j → j ≤ i + n → t.get? j = some (e j)) :
    ∃ r, t.decrease? i n = some r ∧ IsFirst (fun j => e (j + 1) < e j) i n r := by
  induction n generalizing i with
  | zero => exact ⟨none, rfl, .zero _ i⟩
  | succ n ih =>
    have hi := h i (Nat.le_refl i) (by omega)
    have hnext := h (i + 1) (Nat.le_succ i) (by omega)
    by_cases hdec : e (i + 1) < e i
    · refine ⟨some i, ?_, .head hdec⟩
      simp only [decrease?, hi, hnext, Option.bind_eq_bind, Option.bind_some, if_pos hdec]
    · obtain ⟨r, hr, hfirst⟩ := ih (i := i + 1) fun j hj hj' => h j (by omega) (by omega)
      refine ⟨r, ?_, .tail hdec hfirst⟩
      simp only [decrease?, hi, hnext, Option.bind_eq_bind, Option.bind_some, if_neg hdec, hr]

namespace Column

open Layout (position)

variable {t : ColumnType} {c : Column t} {l : Layout}

/-- The defined slots of a column have the layout. -/
structure HasLayout (c : Column t) (l : Layout) : Prop where
  entry : ∀ i ≤ l.count, c.offsets.get? i = some (l.entry i)
  valid : ∀ i < l.count, c.validity.get? i = some (l.valid i)
  count : c.count = l.count
  capacity : c.byteCapacity = l.capacity

/-- The layout that is read off a column. -/
def layout (c : Column t) : Layout where
  entry i := (c.offsets.get? i).getD 0
  valid i := (c.validity.get? i).getD false
  count := c.count
  capacity := c.byteCapacity

/-- A column whose buffers hold its slots has its layout, whatever their bytes are. -/
theorem hasLayout_layout (h : c.count ≤ c.slotCapacity) : c.HasLayout c.layout := by
  refine ⟨fun i hi => ?_, fun i hi => ?_, rfl, rfl⟩
  · have hslot : i ≤ c.offsets.slotCapacity :=
      Nat.le_trans hi (Nat.le_trans h (Nat.min_le_right ..))
    obtain ⟨v, hv⟩ := OffsetTable.exists_get? hslot
    simp only [layout, hv, Option.getD_some]
  · have hbit : i < c.validity.bitCapacity :=
      Nat.lt_of_lt_of_le hi (Nat.le_trans h (Nat.min_le_left ..))
    obtain ⟨b, hb⟩ := Option.isSome_iff_exists.1 (Validity.get?_isSome_iff.2 hbit)
    simp only [layout, hb, Option.getD_some]

namespace HasLayout

theorem start? (h : c.HasLayout l) {i : Nat} (hi : i ≤ l.count) :
    c.offsets.start? i = some (l.entry i).toNat := by
  rw [OffsetTable.start?, h.entry i hi, Option.map_some]

theorem length? (h : c.HasLayout l) {i : Nat} (hi : i < l.count)
    (hasc : l.entry i ≤ l.entry (i + 1)) :
    c.offsets.length? i = some ((l.entry (i + 1)).toNat - (l.entry i).toNat) := by
  have hstop : c.offsets.stop? i = some (l.entry (i + 1)).toNat := h.start? hi
  simp only [OffsetTable.length?, hstop, h.start? (Nat.le_of_lt hi), Option.bind_eq_bind,
    Option.bind_some]
  rw [if_pos (Int.toNat_le_toNat hasc)]

/-- Looking for a null slot with bytes, once no slot ends before it starts. -/
theorem exists_fullNull? (h : c.HasLayout l) (hasc : ∀ i < l.count, l.entry i ≤ l.entry (i + 1))
    {i n : Nat} (hn : i + n ≤ l.count) :
    ∃ r, c.fullNull? i n = some r ∧ IsFirst (l.FullNull position) i n r := by
  induction n generalizing i with
  | zero => exact ⟨none, rfl, .zero _ i⟩
  | succ n ih =>
    have hi : i < l.count := by omega
    have hle := hasc i hi
    obtain ⟨r, hr, hfirst⟩ := ih (i := i + 1) (by omega)
    by_cases hvalid : l.valid i = true
    · have hnot : ¬ l.FullNull position i := fun hfull => by
        have hnull := hfull.1
        rw [hvalid] at hnull
        cases hnull
      refine ⟨r, ?_, .tail hnot hfirst⟩
      simp only [fullNull?, h.valid i hi, hvalid, Option.bind_eq_bind, Option.bind_some, if_true, hr]
    have hnull : l.valid i = false := by simpa using hvalid
    by_cases hempty : (l.entry (i + 1)).toNat - (l.entry i).toNat = 0
    · have hnot : ¬ l.FullNull position i := fun hfull => hfull.2 (by unfold position; omega)
      refine ⟨r, ?_, .tail hnot hfirst⟩
      simp only [fullNull?, h.valid i hi, hnull, h.length? hi hle, Option.bind_eq_bind,
        Option.bind_some, hempty, if_true, hr]
      rfl
    · have hfull : l.FullNull position i := ⟨hnull, by unfold position; omega⟩
      refine ⟨some i, ?_, .head hfull⟩
      simp only [fullNull?, h.valid i hi, hnull, h.length? hi hle, Option.bind_eq_bind,
        Option.bind_some, if_neg hempty]
      rfl

/-- The check answers as the byte positions require that the entries give. -/
theorem exists_verdict (h : c.HasLayout l) :
    ∃ r, c.checkLayout = some r ∧ l.Verdict position r := by
  have hstart := h.start? (Nat.zero_le l.count)
  have htotal : c.totalBytes? = some (l.entry l.count).toNat := by
    rw [totalBytes?, h.count, h.start? (Nat.le_refl _)]
  have hcapacity := h.capacity
  have hpos : ∀ v : Int, position v = v.toNat := fun v => by unfold position; omega
  obtain ⟨r, hdecrease, hfirst⟩ := OffsetTable.exists_decrease? (t := c.offsets) (e := l.entry)
    (i := 0) (n := l.count) fun j _ hj => h.entry j (by omega)
  simp only [checkLayout, layoutFault?, hstart, h.count, hdecrease, htotal, Option.bind_eq_bind,
    Option.bind_some]
  by_cases hlate : (l.entry 0).toNat ≠ 0
  · refine ⟨.error (.invalidLayout .lateStart), by rw [if_pos hlate]; rfl, ?_⟩
    show position (l.entry 0) ≠ 0
    rw [hpos]
    omega
  have hzero : position (l.entry 0) = 0 := by rw [hpos]; omega
  rw [if_neg hlate]
  cases r with
  | some slot => exact ⟨.error (.invalidLayout (.decrease slot)), rfl, hzero, hfirst⟩
  | none =>
    by_cases hover : c.byteCapacity < (l.entry l.count).toNat
    · refine ⟨.error (.invalidLayout (.overrun (l.entry l.count).toNat c.byteCapacity)), ?_, hzero,
        hfirst, (hpos _).symm, hcapacity, hover⟩
      simp only [if_pos hover]
      rfl
    have hwithin : position (l.entry l.count) ≤ l.capacity := by rw [hpos]; omega
    have hasc : ∀ i < l.count, l.entry i ≤ l.entry (i + 1) := fun _ => Layout.ascending_of_none hfirst
    obtain ⟨r, hfull, hfirst'⟩ := h.exists_fullNull? hasc (i := 0) (n := l.count) (by omega)
    simp only [if_neg hover, hfull]
    cases r with
    | some slot => exact ⟨.error (.invalidLayout (.fullNull slot)), rfl, hzero, hfirst, hwithin, hfirst'⟩
    | none =>
      refine ⟨.ok (), rfl, hzero, hasc, hwithin, fun i hi hnull => ?_⟩
      exact Classical.not_not.1 fun hne => hfirst' i (Nat.zero_le i) (by omega) ⟨hnull, hne⟩

end HasLayout

/-! ## The check -/

/-- Whatever bytes stand in the table and the flags of a column whose buffers hold its slots, the
check answers, and its answer is the verdict on the layout by the byte positions that the entries
give. Unless the first entry is negative, that is the verdict on the entries as signed integers. -/
theorem checkLayout_verdict (c : Column t) (h : c.count ≤ c.slotCapacity) :
    c.HasLayout c.layout ∧ ∃ r, c.checkLayout = some r ∧
      c.layout.Verdict position r ∧ (r = .ok () ↔ c.layout.Sound position) ∧
      (0 ≤ c.layout.entry 0 → c.layout.Verdict id r ∧ (r = .ok () ↔ c.layout.Sound id)) := by
  have hlayout := hasLayout_layout h
  obtain ⟨r, hr, hverdict⟩ := hlayout.exists_verdict
  refine ⟨hlayout, r, hr, hverdict, hverdict.ok_iff, fun hstart => ?_⟩
  exact ⟨hverdict.signed hstart, (hverdict.signed hstart).ok_iff⟩

/-- The table of two slots starts at 1, and ends before that. -/
theorem checkLayout_verdict_of_damaged : ∃ c : Column ⟨.bytes, .narrow⟩,
    c.count ≤ c.slotCapacity ∧ c.layout.entry 0 = 1 ∧ c.checkLayout =
      some (.error (.invalidLayout .lateStart)) ∧ c.layout.FirstFault id .lateStart := by
  have hrun : ((Edit.runAll ⟨{ limit := 256 }, new "a" true { initialSlots := 1 }⟩
      [.push (some ⟨[97, 98], 1⟩), .push none]).bind fun s =>
        (s.column.damageOffsets? 0 1).bind (·.damageOffsets? 8 0)).any
      (fun c : Column ⟨.bytes, .narrow⟩ => c.count ≤ c.slotCapacity ∧ c.layout.entry 0 = 1 ∧
        c.layoutFault? = some (some .lateStart)) = true := by decide +kernel
  obtain ⟨c, -, hc⟩ := (Option.any_eq_true _ _).1 hrun
  obtain ⟨hcount, hentry, hfault⟩ := of_decide_eq_true hc
  have hcheck : c.checkLayout = some (.error (.invalidLayout .lateStart)) := by
    rw [checkLayout, hfault]; rfl
  obtain ⟨-, r, hr, -, -, hsigned⟩ := checkLayout_verdict c hcount
  cases hcheck.symm.trans hr
  exact ⟨c, hcount, hentry, hcheck, (hsigned (by omega)).1⟩

/-- A table whose first entry is the least offset there is passes the check, although its first
value does not start at 0. -/
theorem checkLayout_overlooks_negative_start : ∃ c : Column ⟨.bytes, .narrow⟩,
    c.HasLayout c.layout ∧ c.layout.entry 0 = -2147483648 ∧ c.checkLayout = some (.ok ()) ∧
      ¬ c.layout.Sound id := by
  have hrun : ((Edit.runAll ⟨{ limit := 256 }, new "a" true { initialSlots := 1 }⟩
      [.push (some ⟨[97, 98], 1⟩)]).bind (·.column.damageOffsets? 3 128)).any
      (fun c : Column ⟨.bytes, .narrow⟩ => c.count ≤ c.slotCapacity ∧
        c.layout.entry 0 = -2147483648 ∧ c.layoutFault? = some none) = true := by decide +kernel
  obtain ⟨c, -, hc⟩ := (Option.any_eq_true _ _).1 hrun
  obtain ⟨hcount, hentry, hfault⟩ := of_decide_eq_true hc
  have hcheck : c.checkLayout = some (.ok ()) := by rw [checkLayout, hfault]; rfl
  refine ⟨c, hasLayout_layout hcount, hentry, hcheck, fun hsound => ?_⟩
  have hstart : c.layout.entry 0 = 0 := hsound.start
  omega

end Column

end PackedColumn
