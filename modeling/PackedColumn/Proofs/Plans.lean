import PackedColumn.Proofs.Writes

/-!
# What plans make of the extent

A plan makes slots null before a change and gives the extent after it. The
number of slots and the highest one written move apart, as the latter can be
set back and the former cut, but never so far that a slot becomes defined which
the plan neither makes null nor writes.

* `Step.extends`: what every plan has in common, of extents with the highest slot written among the
  defined ones (`Valid`).
* `Reachable.valid`, `Reachable.of_lt_count`: extents that plans lead to have it there, and every slot
  that they define has been written or made null since it was not defined.
* `Reachable.plans_cover`: every plan for such an extent, in full.
-/

namespace PackedColumn.Extent

variable {e next : Extent} {p : Plan} {touched : Nat → Prop} {written : Option Nat}
  {i j n stop : Nat} {b : Bool}

/-- A plan makes slot `j` null. -/
def Plan.Fills (p : Plan) (j : Nat) : Prop := p.fillStart ≤ j ∧ j < p.fillStop

/-- The changes that are planned. -/
inductive Step
  /-- Writes slot `i`. -/
  | write (i : Nat)
  /-- Has exactly `n` slots. -/
  | recount (n : Nat)
  /-- Has every slot below `n` written. -/
  | pad (n : Nat)

namespace Step

/-- The plan for a change. -/
def plan? (e : Extent) : Step → Option Plan
  | write i => e.planSet? i
  | recount n => e.planCount? n
  | pad n => e.planPad? n

/-- The slot or the number of slots that a change is about. -/
def number : Step → Nat
  | write i => i
  | recount n => n
  | pad n => n

/-- The slot that a change writes. -/
def written? : Step → Option Nat
  | write i => some i
  | recount _ => none
  | pad _ => none

end Step

/-- The extents that plans lead to, from that without slots, with the highest slot written set to any
defined one, or to none, in between; and for each the slots that were written or made null since
they were last not defined. -/
inductive Reachable : Extent → (Nat → Prop) → Prop
  | empty : Reachable empty fun _ => False
  | step {e : Extent} {touched : Nat → Prop} {p : Plan} (m : Step) (hm : m.number ≤ Size.max)
      (hplan : m.plan? e = some p) (h : Reachable e touched) :
      Reachable p.next fun j => j < p.next.count ∧ (touched j ∨ p.Fills j ∨ j ∈ m.written?)
  | setLast {e : Extent} {touched : Nat → Prop} {last : Option Nat}
      (hlast : ∀ l ∈ last, l < e.count) (h : Reachable e touched) :
      Reachable { e with last } touched

/-! ## One plan -/

/-- The highest slot written is a defined one, and there are no more slots than sizes can say. -/
structure Valid (e : Extent) : Prop where
  last_lt : ∀ l ∈ e.last, l < e.count
  count_le : e.count ≤ Size.max

/-- A plan for an extent, with the slot it is to write, defines no slot that it does not make null or
write. -/
structure Plan.Extends (p : Plan) (e : Extent) (written : Option Nat) : Prop where
  last_lt : ∀ l ∈ p.next.last, l < p.next.count
  fillStart_eq : p.fillStart = e.next
  last_lt_fill : ∀ j, p.Fills j → ∀ l ∈ e.last, l < j
  written_not_fill : ∀ j ∈ written, ¬p.Fills j
  covers : ∀ j, e.count ≤ j → j < p.next.count → p.Fills j ∨ j ∈ written

theorem Valid.nextFree?_eq (h : e.Valid) : e.nextFree? = some e.next :=
  Column.nextFree?_eq (Nat.le_trans (next_le_iff.2 h.last_lt) h.count_le)

theorem Valid.planSet?_eq (h : e.Valid) (hi : i < Size.max) :
    e.planSet? i = some ⟨e.next, max e.next i, i < e.count,
      ⟨max e.count (i + 1), some (max (e.last.getD 0) i)⟩⟩ :=
  planSet?_eq_some_iff.2 ⟨_, h.nextFree?_eq, hi, rfl⟩

theorem Valid.planCount?_eq (h : e.Valid) (n : Nat) :
    e.planCount? n = some ⟨e.next, max e.next n, false,
      ⟨n, if n = 0 then none else some (n - 1)⟩⟩ :=
  planCount?_eq_some_iff.2 ⟨_, h.nextFree?_eq, rfl⟩

theorem Valid.planPad?_eq (h : e.Valid) (n : Nat) :
    e.planPad? n = some ⟨e.next, max e.next n, false,
      ⟨max e.count n, if e.next < n then some (n - 1) else e.last⟩⟩ :=
  planPad?_eq_some_iff.2 ⟨_, h.nextFree?_eq, rfl⟩

theorem fills_max_iff : Plan.Fills ⟨i, max i n, b, next⟩ j ↔ i ≤ j ∧ j < n := by
  show i ≤ j ∧ j < max i n ↔ _
  omega

/-- The highest of a slot and those written before. -/
theorem max_last (last : Option Nat) (i : Nat) : max last (some i) = some (max (last.getD 0) i) := by
  cases last with
  | none => simp
  | some l => rfl

/-- Every plan starts behind the highest slot written. As that is a defined one, what the plan makes
null begins at a defined slot or just behind them, and leaves none out before the slot where it
stops. -/
theorem Plan.Extends.of_fill (h : e.Valid) (hlast : ∀ l ∈ next.last, l < next.count)
    (hwritten : ∀ j ∈ written, stop ≤ j)
    (hcount : ∀ j, e.count ≤ j → j < next.count → j < stop ∨ j ∈ written) :
    Plan.Extends ⟨e.next, max e.next stop, b, next⟩ e written := by
  have hnext : e.next ≤ e.count := next_le_iff.2 h.last_lt
  refine ⟨hlast, rfl, fun j hj => next_le_iff.1 hj.1, fun j hj hfill => ?_, fun j hj hdef => ?_⟩
  · exact Nat.not_lt_of_le (hwritten j hj) (fills_max_iff.1 hfill).2
  · rcases hcount j hj hdef with hstop | hj'
    · exact .inl (fills_max_iff.2 ⟨Nat.le_trans hnext hj, hstop⟩)
    · exact .inr hj'

theorem Step.extends {m : Step} (h : e.Valid) (hplan : m.plan? e = some p) :
    p.Extends e m.written? := by
  cases m with
  | write i =>
    obtain ⟨-, -, hi, -⟩ := planSet?_eq_some_iff.1 hplan
    obtain rfl := Option.some.inj ((h.planSet?_eq hi).symm.trans hplan)
    apply Plan.Extends.of_fill h
    · rintro l ⟨⟩
      have hlast : e.last.getD 0 < max e.count (i + 1) := by
        cases hl : e.last with
        | none => exact Nat.lt_of_lt_of_le (Nat.succ_pos i) (Nat.le_max_right ..)
        | some l => exact Nat.lt_of_lt_of_le (h.last_lt l hl) (Nat.le_max_left ..)
      show max (e.last.getD 0) i < max e.count (i + 1)
      omega
    · rintro j ⟨⟩
      exact Nat.le_refl i
    · intro j hj hdef
      have hlt : j < max e.count (i + 1) := hdef
      rcases Nat.lt_or_ge j i with hji | hij
      · exact .inl hji
      · exact .inr (congrArg some (by omega))
  | recount n =>
    obtain rfl := Option.some.inj ((h.planCount?_eq n).symm.trans hplan)
    apply Plan.Extends.of_fill h
    · intro l hl
      show l < n
      have hl : (if n = 0 then none else some (n - 1)) = some l := hl
      split at hl
      · cases hl
      · cases hl
        omega
    · exact nofun
    · exact fun j _ hdef => .inl hdef
  | pad n =>
    obtain rfl := Option.some.inj ((h.planPad?_eq n).symm.trans hplan)
    apply Plan.Extends.of_fill h
    · intro l hl
      show l < max e.count n
      have hl : (if e.next < n then some (n - 1) else e.last) = some l := hl
      split at hl
      · cases hl
        omega
      · exact Nat.lt_of_lt_of_le (h.last_lt l hl) (Nat.le_max_left ..)
    · exact nofun
    · intro j hj hdef
      have hlt : j < max e.count n := hdef
      exact .inl (by omega)

/-- So plans keep extents as they should be. -/
theorem Valid.of_plan {m : Step} (h : e.Valid) (hm : m.number ≤ Size.max)
    (hplan : m.plan? e = some p) : p.next.Valid := by
  refine ⟨(Step.extends h hplan).last_lt, ?_⟩
  have hcount := h.count_le
  cases m with
  | write i =>
    obtain ⟨-, -, hi, rfl⟩ := planSet?_eq_some_iff.1 hplan
    exact Nat.max_le.2 ⟨hcount, hi⟩
  | recount n =>
    obtain ⟨-, -, rfl⟩ := planCount?_eq_some_iff.1 hplan
    exact hm
  | pad n =>
    obtain ⟨-, -, rfl⟩ := planPad?_eq_some_iff.1 hplan
    exact Nat.max_le.2 ⟨hcount, hm⟩

/-! ## Runs of plans -/

namespace Reachable

theorem valid (h : Reachable e touched) : e.Valid := by
  induction h with
  | empty => exact ⟨nofun, Nat.zero_le _⟩
  | step m hm hplan _ ih => exact ih.of_plan hm hplan
  | setLast hlast _ ih => exact ⟨hlast, ih.count_le⟩

/-- No slot is defined that was neither written nor made null. -/
theorem of_lt_count (h : Reachable e touched) (hj : j < e.count) : touched j := by
  induction h generalizing j with
  | empty => exact absurd hj (Nat.not_lt_zero j)
  | @step e touched p m hm hplan h ih =>
    refine ⟨hj, ?_⟩
    rcases Nat.lt_or_ge j e.count with hold | hnew
    · exact .inl (ih hold)
    · exact .inr ((Step.extends h.valid hplan).covers j hnew hj)
  | setLast _ _ ih => exact ih hj

/-- Every change of an extent that plans lead to has a plan. It starts behind the highest slot
written, makes null or writes whatever becomes defined, and leaves the highest slot written a defined
one. A write moves the slots behind it exactly if its slot is defined, and raises the number of slots
and the highest one written as far as that slot; a new number of slots is had exactly; and slots that
were to be written are made null from the highest one written on, and lower neither. -/
theorem plans_cover (h : Reachable e touched) :
    (∀ l ∈ e.last, l < e.count) ∧ (∀ j < e.count, touched j) ∧
      (∀ i < Size.max, ∃ p, e.planSet? i = some p ∧ p.Extends e (some i) ∧
        (p.defined = true ↔ i < e.count) ∧
        p.next = ⟨max e.count (i + 1), max e.last (some i)⟩) ∧
      (∀ n ≤ Size.max, ∃ p, e.planCount? n = some p ∧ p.Extends e none ∧
        p.next = ⟨n, if n = 0 then none else some (n - 1)⟩) ∧
      ∀ n ≤ Size.max, ∃ p, e.planPad? n = some p ∧ p.Extends e none ∧
        e.count ≤ p.next.count ∧ (∀ l ∈ e.last, ∃ l' ∈ p.next.last, l ≤ l') ∧
        ∀ j, p.Fills j ↔ e.next ≤ j ∧ j < n := by
  have hvalid := h.valid
  refine ⟨hvalid.last_lt, fun j => h.of_lt_count, fun i hi => ?_, fun n hn => ?_, fun n hn => ?_⟩
  · have hplan := hvalid.planSet?_eq hi
    refine ⟨_, hplan, Step.extends (m := .write i) hvalid hplan, decide_eq_true_iff, ?_⟩
    rw [max_last]
  · have hplan := hvalid.planCount?_eq n
    exact ⟨_, hplan, Step.extends (m := .recount n) hvalid hplan, rfl⟩
  · have hplan := hvalid.planPad?_eq n
    refine ⟨_, hplan, Step.extends (m := .pad n) hvalid hplan, Nat.le_max_left .., fun l hl => ?_,
      fun j => fills_max_iff⟩
    have hnext : l < e.next := next_le_iff.1 (Nat.le_refl _) l hl
    by_cases hn : e.next < n
    · exact ⟨n - 1, if_pos hn, by omega⟩
    · exact ⟨l, (if_neg hn).trans hl, Nat.le_refl l⟩

/-- Six slots, of which the highest one written was set back to slot 1: a write of slot 3 makes slot 2
null and moves those behind, and slots up to number 8 are made null from slot 2 on. -/
theorem plans_cover_of_lowered :
    ∃ touched, Reachable ⟨6, some 1⟩ touched ∧ (∀ j < 6, touched j) ∧
      (∃ p, Extent.planSet? ⟨6, some 1⟩ 3 = some p ∧ p.Extends ⟨6, some 1⟩ (some 3) ∧
        (p.defined = true ↔ 3 < 6) ∧ p.next = ⟨6, some 3⟩) ∧
      ∃ p, Extent.planPad? ⟨6, some 1⟩ 8 = some p ∧ ∀ j, p.Fills j ↔ 2 ≤ j ∧ j < 8 := by
  have hlast : ∀ l ∈ some 1, l < 6 := by decide
  have hreach := Reachable.setLast hlast
    (.step (p := ⟨0, 5, false, ⟨6, some 5⟩⟩) (.write 5) (by decide) rfl .empty)
  obtain ⟨-, htouched, hset, -, hpad⟩ := hreach.plans_cover
  obtain ⟨p, hp, -, -, -, hfills⟩ := hpad 8 (by decide)
  exact ⟨_, hreach, htouched, hset 3 (by decide), p, hp, hfills⟩

end Reachable

end PackedColumn.Extent
