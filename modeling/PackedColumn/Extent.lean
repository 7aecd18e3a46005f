import PackedColumn.Size

/-!
# Extents

The extent of a column says how many slots are defined and which of them was
written last in slot order. Every change of a column is planned here first:
the plan names the slots that must become null before the change, says
whether the written slot is defined already, and gives the extent afterwards.
A plan is missing when a slot number would leave the range of sizes.

* `planSet?_eq_some_iff`, `planCount?_eq_some_iff`, `planPad?_eq_some_iff`: what each plan is.
-/

namespace PackedColumn

/-- Which slots of a column are defined. -/
@[ext] structure Extent where
  /-- The number of defined slots. -/
  count : Nat := 0
  /-- The highest slot written. -/
  last : Option Nat := none
  deriving Repr, DecidableEq

namespace Extent

/-- What a change does to the slots besides its own write. -/
structure Plan where
  /-- The first slot to become null. -/
  fillStart : Nat
  /-- The slot after the last one to become null. -/
  fillStop : Nat
  /-- Whether the written slot is defined, so that the slots after it move. -/
  defined : Bool
  /-- The extent once the change is made. -/
  next : Extent
  deriving Repr, DecidableEq

/-- The extent of a column without slots. -/
def empty : Extent := {}

instance : Inhabited Extent := ⟨empty⟩

/-- The slot after the highest one written. -/
def nextFree? (e : Extent) : Option Nat :=
  match e.last with
  | none => some 0
  | some i => Size.add? i 1

/-- The plan for writing slot `i`. -/
def planSet? (e : Extent) (i : Nat) : Option Plan := do
  let first ← e.nextFree?
  let after ← Size.add? i 1
  return {
    fillStart := first
    fillStop := max first i
    defined := i < e.count
    next := { count := max e.count after, last := some (max (e.last.getD 0) i) } }

/-- The plan for having exactly `n` slots. -/
def planCount? (e : Extent) (n : Nat) : Option Plan := do
  let first ← e.nextFree?
  return {
    fillStart := first
    fillStop := max first n
    defined := false
    next := { count := n, last := if n = 0 then none else some (n - 1) } }

/-- The plan for having every slot below `n` written. -/
def planPad? (e : Extent) (n : Nat) : Option Plan := do
  let first ← e.nextFree?
  return {
    fillStart := first
    fillStop := max first n
    defined := false
    next := { count := max e.count n, last := if first < n then some (n - 1) else e.last } }

/-! ## Plans in full -/

theorem nextFree?_eq_some_iff {e : Extent} {first : Nat} :
    e.nextFree? = some first ↔
      (e.last = none ∧ first = 0) ∨ ∃ i, e.last = some i ∧ first = i + 1 ∧ first ≤ Size.max := by
  unfold nextFree?
  cases e.last with
  | none => simp [eq_comm]
  | some i =>
    simp only [Size.add?_eq_some_iff]
    grind

theorem planSet?_eq_some_iff {e : Extent} {i : Nat} {p : Plan} :
    e.planSet? i = some p ↔ ∃ first, e.nextFree? = some first ∧ i + 1 ≤ Size.max ∧
      p = ⟨first, max first i, i < e.count,
        ⟨max e.count (i + 1), some (max (e.last.getD 0) i)⟩⟩ := by
  unfold planSet?
  cases e.nextFree? with
  | none => simp
  | some first =>
    simp only [Option.bind_eq_bind, Option.bind_some, Option.bind_eq_some_iff,
      Size.add?_eq_some_iff]
    grind

theorem planCount?_eq_some_iff {e : Extent} {n : Nat} {p : Plan} :
    e.planCount? n = some p ↔ ∃ first, e.nextFree? = some first ∧
      p = ⟨first, max first n, false, ⟨n, if n = 0 then none else some (n - 1)⟩⟩ := by
  unfold planCount?
  cases e.nextFree? <;> simp [eq_comm]

theorem planPad?_eq_some_iff {e : Extent} {n : Nat} {p : Plan} :
    e.planPad? n = some p ↔ ∃ first, e.nextFree? = some first ∧
      p = ⟨first, max first n, false,
        ⟨max e.count n, if first < n then some (n - 1) else e.last⟩⟩ := by
  unfold planPad?
  cases e.nextFree? <;> simp [eq_comm]

end Extent

end PackedColumn
