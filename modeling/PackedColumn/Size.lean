/-!
# Sizes

Counts, byte positions and capacities are natural numbers that fit 64 bits.
Sums and products that could leave that range are taken here, with the rule
that applies when they do:

* `add?` and `mul?` have no answer past `Size.max`;
* `mulSat` stops at `Size.max`;
* `subWrap` is the difference modulo `2 ^ 64`;
* `total` adds up a list of sizes.

`roundUp` gives the granule in which memory is handed out, with
`roundUp_dvd`, `le_roundUp` and `roundUp_lt` stating that it is the least
multiple of 64 that is large enough.
-/

namespace PackedColumn.Size

/-- The largest size. -/
def max : Nat := 0xffffffffffffffff

/-- The sum of two sizes, if it is a size. -/
def add? (m n : Nat) : Option Nat :=
  if m + n ≤ max then some (m + n) else none

/-- The product of two sizes, if it is a size. -/
def mul? (m n : Nat) : Option Nat :=
  if m * n ≤ max then some (m * n) else none

/-- The product of two sizes, or the largest size if the product is larger. -/
def mulSat (m n : Nat) : Nat := min (m * n) max

/-- The difference of two sizes modulo `2 ^ 64`. -/
def subWrap (m n : Nat) : Nat := (m + (max + 1 - n)) % (max + 1)

/-- The sum of a list of sizes. -/
def total : List Nat → Nat
  | [] => 0
  | n :: ns => n + total ns

/-- The least multiple of 64 that is at least `n`. -/
def roundUp (n : Nat) : Nat := (n + 63) / 64 * 64

theorem add?_eq_some_iff {m n k : Nat} : add? m n = some k ↔ m + n = k ∧ k ≤ max := by
  unfold add?; split <;> simp <;> omega

theorem add?_eq_none_iff {m n : Nat} : add? m n = none ↔ max < m + n := by
  unfold add?; split <;> simp <;> omega

theorem subWrap_of_le {m n : Nat} (hn : n ≤ m) (hm : m ≤ max) : subWrap m n = m - n := by
  unfold subWrap max at *; omega

@[simp] theorem total_nil : total [] = 0 := rfl

@[simp] theorem total_cons (n : Nat) (ns : List Nat) : total (n :: ns) = n + total ns := rfl

theorem total_eq_zero {ns : List Nat} (h : ∀ n ∈ ns, n = 0) : total ns = 0 := by
  induction ns with
  | nil => rfl
  | cons n ns ih =>
    rw [total_cons, h n List.mem_cons_self, ih fun m hm => h m (List.mem_cons_of_mem _ hm)]

theorem roundUp_dvd (n : Nat) : 64 ∣ roundUp n := ⟨(n + 63) / 64, by unfold roundUp; omega⟩

theorem le_roundUp (n : Nat) : n ≤ roundUp n := by unfold roundUp; omega

theorem roundUp_lt (n : Nat) : roundUp n < n + 64 := by unfold roundUp; omega

@[simp] theorem roundUp_zero : roundUp 0 = 0 := rfl

end PackedColumn.Size
