import PackedColumn.Outcome
import PackedColumn.Memory.Block

/-!
# Allocators

An allocator hands out blocks and accounts for the bytes outstanding, which
it keeps at most its limit. A request passes three checks in this order: the
size must leave room for rounding up to 64, the account must have room for
the rounded size, and the machine must give the memory. When the machine
refuses, the charge is taken back.

What the machine answers is a parameter of each request (`granted`). It is
asked only for memory that there can be (`Available`), so where nothing is
said of its answer, it has whatever can be addressed.

* `charge_of_le`, `charge_of_lt`: a charge goes through exactly when the total stays in the limit.
* `discharge_charge`: taking a charge back restores the account.
-/

namespace PackedColumn

/-- Why memory is refused. -/
inductive MemoryRefusal where
  /-- The request cannot be represented. -/
  | tooLarge
  /-- The account has no room for `requested` more bytes. -/
  | limitExceeded (requested allocated limit : Nat)
  /-- The machine has no such memory. -/
  | exhausted
  deriving Repr, DecidableEq

/-- The text of the refusal. -/
def MemoryRefusal.message : MemoryRefusal → String
  | tooLarge => "cannot allocate memory larger than usize::max_value() - 63 bytes"
  | limitExceeded requested allocated limit =>
    "allocation of " ++ toString requested ++ " bytes exceeds limit " ++ toString limit ++
      " (" ++ toString allocated ++ " bytes in use)"
  | exhausted => "allocation failed"

/-- An account of outstanding bytes with an upper bound. -/
structure Allocator where
  limit : Nat
  allocated : Nat := 0
  /-- Whether more was ever taken off the account than it held. -/
  overdrawn : Bool := false
  deriving Repr, DecidableEq

namespace Allocator

/-- An operation that may obtain memory. -/
abbrev Request := Call MemoryRefusal Allocator

/-- An allocator with no bound but that of sizes themselves. -/
def unlimited : Allocator := { limit := Size.max }

/-- The largest request: rounding up a larger one would leave the range of sizes. -/
def maxRequest : Nat := Size.max - 63

/-- Adds `n` bytes to the account. -/
def charge (n : Nat) : Request Unit := fun a =>
  if a.allocated + n ≤ a.limit then .done () { a with allocated := a.allocated + n }
  else .refused (.limitExceeded n a.allocated a.limit) a

/-- Takes `n` bytes off the account, which wraps around and stays marked if it holds fewer. -/
def discharge (n : Nat) (a : Allocator) : Allocator :=
  { a with
    allocated := Size.subWrap a.allocated n
    overdrawn := a.overdrawn || decide (a.allocated < n) }

/-- The largest size that memory is laid out in. -/
def maxBlock : Nat := 0x7fffffffffffffc0

/-- Whether a block of `n` bytes is to be had. For no bytes the machine is not asked. -/
def Available (space n : Nat) (granted : Bool) : Prop :=
  n = 0 ∨ n ≤ maxBlock ∧ n ≤ space ∧ granted = true

instance (space n : Nat) (granted : Bool) : Decidable (Available space n granted) := by
  unfold Available; infer_instance

theorem Available.le {space n : Nat} {granted : Bool} (h : Available space n granted) :
    n ≤ space := by
  obtain rfl | ⟨-, hspace, -⟩ := h
  · exact Nat.zero_le _
  · exact hspace

/-- Why a block of `n` bytes is not to be had. -/
def machineError (n : Nat) : MemoryRefusal :=
  if maxBlock < n then .tooLarge else .exhausted

variable {space : Nat}

/-- A zero block of at least `n` bytes. -/
def allocate (n : Nat) (granted : Bool := true) : Request (Block space) :=
  if maxRequest < n then .refuse .tooLarge
  else do
    charge (Size.roundUp n)
    if h : Available space (Size.roundUp n) granted then
      return Block.zeroed _ (Size.roundUp_dvd n) h.le
    else
      .modify (discharge (Size.roundUp n))
      .refuse (machineError (Size.roundUp n))

/-- The block grown to at least `n` bytes; a block that is long enough is given back as it is. -/
def reallocate (b : Block space) (n : Nat) (granted : Bool := true) : Request (Block space) :=
  if maxRequest < n then .refuse .tooLarge
  else if Size.roundUp n ≤ b.size then pure b
  else do
    charge (Size.roundUp n - b.size)
    if h : Available space (Size.roundUp n) granted then
      return b.grow _ (Size.roundUp_dvd n) h.le
    else
      .modify (discharge (Size.roundUp n - b.size))
      .refuse (machineError (Size.roundUp n))

/-- Stops accounting for a block, which is given back or handed to another allocator. -/
def release (b : Block space) (a : Allocator) : Allocator := a.discharge b.size

/-- Starts accounting for a block of another allocator. -/
def adopt (b : Block space) : Request Unit := charge b.size

theorem charge_of_le {n : Nat} {a : Allocator} (h : a.allocated + n ≤ a.limit) :
    charge n a = .done () { a with allocated := a.allocated + n } := if_pos h

theorem charge_of_lt {n : Nat} {a : Allocator} (h : a.limit < a.allocated + n) :
    charge n a = .refused (.limitExceeded n a.allocated a.limit) a := if_neg (by omega)

theorem discharge_charge {n : Nat} {a b : Allocator} (ha : a.limit ≤ Size.max)
    (h : charge n a = .done () b) : b.discharge n = a := by
  unfold charge at h
  split at h
  · rename_i hle
    cases h
    have hn : ¬ a.allocated + n < n := by omega
    simp only [discharge]
    rw [Size.subWrap_of_le (Nat.le_add_left ..) (Nat.le_trans hle ha), Nat.add_sub_cancel]
    simp [hn]
  · cases h

end Allocator

end PackedColumn
