import PackedColumn.Memory.Allocator

/-!
# Settings

How much memory the first allocation of a column asks for, and how much an
allocator may hand out in total.
-/

namespace PackedColumn

/-- The sizes that govern allocation. -/
structure Settings where
  /-- The number of slots that the first allocation makes room for. -/
  initialSlots : Nat := 3970
  /-- The number of value bytes expected for one slot. -/
  averageWidth : Nat := 8
  /-- The bound on outstanding bytes; none means no bound. -/
  allocationLimit : Option Nat := none
  deriving Repr, DecidableEq

namespace Settings

/-- The settings where nothing is said. -/
def default : Settings := {}

instance : Inhabited Settings := ⟨default⟩

/-- The number of value bytes expected for `slots` slots. -/
def initialBytes (s : Settings) (slots : Nat) : Nat := Size.mulSat slots s.averageWidth

/-- An allocator that keeps the bound. -/
def allocator (s : Settings) : Allocator :=
  match s.allocationLimit with
  | none => .unlimited
  | some limit => { limit }

end Settings

end PackedColumn
