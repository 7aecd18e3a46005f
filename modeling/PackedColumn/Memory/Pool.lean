import PackedColumn.Memory.Allocator

/-!
# Pools

Several allocators and several blocks, each under its number. A pool does not
say which allocator accounts for which block; that is for its user to keep in
order, and an account that gives up more than it holds wraps around.

* `Pool.act` carries one action out.
-/

namespace PackedColumn

/-- Allocators and blocks. -/
structure Pool (space : Nat := Block.space) where
  allocators : Array Allocator
  blocks : Array (Block space)
  deriving DecidableEq

namespace Pool

variable {space : Nat}

/-- What an allocator does with a block. A request comes with the answer of the machine to it. -/
inductive Deed where
  /-- Makes a new block in its place. -/
  | allocate (size : Nat) (granted : Bool := true)
  /-- Grows it. -/
  | reallocate (size : Nat) (granted : Bool := true)
  /-- Takes it back. -/
  | release
  /-- Starts accounting for it. -/
  | adopt
  /-- Stops accounting for it. -/
  | disown
  /-- Forgets it, and still accounts for it. -/
  | drop
  /-- Makes all its bytes zero. -/
  | zero
  /-- Overwrites some of its bytes. -/
  | write (pos : Nat) (bytes : List UInt8)
  deriving Repr, DecidableEq

/-- What becomes of a block. -/
def Deed.perform : Deed → Block space → Allocator.Request (Block space)
  | allocate size granted, _ => Allocator.allocate size granted
  | reallocate size granted, b => Allocator.reallocate b size granted
  | release, b => do
    .modify (Allocator.release b)
    return .empty
  | adopt, b => do
    Allocator.adopt b
    return b
  | disown, b => do
    .modify (Allocator.release b)
    return b
  | drop, _ => return .empty
  | zero, b => return b.fill 0
  | write pos bytes, b => .require (b.write? pos bytes)

/-- A pool with the given allocators and as many blocks without memory as asked for. -/
def start (allocators : List Allocator) (blocks : Nat) : Pool space where
  allocators := allocators.toArray
  blocks := Array.replicate blocks .empty

/-- Has an allocator do something with a block. -/
def act (home block : Nat) (deed : Deed) : Call MemoryRefusal (Pool space) Unit :=
  fun { allocators, blocks } =>
    match allocators[home]?, blocks[block]? with
    | some a, some b =>
      match deed.perform b a with
      | .done b a => .done () ⟨allocators.setIfInBounds home a, blocks.setIfInBounds block b⟩
      | .refused e a => .refused e ⟨allocators.setIfInBounds home a, blocks⟩
      | .breach => .breach
    | _, _ => .breach

end Pool

end PackedColumn
