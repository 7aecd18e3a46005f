import PackedColumn.Column.Read
import PackedColumn.Column.Write

/-!
# Handing slots over

Three ways for the slots of one column to reach another of the same type.

* `Pair.transfer` moves the buffers themselves and leaves the source empty. Between two allocators
  the receiving one must first account for all of them, or nothing moves.
* `copyRange` copies a range of slots into new buffers, which take the place of the former ones.
* `copySlot` writes one slot of the source to a slot of the destination.
* `Allocator.adoptBlocks` accounts for several blocks together or not at all.
-/

namespace PackedColumn

namespace Allocator

/-- Starts accounting for blocks of another allocator, one after the other; when one is refused,
those before it are given up again. -/
def adoptBlocks : List Block → Request Unit
  | [] => pure ()
  | b :: bs => fun a =>
    (adopt b a).bind fun _ a =>
      match adoptBlocks bs a with
      | .refused e a => .refused e (a.release b)
      | o => o

/-- Stops accounting for blocks. -/
def releaseBlocks (bs : List Block) (a : Allocator) : Allocator := bs.foldl (fun a b => a.release b) a

@[simp] theorem adoptBlocks_nil (a : Allocator) : adoptBlocks [] a = .done () a := rfl

end Allocator

namespace Column

variable {t : ColumnType}

/-- The blocks of the three buffers. -/
def blocks (c : Column t) : List Block := [c.validity.block, c.offsets.block, c.values.block]

/-- The column without its buffers and slots, which nothing is given back for. -/
def vacated (c : Column t) : Column t :=
  { c with validity := .empty, offsets := .empty, values := .empty, extent := .empty }

/-- The column with the buffers and slots of another in place of its own. -/
def withSlotsOf (c source : Column t) : Column t :=
  { c with
    validity := source.validity
    offsets := source.offsets
    values := source.values
    extent := source.extent }

end Column

/-- The allocators of a source and a destination: the same one for both, or one for each. -/
inductive Homes where
  | shared (a : Allocator)
  | separate (source dest : Allocator)
  deriving Repr, DecidableEq

namespace Homes

/-- The allocator of the source. -/
def source : Homes → Allocator
  | shared a => a
  | separate a _ => a

/-- The allocator of the destination. -/
def dest : Homes → Allocator
  | shared a => a
  | separate _ b => b

end Homes

/-- Two columns of one type with their allocators. -/
structure Pair (t : ColumnType) where
  homes : Homes
  source : Column t
  dest : Column t
  deriving DecidableEq

namespace Pair

variable {t : ColumnType}

/-- Moves the buffers and slots of the source to the destination, whose own buffers are given back.
It is refused, and nothing changes, if the allocator of the destination cannot account for the
buffers of the source while it accounts for the former ones too. -/
def transfer : Call ColumnError (Pair t) Unit := fun ⟨homes, source, dest⟩ =>
  match homes with
  | .shared a =>
    let emptied := (Owned.mk a dest).clear
    .done () ⟨.shared emptied.allocator, source.vacated, emptied.column.withSlotsOf source⟩
  | .separate a b =>
    ((Allocator.adoptBlocks source.blocks b).lift .allocation
        fun b => Pair.mk (.separate a b) source dest).bind fun _ p =>
      let emptied := (Owned.mk p.homes.dest dest).clear
      .done () ⟨.separate (a.releaseBlocks source.blocks) emptied.allocator, source.vacated,
        emptied.column.withSlotsOf source⟩

end Pair

namespace Column

variable {t : ColumnType}

/-- Puts the `n` entries of a table from entry `start + i` on, less `base`, at entry `i` of another
and on. -/
def rebase? {w : OffsetWidth} (source : OffsetTable w) (start : Nat) (base : Int)
    (dest : OffsetTable w) (i : Nat) : Nat → Option (OffsetTable w)
  | 0 => some dest
  | n + 1 => do
    let entry ← source.get? (start + i)
    if w.Holds (entry - base) then
      let dest ← dest.put? i (entry - base)
      rebase? source start base dest (i + 1) n
    else none

/-- Where the values of the slots from `start` to just before `stop` lie: the position of the first
byte and the number of bytes. -/
def span? (c : Column t) (start stop : Nat) : Option (Nat × Nat) := do
  let first ← c.offsets.start? start
  let last ← c.offsets.start? stop
  if first ≤ last then some (first, last - first) else none

/-- A column with memory for them given `length` slots of another, from slot `start` on. -/
def copiedFrom? (c source : Column t) (start length : Nat) : Option (Column t) := do
  let base ← source.offsets.get? start
  let (first, bytes) ← source.span? start (start + length)
  let offsets ← rebase? source.offsets start base c.offsets 0 (length + 1)
  let values ← c.values.write? 0 (← source.values.read? first bytes)
  let flags ← source.validity.covering? source.count
  let validity ← c.validity.copyBits? flags.toArray start length
  return { c with
    offsets, values, validity, extent := { count := length, last := some (length - 1) } }

/-- Copies `length` slots of a source, from slot `start` on, into new buffers, which then take the
place of the former ones. It is refused, and nothing changes, if the source has no such slots or if
the allocator has no room for the new buffers beside the former ones. -/
def copyRange (source : Column t) (start length : Nat) : Op t Unit := fun s =>
  if source.count < start + length then .refused (.outOfRange start length source.count) s
  else if length = 0 then .done () s.clear
  else
    match source.span? start (start + length) with
    | none => .breach
    | some (_, bytes) =>
      match reserve length bytes ⟨s.allocator, new s.column.name s.column.nullable .default⟩ with
      | .refused e fresh => .refused e ⟨fresh.clear.allocator, s.column⟩
      | .breach => .breach
      | .done _ fresh =>
        match fresh.column.copiedFrom? source start length with
        | none => .breach
        | some copy =>
          let emptied := (Owned.mk fresh.allocator s.column).clear
          .done () ⟨emptied.allocator, emptied.column.withSlotsOf copy⟩

/-- A slot of a source, as a value to be written. -/
def slotOf (source : Column t) (i : Nat) : Op t (Option (List UInt8)) := do
  .ofExcept (← .require (source.get i))

/-- Writes slot `i` of a source to slot `j`, growing the buffers first if needed. -/
def copySlot (source : Column t) (i j : Nat) : Op t Unit := do
  let x ← slotOf source i
  set j (x.map Blob.ofList)

/-- Writes slot `i` of a source to slot `j` within the memory held. -/
def copySlotWithin (source : Column t) (i j : Nat) : Op t Unit := do
  let x ← slotOf source i
  .change fun c => c.put? j x

/-- A column to hand slots over to: new, of the same type, and nullable like this one. -/
def counterpart (c : Column t) (name : String) : Column t := new name c.nullable .default

end Column

end PackedColumn
