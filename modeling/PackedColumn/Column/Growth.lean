import PackedColumn.Column.Basic

/-!
# Growth

How a column comes by its memory. The three buffers grow one after the other
under one allocator, so a refusal may come after some of them have grown;
what has grown then stays.

* `makeRoom` is what every growing write does first: it makes sure that a
  slot can take a value of a given length.
* `footprint_clear`, `count_clear`: clearing gives back all memory and forgets every slot.
-/

namespace PackedColumn

namespace Column

variable {t : ColumnType}

/-- Makes room for `needed` value bytes. -/
def growValues (needed : Nat) : Op t Unit :=
  .request (fun c => c.values.reserve needed) fun values c => { c with values }

/-- Makes room for `slots` slots. -/
def growSlots (slots : Nat) : Op t Unit := do
  .request (fun c => c.offsets.reserve slots c.count) fun offsets c => { c with offsets }
  .request (fun c => c.validity.reserve slots) fun validity c => { c with validity }

/-- Makes room for `slots` slots and `bytes` value bytes. -/
def reserve (slots bytes : Nat) : Op t Unit := do
  growValues bytes
  growSlots slots

/-- The number of value bytes once slot `i` holds `length` bytes. An appended value whose end is
no size is an offset overflow. -/
def neededBytes (c : Column t) (i length : Nat) : Op t Nat := do
  let total ← .require c.totalBytes?
  if i < c.count then
    let former ← .require (c.offsets.length? i)
    if former ≤ total then .require (Size.add? (total - former) length) else .require none
  else
    match Size.add? total length with
    | some needed => return needed
    | none => .refuse (.offsetOverflow Size.max)

/-- Makes sure that slot `i` can take a value of `length` bytes. -/
def makeRoom (i length : Nat) : Op t Unit := do
  let c ← Op.column
  let needed ← c.neededBytes i length
  if t.width.max < needed then .refuse (.offsetOverflow needed)
  let needed := if c.byteCapacity = 0 then max needed c.initialBytes else needed
  if c.byteCapacity < needed then growValues needed
  let capacity := c.slotCapacity
  if capacity ≤ i then
    let slots ← .require (Size.add? i 1)
    growSlots (max slots (if capacity = 0 then c.initialSlots else 2 * capacity))

end Column

namespace Owned

variable {t : ColumnType}

/-- Gives all buffers back and forgets every slot. -/
def clear (s : Owned t) : Owned t where
  allocator :=
    ((s.allocator.release s.column.validity.block).release s.column.offsets.block).release
      s.column.values.block
  column :=
    { s.column with validity := .empty, offsets := .empty, values := .empty, extent := .empty }

@[simp] theorem footprint_clear (s : Owned t) : s.clear.column.footprint = 0 := rfl

@[simp] theorem count_clear (s : Owned t) : s.clear.column.count = 0 := rfl

end Owned

namespace Column

variable {t : ColumnType}

/-- Makes every buffer zero and forgets every slot, keeping the memory. -/
def reset (c : Column t) : Column t :=
  { c with
    validity := c.validity.clear
    offsets := c.offsets.clear
    values := c.values.clear
    extent := .empty }

/-- Gives all buffers back and makes room for `slots` slots and `bytes` value bytes; the column is
left without memory if that is refused. -/
def renewWith (bytes slots : Nat) : Op t Unit := fun s =>
  match reserve slots bytes s.clear with
  | .refused e s => .refused e s.clear
  | o => o

/-- Gives all buffers back and makes room for the initial sizes. -/
def renew : Op t Unit := do
  let c ← Op.column
  renewWith c.initialBytes c.initialSlots

end Column

end PackedColumn
