import PackedColumn.ColumnError
import PackedColumn.Extent
import PackedColumn.Offsets.Table
import PackedColumn.Schema.Field
import PackedColumn.Schema.Settings
import PackedColumn.Validity
import PackedColumn.ValueStore

/-!
# Columns

A column is a sequence of slots, each null or holding a byte string, packed
in three buffers: validity flags, a table of offsets with one entry more than
there are slots, and the bytes of all values one behind the other. The extent
says how many slots are defined; what the buffers hold past it has no meaning.

A column that changes is kept together with the allocator that pays for its
buffers (`Owned`). An operation that breaks its contract ends in `breach`, so
whatever it read or wrote outside a buffer has no further effect.

* `footprint_new`: a new column holds no memory.
-/

namespace PackedColumn

/-- A column of the given type. -/
@[ext] structure Column (t : ColumnType) where
  name : String
  nullable : Bool
  validity : Validity
  offsets : OffsetTable t.width
  values : ValueStore
  extent : Extent
  /-- The number of slots that the first allocation makes room for. -/
  initialSlots : Nat
  /-- The number of value bytes that the first allocation makes room for. -/
  initialBytes : Nat
  deriving DecidableEq

/-- The bytes of the defined slots in the three buffers. -/
structure Buffers where
  validity : List UInt8
  offsets : List UInt8
  values : List UInt8
  deriving Repr, DecidableEq

namespace Column

variable {t : ColumnType}

/-! ## Making columns -/

/-- A column without slots and without memory. -/
def new (name : String) (nullable : Bool) (settings : Settings) : Column t where
  name := name
  nullable := nullable
  validity := .empty
  offsets := .empty
  values := .empty
  extent := .empty
  initialSlots := settings.initialSlots
  initialBytes := settings.initialBytes settings.initialSlots

/-- A column without slots as a field describes it, if the field is of the type asked for. -/
def ofField (t : ColumnType) (field : Field) (settings : Settings) :
    Except ColumnError (Column t) :=
  if field.type = t then .ok (new field.name field.nullable settings)
  else .error (.typeMismatch t field.type)

/-- The description of the column. -/
def field (c : Column t) : Field := { name := c.name, type := t, nullable := c.nullable }

/-! ## Sizes -/

/-- The number of defined slots. -/
def count (c : Column t) : Nat := c.extent.count

/-- The number of slots that fit the memory held. -/
def slotCapacity (c : Column t) : Nat := min c.validity.bitCapacity c.offsets.slotCapacity

/-- The number of value bytes that fit the memory held. -/
def byteCapacity (c : Column t) : Nat := c.values.capacity

/-- The bytes of memory held. -/
def footprint (c : Column t) : Nat :=
  c.validity.block.size + c.offsets.block.size + c.values.block.size

/-- The number of bytes of all values. -/
def totalBytes? (c : Column t) : Option Nat := c.offsets.start? c.count

/-- The bytes of the defined slots. -/
def buffers? (c : Column t) : Option Buffers := do
  let validity ← c.validity.covering? c.count
  let offsets ← c.offsets.entries? c.count
  let values ← c.values.leading? (← c.totalBytes?)
  return { validity, offsets, values }

/-- The number of bytes that the defined slots take; none are taken without slots. -/
def size? (c : Column t) : Option Nat :=
  if c.count = 0 then some 0
  else c.buffers?.map fun b => b.validity.length + b.offsets.length + b.values.length

/-- The number of null slots. -/
def nullCount? (c : Column t) : Option Nat := c.validity.nullCount? c.count

/-! ## The first allocation -/

/-- Sizes the first allocation to `slots` slots of the width expected so far; where there was no
slot to expect it of, to the usual width. -/
def expectSlots (slots : Nat) (c : Column t) : Column t :=
  let width :=
    if c.initialSlots = 0 then Settings.default.averageWidth else c.initialBytes / c.initialSlots
  { c with initialSlots := slots, initialBytes := Size.mulSat slots width }

/-- Sizes the first allocation to `slots` slots of `density` bytes on average. -/
def expectDensity (slots : Nat) (density : Float) (c : Column t) : Column t :=
  let width := if density > 0 then density else 0
  { c with
    initialSlots := slots
    initialBytes := (slots.toUInt64.toFloat * width).ceil.toUInt64.toNat }

@[simp] theorem count_new (name : String) (nullable : Bool) (s : Settings) :
    (new name nullable s : Column t).count = 0 := rfl

@[simp] theorem footprint_new (name : String) (nullable : Bool) (s : Settings) :
    (new name nullable s : Column t).footprint = 0 := rfl

end Column

/-- A column with the allocator that accounts for its buffers. -/
@[ext] structure Owned (t : ColumnType) where
  allocator : Allocator
  column : Column t
  deriving DecidableEq

/-- An operation that may change a column and its allocator. -/
abbrev Op (t : ColumnType) := Call ColumnError (Owned t)

namespace Op

variable {t : ColumnType} {α : Type}

/-- The column as it stands. -/
def column : Op t (Column t) := fun s => .done s.column s

/-- Changes the column without memory. -/
def modify (f : Column t → Column t) : Op t Unit := fun ⟨allocator, c⟩ => .done () ⟨allocator, f c⟩

/-- Changes the column by a step that may break its contract. -/
def change (f : Column t → Option (Column t)) : Op t Unit := fun ⟨allocator, c⟩ =>
  match f c with
  | some c => .done () ⟨allocator, c⟩
  | none => .breach

/-- Makes a part of the column anew by a request for memory. -/
def request (part : Column t → Allocator.Request α) (place : α → Column t → Column t) : Op t Unit :=
  fun ⟨allocator, c⟩ =>
    match part c allocator with
    | .done a allocator => .done () ⟨allocator, place a c⟩
    | .refused e allocator => .refused (.allocation e) ⟨allocator, c⟩
    | .breach => .breach

@[simp] theorem column_apply (s : Owned t) : column s = .done s.column s := rfl

@[simp] theorem modify_apply (f : Column t → Column t) (s : Owned t) :
    modify f s = .done () { s with column := f s.column } := rfl

theorem change_of_some {f : Column t → Option (Column t)} {s : Owned t} {c : Column t}
    (h : f s.column = some c) : change f s = .done () { s with column := c } := by
  simp [change, h]

theorem change_of_none {f : Column t → Option (Column t)} {s : Owned t}
    (h : f s.column = none) : change f s = .breach := by
  simp [change, h]

end Op

end PackedColumn
