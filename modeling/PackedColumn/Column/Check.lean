import PackedColumn.Column.Read

/-!
# Checking columns

`checkLayout` checks that the buffers of a column fit together, and
`checkValues` that every value is one of the element type. Both leave the
column as it is. What the operations on columns write passes the first check;
a byte overwritten from outside may not.

* `invalidValues_bytes`: every byte string is a value of a byte column.
-/

namespace PackedColumn

/-- Why a byte string is no value of the element type, if it is not. -/
def Element.fault? : Element → List UInt8 → Option ValueFault
  | .text, x => (Utf8.fault? x).map .notText
  | .bytes, _ => none

namespace Column

variable {t : ColumnType}

/-- The first null slot with bytes among the `n` slots from slot `i` on. -/
def fullNull? (c : Column t) (i : Nat) : Nat → Option (Option Nat)
  | 0 => some none
  | n + 1 => do
    let valid ← c.validity.get? i
    if valid then fullNull? c (i + 1) n
    else
      let length ← c.offsets.length? i
      if length = 0 then fullNull? c (i + 1) n else some (some i)

/-- The first fault of the buffers: the values start at 0, no slot ends before it starts, the
values end within their memory, and null slots are empty. -/
def layoutFault? (c : Column t) : Option (Option LayoutFault) := do
  let first ← c.offsets.start? 0
  if first ≠ 0 then return some .lateStart
  if let some i ← c.offsets.decrease? 0 c.count then return some (.decrease i)
  let total ← c.totalBytes?
  if c.byteCapacity < total then return some (.overrun total c.byteCapacity)
  return (← c.fullNull? 0 c.count).map .fullNull

/-- Checks that the buffers fit together. -/
def checkLayout (c : Column t) : Option (Except ColumnError Unit) :=
  c.layoutFault?.map fun
    | some fault => .error (.invalidLayout fault)
    | none => .ok ()

/-- The slots, counted from 0, whose values are not of the element type. -/
def invalidValues (element : Element) (slots : List (Option (List UInt8))) : List InvalidValue :=
  slots.zipIdx.filterMap fun (x, i) =>
    (x.bind element.fault?).map fun fault => { slot := i, fault }

/-- Checks that every value is one of the element type. -/
def checkValues (c : Column t) : Option (Except ColumnError Unit) :=
  c.slots?.map fun slots =>
    match invalidValues t.element slots with
    | [] => .ok ()
    | failures => .error (.invalidValues failures)

/-! ## Damage from outside -/

/-- The column with one byte of its validity flags overwritten, if a defined slot has its flag in
that byte. -/
def damageValidity? (c : Column t) (pos : Nat) (x : UInt8) : Option (Column t) := do
  let { validity := flags, .. } ← c.buffers?
  if pos < flags.length then
    let block ← c.validity.block.write? pos [x]
    return { c with validity := { block } }
  else none

/-- The column with one byte of its offset table overwritten, if a defined slot starts or ends
there. -/
def damageOffsets? (c : Column t) (pos : Nat) (x : UInt8) : Option (Column t) := do
  let { offsets := entries, .. } ← c.buffers?
  if pos < entries.length then
    let block ← c.offsets.block.write? pos [x]
    return { c with offsets := { block } }
  else none

theorem invalidValues_bytes (slots : List (Option (List UInt8))) :
    invalidValues .bytes slots = [] := by
  simp [invalidValues, List.filterMap_eq_nil_iff, Element.fault?]

end Column

end PackedColumn
