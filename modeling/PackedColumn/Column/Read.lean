import PackedColumn.Column.Basic

/-!
# Reading slots

Readers leave a column as it is. `slot?` and its kin are the readers proper;
they have no answer where the buffers do not hold what is asked for. The
readers offered to callers check the slot number first, and report one at or
past the count.

* `atSlot_of_lt`, `atSlot_of_le`: what that check does.
* `readInto_apply`: reading into a buffer tells of the same slot as reading it.
* `Cursor.rest?_start`: a cursor at the first slot has all slots to come.
-/

namespace PackedColumn

namespace Column

variable {t : ColumnType} {α : Type}

/-! ## Slots as the buffers have them -/

/-- The bytes of slot `i`, null or not. -/
def bytes? (c : Column t) (i : Nat) : Option (List UInt8) := do
  let start ← c.offsets.start? i
  let length ← c.offsets.length? i
  c.values.read? start length

/-- Slot `i`: nothing if it is null, and its bytes otherwise. -/
def slot? (c : Column t) (i : Nat) : Option (Option (List UInt8)) := do
  if ← c.validity.get? i then some <$> c.bytes? i else return none

/-- The `n` slots from slot `i` on; `done` are those before them, the last one first. -/
def slotsFrom? (c : Column t) (done : List (Option (List UInt8))) (i : Nat) :
    Nat → Option (List (Option (List UInt8)))
  | 0 => some done.reverse
  | n + 1 => do
    let x ← c.slot? i
    slotsFrom? c (x :: done) (i + 1) n

/-- All slots in order. -/
def slots? (c : Column t) : Option (List (Option (List UInt8))) := c.slotsFrom? [] 0 c.count

/-! ## Checked readers -/

/-- Reads a slot if it is defined, and reports it otherwise. -/
def atSlot (c : Column t) (i : Nat) (read : Option α) : Option (Except ColumnError α) :=
  if i < c.count then read.map .ok else some (.error (.indexOutOfBounds i c.count))

/-- Slot `i`. -/
def get (c : Column t) (i : Nat) : Option (Except ColumnError (Option (List UInt8))) :=
  c.atSlot i (c.slot? i)

/-- Reads slot `i` into a buffer, and tells whether the slot holds a value. What the buffer held
makes way for the bytes of the slot, but stays if there is no such slot. -/
def readInto (c : Column t) (i : Nat) : Call ColumnError (List UInt8) Bool := do
  unless i < c.count do .refuse (.indexOutOfBounds i c.count)
  .modify fun _ => []
  if ← .require (c.validity.get? i) then
    let bytes ← .require (c.bytes? i)
    .modify (· ++ bytes)
    return true
  else return false

/-- The text in slot `i`. -/
def getText (c : Column t) (i : Nat) : Option (Except ColumnError (Option String)) :=
  (c.get i).map fun
    | .ok (some bytes) => ((Utf8.text bytes).map some).mapError (.invalidText i)
    | .ok none => .ok none
    | .error e => .error e

/-- The position of the first byte of slot `i` among the value bytes. -/
def startOffset (c : Column t) (i : Nat) : Option (Except ColumnError Nat) :=
  c.atSlot i (c.offsets.start? i)

/-- The position behind the last byte of slot `i` among the value bytes. -/
def stopOffset (c : Column t) (i : Nat) : Option (Except ColumnError Nat) :=
  c.atSlot i (c.offsets.stop? i)

/-- The number of bytes in slot `i`. -/
def length (c : Column t) (i : Nat) : Option (Except ColumnError Nat) :=
  c.atSlot i (c.offsets.length? i)

/-- Whether slot `i` has no bytes. -/
def isEmptyAt (c : Column t) (i : Nat) : Option (Except ColumnError Bool) :=
  c.atSlot i ((c.offsets.length? i).map (· == 0))

/-- Whether slot `i` is null; asking for one that is not defined breaks the contract. -/
def isNull? (c : Column t) (i : Nat) : Option Bool :=
  if i < c.count then (c.validity.get? i).map not else none

/-- Whether slot `i` holds a value; asking for one that is not defined breaks the contract. -/
def isSet? (c : Column t) (i : Nat) : Option Bool := (c.isNull? i).map not

/-- The texts in all slots, each with its own fault if it is not UTF-8. -/
def texts? (c : Column t) : Option (List (Except ColumnError (Option String))) :=
  c.slots?.map fun slots => slots.mapIdx fun i => fun
    | some bytes => ((Utf8.text bytes).map some).mapError (.invalidText i)
    | none => .ok none

/-! ## One slot after the other -/

end Column

/-- A place in a column from which its slots are read one after the other. -/
structure Cursor (t : ColumnType) where
  column : Column t
  position : Nat

namespace Cursor

variable {t : ColumnType}

/-- The cursor at the first slot. -/
def start (c : Column t) : Cursor t := { column := c, position := 0 }

/-- The number of slots to come. -/
def remaining (k : Cursor t) : Nat := k.column.count - k.position

/-- The slot at the cursor, if one is to come, and the cursor behind it. -/
def next? (k : Cursor t) : Option (Option (Option (List UInt8)) × Cursor t) :=
  if k.position < k.column.count then do
    let x ← k.column.slot? k.position
    return (some x, { k with position := k.position + 1 })
  else some (none, k)

/-- The cursor after as many steps as asked for, or at the end. -/
def advance? (k : Cursor t) : Nat → Option (Cursor t)
  | 0 => some k
  | n + 1 =>
    match k.next? with
    | none => none
    | some (none, k) => some k
    | some (some _, k) => advance? k n

/-- The slots to come. -/
def rest? (k : Cursor t) : Option (List (Option (List UInt8))) :=
  k.column.slotsFrom? [] k.position k.remaining

end Cursor

namespace Column

variable {t : ColumnType} {α : Type}

/-! ## Equality -/

/-- Whether `n` slots from slot `i` on are equal in two columns; only the slots up to the first
difference are read. -/
def agreeFrom? {u : ColumnType} (c : Column t) (d : Column u) (i : Nat) : Nat → Option Bool
  | 0 => some true
  | n + 1 => do
    let x ← c.slot? i
    let y ← d.slot? i
    if x = y then agreeFrom? c d (i + 1) n else some false

/-- Whether two columns have the same slots, whatever their names, buffers and allocators. -/
def sameSlots? (c d : Column t) : Option Bool :=
  if c.count = d.count then c.agreeFrom? d 0 c.count else some false

theorem atSlot_of_lt {c : Column t} {i : Nat} (h : i < c.count) (read : Option α) :
    c.atSlot i read = read.map .ok := if_pos h

theorem atSlot_of_le {c : Column t} {i : Nat} (h : c.count ≤ i) (read : Option α) :
    c.atSlot i read = some (.error (.indexOutOfBounds i c.count)) := if_neg (by omega)

theorem readInto_apply (c : Column t) (i : Nat) (buffer : List UInt8) :
    c.readInto i buffer = match c.get i with
      | some (.ok x) => .done x.isSome (x.getD [])
      | some (.error e) => .refused e buffer
      | none => .breach := by
  by_cases hi : i < c.count
  · rw [get, atSlot_of_lt hi, slot?, readInto, if_pos hi]
    cases c.validity.get? i with
    | none => rfl
    | some holds =>
      cases holds with
      | false => rfl
      | true => cases c.bytes? i <;> rfl
  · rw [get, atSlot_of_le (Nat.le_of_not_lt hi), readInto, if_neg hi]
    rfl

end Column

theorem Cursor.rest?_start {t : ColumnType} (c : Column t) : (start c).rest? = c.slots? := rfl

end PackedColumn
