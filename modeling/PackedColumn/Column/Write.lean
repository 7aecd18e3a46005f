import PackedColumn.Column.Growth

/-!
# Writing slots

Slots may be written in any order. Slots skipped over become null, and
writing a defined slot anew moves the bytes of the slots behind it.

* `put?` writes within the memory held, and breaks its contract where that does not suffice: a value
  behind all others by `append?`, any other by `replace?`.
* `set` makes room first, and is refused where there is none.
* `setCount`, `padTo` and `setLast` change which slots are defined and written.
-/

namespace PackedColumn

namespace Column

variable {t : ColumnType}

/-! ## Within the memory held -/

/-- Makes the `n` slots from slot `i` on null and empty. -/
def blankSlots? {w : OffsetWidth} (validity : Validity) (offsets : OffsetTable w) (i : Nat) :
    Nat → Option (Validity × OffsetTable w)
  | 0 => some (validity, offsets)
  | n + 1 => do
    let validity ← validity.put? i false
    let start ← offsets.get? i
    let offsets ← offsets.put? (i + 1) start
    blankSlots? validity offsets (i + 1) n

/-- Puts the bytes of slot `i`, whose value lies behind all others. -/
def append? {w : OffsetWidth} (offsets : OffsetTable w) (values : ValueStore) (i : Nat)
    (x : List UInt8) : Option (OffsetTable w × ValueStore) := do
  let start ← offsets.start? i
  let stop := start + x.length
  if stop ≤ w.max then
    let offsets ← offsets.put? (i + 1) stop
    let values ← values.write? start x
    return (offsets, values)
  else none

/-- Puts the bytes of slot `i` of `count`. The bytes of the slots behind it move when their place
changes, and so do the entries of those slots. -/
def replace? {w : OffsetWidth} (offsets : OffsetTable w) (values : ValueStore) (count i : Nat)
    (x : List UInt8) : Option (OffsetTable w × ValueStore) := do
  let start ← offsets.start? i
  let stop := start + x.length
  let former ← offsets.stop? i
  if stop = former then
    let values ← values.write? start x
    return (offsets, values)
  else
    let total ← offsets.start? count
    let values ← values.move? former total stop
    let offsets ← offsets.shift? (stop - former : Int) (i + 1) (count - i)
    let values ← values.write? start x
    return (offsets, values)

/-- Writes slot `i` within the memory held; no value makes it null. -/
def put? (c : Column t) (i : Nat) (x : Option (List UInt8)) : Option (Column t) :=
  match c with
  | { name, nullable, validity, offsets, values, extent, initialSlots, initialBytes } => do
    let plan ← extent.planSet? i
    let (validity, offsets) ←
      blankSlots? validity offsets plan.fillStart (plan.fillStop - plan.fillStart)
    let bytes := x.getD []
    let (offsets, values) ←
      if plan.defined then replace? offsets values extent.count i bytes
      else append? offsets values i bytes
    let validity ← validity.put? i x.isSome
    return {
      name, nullable, validity, offsets, values, extent := plan.next, initialSlots, initialBytes }

/-- Makes the slots from `start` to just before `stop` null and empty, under another extent. -/
def blank? (c : Column t) (start stop : Nat) (next : Extent) : Option (Column t) :=
  match c with
  | { name, nullable, validity, offsets, values, extent := _, initialSlots, initialBytes } => do
    let (validity, offsets) ← blankSlots? validity offsets start (stop - start)
    return { name, nullable, validity, offsets, values, extent := next, initialSlots, initialBytes }

/-- Carries out a plan that writes no value. -/
def follow? (c : Column t) (plan : Option Extent.Plan) : Option (Column t) := do
  let plan ← plan
  c.blank? plan.fillStart plan.fillStop plan.next

/-! ## With growth -/

/-- Writes slot `i`, growing the buffers first if needed; no value makes it null. -/
def set (i : Nat) (x : Option Blob) : Op t Unit := do
  makeRoom i ((x.map Blob.size).getD 0)
  .change fun c => c.put? i (x.map Blob.toList)

/-- Writes a slot behind the last one. -/
def push (x : Option Blob) : Op t Unit := fun s => set s.column.count x s

/-- Writes slots behind the last one, up to the first that is refused. -/
def pushAll : List (Option Blob) → Op t Unit
  | [] => pure ()
  | x :: xs => do
    push x
    pushAll xs

/-- Writes a text to slot `i`. -/
def setText (i : Nat) (text : String) : Op t Unit := set i (some (.ofText text))

/-- Writes a text or a null behind the last slot. -/
def pushText (text : Option String) : Op t Unit := push (text.map Blob.ofText)

/-- Has exactly `n` slots: new ones are null, and those past `n` are dropped. -/
def setCount (n : Nat) : Op t Unit := do
  let c ← Op.column
  if c.slotCapacity < n then growSlots (max n (2 * c.slotCapacity))
  .change fun c => c.follow? (c.extent.planCount? n)

/-- Makes every slot below `n` null that has not been written. -/
def padTo (n : Nat) : Op t Unit := do
  if 0 < n then makeRoom (n - 1) 0
  .change fun c => c.follow? (c.extent.planPad? n)

/-- Takes `last` for the highest slot written; the slots behind it become null and empty. -/
def setLast (last : Option Nat) : Op t Unit := do
  let c ← Op.column
  match last with
  | some i => if c.count ≤ i then .refuse (.indexOutOfBounds i c.count)
  | none => pure ()
  .change fun c => c.blank? ((last.map (· + 1)).getD 0) c.count { c.extent with last }

end Column

end PackedColumn
