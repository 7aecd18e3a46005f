import PackedColumn.ArrowArray
import PackedColumn.Column.Check
import PackedColumn.Column.Write

/-!
# Exchange with Arrow arrays

A column goes out as the array that a library makes of its slots, and comes in
as the slots that an array answers for.

* `export?` hands the slots of a column to a library, provided that they are values of the element
  type.
* `ofArrow` copies the slots of an array into a new column.
-/

namespace PackedColumn

namespace Column

variable {t : ColumnType} {α : Type}

/-- The `n` slots from slot `i` on behind those in `done`, the last one first; a text column stops
at the first that is not UTF-8. -/
def exportFrom? (c : Column t) (done : List (Option (List UInt8))) (i : Nat) :
    Nat → Option (Except ColumnError (List (Option (List UInt8))))
  | 0 => some (.ok done.reverse)
  | n + 1 => do
    let x ← c.slot? i
    match x.bind t.element.fault? with
    | some (.notText fault) => some (.error (.invalidText i fault))
    | _ => exportFrom? c (x :: done) (i + 1) n

/-- The slots as a new array of a library. -/
def export? (lib : ArrowLibrary α) (c : Column t) : Option (Except ColumnError α) :=
  (c.exportFrom? [] 0 c.count).map (·.map lib.ofSlots)

/-- Makes a column by an operation on a new one, which is dropped if the operation is refused. -/
def build (fresh : Column t) (op : Op t Unit) : Call ColumnError Allocator (Column t) := fun a =>
  match op ⟨a, fresh⟩ with
  | .done _ s => .done s.column s.allocator
  | .refused e s => .refused e s.clear.allocator
  | .breach => .breach

/-- Writes values to the slots from slot `i` on. -/
def setFrom (i : Nat) : List (Option (List UInt8)) → Op t Unit
  | [] => pure ()
  | x :: xs => do
    set i (x.map Blob.ofList)
    setFrom (i + 1) xs

/-- A new column with the slots of an array. Its first allocation makes room for all the bytes behind
the values, those of other slots included. -/
def ofArrow (name : String) (a : ArrowArray) : Call ColumnError Allocator (Column t) :=
  build (new name true .default) do
    renewWith a.dataSize a.slotCount
    setFrom 0 a.slots

/-- A new column with the given slots, without a name. -/
def ofValues (values : List (Option Blob)) : Call ColumnError Allocator (Column t) :=
  build (new "" true .default) do
    renewWith (Size.total (values.map fun x => (x.map Blob.size).getD 0)) values.length
    pushAll values

end Column

end PackedColumn
