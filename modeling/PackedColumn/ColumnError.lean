import PackedColumn.Memory.Allocator
import PackedColumn.Schema.ColumnType
import PackedColumn.Text.Utf8

/-!
# Errors

The reasons for which an operation on a column is refused, and the text of
each.
-/

namespace PackedColumn

/-- What is wrong with the buffers of a column. -/
inductive LayoutFault where
  /-- The first value does not start at byte 0. -/
  | lateStart
  /-- The value of a slot ends before it starts. -/
  | decrease (slot : Nat)
  /-- The values end past the memory for them. -/
  | overrun (stop capacity : Nat)
  /-- A null slot has bytes. -/
  | fullNull (slot : Nat)
  /-- A fault in the words of whoever found it. -/
  | described (reason : String)
  deriving Repr, DecidableEq

/-- The text of the fault. -/
def LayoutFault.message : LayoutFault → String
  | lateStart => "first offset is not zero"
  | decrease slot => "offsets decrease at index " ++ toString slot
  | overrun stop capacity =>
    "last offset " ++ toString stop ++ " exceeds value buffer capacity " ++ toString capacity
  | fullNull slot => "null slot " ++ toString slot ++ " has non-zero length"
  | described reason => reason

/-- Why a value is not one of its element type. -/
inductive ValueFault where
  /-- The value of a text column is not UTF-8. -/
  | notText (fault : Utf8.Fault)
  /-- A fault in the words of whoever found it. -/
  | described (reason : String)
  deriving Repr, DecidableEq

/-- The text of the fault. -/
def ValueFault.message : ValueFault → String
  | notText fault => "non-UTF-8 data: " ++ fault.message
  | described reason => reason

/-- A slot whose value is not one of the element type. -/
structure InvalidValue where
  slot : Nat
  fault : ValueFault
  deriving Repr, DecidableEq

/-- Why an operation on a column is refused. -/
inductive ColumnError where
  | allocation (cause : MemoryRefusal)
  | indexOutOfBounds (index count : Nat)
  | outOfRange (start length count : Nat)
  | offsetOverflow (total : Nat)
  | typeMismatch (expected found : ColumnType)
  | invalidLayout (fault : LayoutFault)
  | invalidText (slot : Nat) (fault : Utf8.Fault)
  | invalidValues (failures : List InvalidValue)
  deriving Repr, DecidableEq

/-- The text of a list of invalid values: their number, then each with its slot. -/
def InvalidValue.listMessage (failures : List InvalidValue) : String :=
  failures.foldl
    (fun text f => text ++ "; at position " ++ toString f.slot ++ ": " ++ f.fault.message)
    (toString failures.length ++ " invalid value(s)")

/-- The text of the error. -/
def ColumnError.message : ColumnError → String
  | allocation cause => "memory error: " ++ cause.message
  | indexOutOfBounds index count =>
    "index " ++ toString index ++ " out of bound (value count " ++ toString count ++ ")"
  | outOfRange start length count =>
    "range " ++ toString start ++ ".." ++ toString start ++ "+" ++ toString length ++
      " out of bound (value count " ++ toString count ++ ")"
  | offsetOverflow total =>
    "total value length " ++ toString total ++ " does not fit in the offset type"
  | typeMismatch expected found =>
    "expected a field of type " ++ expected.name ++ ", found " ++ found.name
  | invalidLayout fault => "invalid layout: " ++ fault.message
  | invalidText slot fault => "invalid UTF-8 at index " ++ toString slot ++ ": " ++ fault.message
  | invalidValues failures => InvalidValue.listMessage failures

end PackedColumn
