import PackedColumn.Offsets.Width

/-!
# Column types

A column holds texts or byte strings and delimits them by narrow or wide
offsets, which makes four types, each with a name.

* `ofName?_name`: a name reads back, so no two types share one.
-/

namespace PackedColumn

/-- What the values of a column are. -/
inductive Element where
  /-- UTF-8 text. -/
  | text
  /-- Byte strings without further meaning. -/
  | bytes
  deriving Repr, DecidableEq

/-- The type of a column. -/
structure ColumnType where
  element : Element
  width : OffsetWidth
  deriving Repr, DecidableEq

/-- The word for the elements in the printed form of a column. -/
def Element.label : Element → String
  | text => "String"
  | bytes => "Binary"

namespace ColumnType

/-- The name of the type. -/
def name : ColumnType → String
  | ⟨.text, .narrow⟩ => "utf8"
  | ⟨.text, .wide⟩ => "large_utf8"
  | ⟨.bytes, .narrow⟩ => "binary"
  | ⟨.bytes, .wide⟩ => "large_binary"

/-- The name of the Arrow type with the same layout. -/
def arrowName : ColumnType → String
  | ⟨.text, .narrow⟩ => "Utf8"
  | ⟨.text, .wide⟩ => "LargeUtf8"
  | ⟨.bytes, .narrow⟩ => "Binary"
  | ⟨.bytes, .wide⟩ => "LargeBinary"

/-- All column types. -/
def all : List ColumnType :=
  [⟨.text, .narrow⟩, ⟨.text, .wide⟩, ⟨.bytes, .narrow⟩, ⟨.bytes, .wide⟩]

/-- The type with the given name. -/
def ofName? (s : String) : Option ColumnType := all.find? (·.name == s)

/-- What is said of a name that no type has. -/
def unknownName : String := "Matching variant not found"

theorem mem_all (t : ColumnType) : t ∈ all := by
  obtain ⟨e, w⟩ := t; cases e <;> cases w <;> decide

theorem ofName?_name (t : ColumnType) : ofName? t.name = some t := by
  obtain ⟨e, w⟩ := t; cases e <;> cases w <;> decide

end ColumnType

end PackedColumn
