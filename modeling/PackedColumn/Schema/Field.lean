import PackedColumn.Schema.ColumnType

/-!
# Fields

A field describes a column in a schema: what it is called, what it holds,
and whether slots may be null. It carries no data.
-/

namespace PackedColumn

/-- The description of a column. -/
structure Field where
  name : String
  type : ColumnType
  nullable : Bool := true
  deriving Repr, DecidableEq

end PackedColumn
