import PackedColumn.Json.Value
import PackedColumn.Schema.Field
import PackedColumn.Schema.Settings

/-!
# The written form of schemas and settings

Settings and fields are structures of named members, which a JSON library
writes and reads; column types are variants with names. The settings have
defaults for all members, and a field for one.
-/

namespace PackedColumn

open Json (Library Scalar Value)

namespace ColumnType

/-- The names of all column types. -/
def names : List String := all.map name

/-- The type as a scalar. -/
def toScalar (t : ColumnType) : Scalar := .text t.name

/-- The type that a value is. -/
def ofValue? (lib : Library) (v : Value) : Option ColumnType :=
  (lib.variant? names v).bind ofName?

/-- The column type that a JSON text names. -/
def parse? (lib : Library) (text : String) : Option ColumnType :=
  (lib.parse? text).bind (ofValue? lib)

/-- The JSON text of a column type. -/
def render (lib : Library) (t : ColumnType) : String := lib.writeScalar t.toScalar

end ColumnType

namespace Field

/-- The names of the members of a field. -/
def members : List String := ["name", "data_type", "nullable"]

/-- The members of a field as scalars. -/
def toScalars (f : Field) : List (String × Scalar) :=
  members.zip [.text f.name, f.type.toScalar, .truth f.nullable]

/-- The field that a value describes, which has to give it a name and a type; it is nullable where
nothing is said. -/
def ofValue? (lib : Library) (v : Value) : Option Field :=
  match lib.members? members v with
  | some [name, type, nullable] => do
    let name ← lib.member? none lib.text? name
    let type ← lib.member? none (ColumnType.ofValue? lib) type
    let nullable ← lib.member? (some true) lib.truth? nullable
    return { name, type, nullable }
  | _ => none

/-- The field that a JSON text describes. -/
def parse? (lib : Library) (text : String) : Option Field :=
  (lib.parse? text).bind (ofValue? lib)

/-- The JSON text of a field. -/
def render (lib : Library) (f : Field) : String := lib.writeRecord f.toScalars

end Field

namespace Settings

/-- The names of the members of settings. -/
def members : List String := ["initial_slot_capacity", "average_value_width", "allocation_limit"]

/-- The members of settings as scalars. -/
def toScalars (s : Settings) : List (String × Scalar) :=
  members.zip
    [.size s.initialSlots, .size s.averageWidth, (s.allocationLimit.map Scalar.size).getD .null]

/-- The settings that a value describes; what is not said is as in the default settings. -/
def ofValue? (lib : Library) (v : Value) : Option Settings :=
  match lib.members? members v with
  | some [slots, width, limit] => do
    let initialSlots ← lib.member? (some default.initialSlots) lib.size? slots
    let averageWidth ← lib.member? (some default.averageWidth) lib.size? width
    let allocationLimit ←
      lib.member? (some default.allocationLimit) (lib.nullable? lib.size?) limit
    return { initialSlots, averageWidth, allocationLimit }
  | _ => none

/-- The settings that a JSON text describes. -/
def parse? (lib : Library) (text : String) : Option Settings :=
  (lib.parse? text).bind (ofValue? lib)

/-- The JSON text of settings. -/
def render (lib : Library) (s : Settings) : String := lib.writeRecord s.toScalars

end Settings

end PackedColumn
