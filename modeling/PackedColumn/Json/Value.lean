import PackedColumn.Json.Quoted

/-!
# JSON values

A value keeps all that a JSON text says: the members of a record in order and
with repetitions, the spelling of numbers and the pieces of strings. Texts are
read and written by a library of their own, which also reads and writes
structures from the names of their members (`Library`); nothing else is known
of it here.
-/

namespace PackedColumn.Json

/-- A JSON value. -/
inductive Value where
  | null
  | bool (b : Bool)
  | number (literal : List Char)
  | text (pieces : List Piece)
  | list (items : List Value)
  | record (members : List (List Piece × Value))

/-- A scalar that is to be written. -/
inductive Scalar where
  | null
  | truth (b : Bool)
  | size (n : Nat)
  | text (s : String)
  deriving Repr, DecidableEq

/-- A library that reads JSON texts and writes them. -/
structure Library where
  /-- The value that a text spells out. -/
  parse? : String → Option Value
  /-- The size that a value is. -/
  size? : Value → Option Nat
  /-- The text that a value is. -/
  text? : Value → Option String
  /-- The truth value that a value is. -/
  truth? : Value → Option Bool
  /-- Reads a value that may be null. -/
  nullable? : {α : Type} → (Value → Option α) → Value → Option (Option α)
  /-- The variant that a value is, among those with the given names. -/
  variant? : List String → Value → Option String
  /-- What a value says about the members of a structure, which are given by their names. -/
  members? : List String → Value → Option (List (Option Value))
  /-- Reads a member of a structure of which this is said, or takes what is given for it if nothing
  is said. -/
  member? : {α : Type} → Option α → (Value → Option α) → Option Value → Option α
  /-- The text of a scalar. -/
  writeScalar : Scalar → String
  /-- The text of a structure with the given members. -/
  writeRecord : List (String × Scalar) → String

end PackedColumn.Json
