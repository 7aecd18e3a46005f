import PackedColumn.Json.Token
import PackedColumn.Json.Value
import PackedColumn.Size

/-!
# A plain JSON library

Values are built from tokens with a stack of the lists and records that are
open, and written without blanks; `plain` is reading and writing in this way as
a library.
-/

namespace PackedColumn.Json

/-- A list or record that is open, its parts so far in reverse order. A record waits for the value
of a member. -/
inductive Frame where
  | list (done : List Value)
  | record (done : List (List Piece × Value)) (key : List Piece)

/-- What must come next. -/
inductive Expected where
  /-- A value. -/
  | value
  /-- The first item of a list, or its end. -/
  | firstItem
  /-- The first member of a record, or its end. -/
  | firstMember
  /-- A member of a record that has these already. -/
  | member (done : List (List Piece × Value))
  /-- The colon behind the name of a member. -/
  | colon (done : List (List Piece × Value)) (key : List Piece)
  /-- Nothing more of this value. -/
  | after (v : Value)

namespace Expected

/-- The step at the first token of a value. -/
def begin? (fs : List Frame) : Token → Option (Expected × List Frame)
  | .null => some (after .null, fs)
  | .bool b => some (after (.bool b), fs)
  | .number literal => some (after (.number literal), fs)
  | .text pieces => some (after (.text pieces), fs)
  | .openList => some (firstItem, fs)
  | .openRecord => some (firstMember, fs)
  | _ => none

/-- The step at one token, with the lists and records that are open, the innermost first. -/
def next? : Expected → List Frame → Token → Option (Expected × List Frame)
  | value, fs, t => begin? fs t
  | firstItem, fs, .closeList => some (after (.list []), fs)
  | firstItem, fs, t => begin? (.list [] :: fs) t
  | firstMember, fs, .closeRecord => some (after (.record []), fs)
  | firstMember, fs, .text key => some (colon [] key, fs)
  | member done, fs, .text key => some (colon done key, fs)
  | colon done key, fs, .colon => some (value, .record done key :: fs)
  | after v, .list done :: fs, .comma => some (value, .list (v :: done) :: fs)
  | after v, .list done :: fs, .closeList => some (after (.list (v :: done).reverse), fs)
  | after v, .record done key :: fs, .comma => some (member ((key, v) :: done), fs)
  | after v, .record done key :: fs, .closeRecord =>
    some (after (.record ((key, v) :: done).reverse), fs)
  | _, _, _ => none

end Expected

/-- Builds the value that the rest of the tokens completes. -/
def parseFrom (e : Expected) (fs : List Frame) : List Token → Option Value
  | [] =>
    match e, fs with
    | .after v, [] => some v
    | _, _ => none
  | t :: ts =>
    match e.next? fs t with
    | none => none
    | some (e, fs) => parseFrom e fs ts

namespace Value

/-- The value that a text spells out. -/
def parse? (s : String) : Option Value := (lex? s).bind (parseFrom .value [])

/-! ## Writing -/

/-- The written form of a text in quotes. -/
def writeText (pieces : List Piece) : List Char := '"' :: pieces.flatMap Piece.write ++ ['"']

mutual

/-- The written form of a value, without blanks. -/
def write : Value → List Char
  | null => "null".toList
  | bool true => "true".toList
  | bool false => "false".toList
  | number literal => literal
  | text pieces => writeText pieces
  | list items => '[' :: writeItems items ++ [']']
  | record members => '{' :: writeMembers members ++ ['}']

/-- The written forms of the items of a list, with commas between them. -/
def writeItems : List Value → List Char
  | [] => []
  | [v] => write v
  | v :: w :: vs => write v ++ ',' :: writeItems (w :: vs)

/-- The written forms of the members of a record, with commas between them. -/
def writeMembers : List (List Piece × Value) → List Char
  | [] => []
  | [(k, v)] => writeText k ++ ':' :: write v
  | (k, v) :: m :: ms => writeText k ++ ':' :: write v ++ ',' :: writeMembers (m :: ms)

end

/-- The text of a value, without blanks. -/
def render (v : Value) : String := String.ofList v.write

/-- The value for a text. -/
def ofText (s : String) : Value := text (Piece.ofText s)

/-- The value for a number. -/
def ofNat (n : Nat) : Value := number (Nat.toDigits 10 n)

/-! ## Reading -/

/-- The text that a value is. -/
def text? : Value → Option String
  | text pieces => Piece.text? pieces
  | _ => none

/-- The truth value that a value is. -/
def bool? : Value → Option Bool
  | bool b => some b
  | _ => none

/-- The number that a value is, if it is spelt with digits alone and at most `bound`. -/
def natural? (bound : Nat) : Value → Option Nat
  | number literal =>
    if literal.all Char.isDigit then
      let n := literal.foldl (fun n c => 10 * n + (c.toNat - 48)) 0
      if n ≤ bound then some n else none
    else none
  | _ => none

/-- Reads a value unless it is null. -/
def unlessNull? {α : Type} (read : Value → Option α) : Value → Option (Option α)
  | null => some none
  | v => (read v).map some

/-- The member with the given name, if there is one; a name that occurs twice is an error. -/
def lookup? (name : String) (members : List (String × Value)) : Option (Option Value) :=
  match members.filter (·.1 == name) with
  | [] => some none
  | [m] => some (some m.2)
  | _ => none

/-- The members of a record with their names, if all of these are texts. -/
def named? (members : List (List Piece × Value)) : Option (List (String × Value)) :=
  members.mapM fun m => (Piece.text? m.1).map (·, m.2)

/-- What a value says about the given names: a record gives each at most once, in any order and
among others, and a list gives them by position and may stop early. -/
def fields? (names : List String) : Value → Option (List (Option Value))
  | list items =>
    if items.length ≤ names.length then
      some ((List.range names.length).map fun i => items[i]?)
    else none
  | record members => (named? members).bind fun named => names.mapM (lookup? · named)
  | _ => none

/-- The name that a value is, or that it gives the value null. -/
def name? : Value → Option String
  | text pieces => Piece.text? pieces
  | record [(key, .null)] => Piece.text? key
  | _ => none

end Value

namespace Scalar

/-- The value for a scalar. -/
def toValue : Scalar → Value
  | null => .null
  | truth b => .bool b
  | size n => .ofNat n
  | text s => .ofText s

end Scalar

/-- Texts are cut into tokens, from which values are built; a number is a size if it is spelt with
digits alone. -/
def plain : Library where
  parse? := Value.parse?
  size? := Value.natural? Size.max
  text? := Value.text?
  truth? := Value.bool?
  nullable? := Value.unlessNull?
  variant? names v := v.name?.filter names.contains
  members? := Value.fields?
  member? missing read said := (said.map read).getD missing
  writeScalar x := x.toValue.render
  writeRecord members :=
    (Value.record (members.map fun (name, x) => (Piece.ofText name, x.toValue))).render

end PackedColumn.Json
