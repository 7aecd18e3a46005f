import PackedColumn.Json.Token
import PackedColumn.Json.Value

/-!
# JSON texts

A JSON text is a sequence of tokens, each in one of its spellings, with blanks
before, between and after them (`Spaced`), and spells out the value that has
these tokens (`Value.Spells`). This is stated without a machine that reads or
writes texts.
-/

namespace PackedColumn.Json

/-! ## Spellings -/

/-- A piece of a string literal: a character as it is or escaped by name, or a unit by the four
digits of its number. -/
inductive Piece.Spelt : Piece → List Char → Prop
  | plain {c : Char} : 0x20 ≤ c.toNat → c ≠ '"' → c ≠ '\\' → Spelt (char c) [c]
  | escape {e c : Char} : escaped? e = some c → Spelt (char c) ['\\', e]
  | unit {a b c d : Char} {i j k l : Nat} :
    hexValue? a = some i → hexValue? b = some j → hexValue? c = some k → hexValue? d = some l →
    Spelt (unit (((i * 16 + j) * 16 + k) * 16 + l)) ['\\', 'u', a, b, c, d]

/-- The inside of a string literal. -/
inductive Piece.AllSpelt : List Piece → List Char → Prop
  | nil : AllSpelt [] []
  | cons {p : Piece} {ps : List Piece} {cs ds : List Char} :
    p.Spelt cs → AllSpelt ps ds → AllSpelt (p :: ps) (cs ++ ds)

/-- Digits, at least one. -/
def Digits (cs : List Char) : Prop := cs ≠ [] ∧ ∀ c ∈ cs, c.isDigit

/-- The whole part of a number: 0, or digits that do not start with it. -/
inductive Whole : List Char → Prop
  | zero : Whole ['0']
  | digits {c : Char} {cs : List Char} :
    c.isDigit → c ≠ '0' → (∀ d ∈ cs, d.isDigit) → Whole (c :: cs)

/-- The part of a number behind the point, or none. -/
inductive Fraction : List Char → Prop
  | none : Fraction []
  | digits {cs : List Char} : Digits cs → Fraction ('.' :: cs)

/-- The exponent of a number, or none. -/
inductive Exponent : List Char → Prop
  | none : Exponent []
  | digits {mark : Char} {sign cs : List Char} :
    mark ∈ ['e', 'E'] → sign ∈ [[], ['+'], ['-']] → Digits cs → Exponent (mark :: (sign ++ cs))

/-- A number literal. -/
inductive IsNumber : List Char → Prop
  | mk {sign whole fraction exponent : List Char} : sign ∈ [[], ['-']] → Whole whole →
    Fraction fraction → Exponent exponent → IsNumber (sign ++ (whole ++ (fraction ++ exponent)))

/-- A token is spelt by these characters. -/
inductive Token.Spelt : Token → List Char → Prop
  | openList : Spelt .openList ['[']
  | closeList : Spelt .closeList [']']
  | openRecord : Spelt .openRecord ['{']
  | closeRecord : Spelt .closeRecord ['}']
  | colon : Spelt .colon [':']
  | comma : Spelt .comma [',']
  | null : Spelt .null ['n', 'u', 'l', 'l']
  | true : Spelt (.bool true) ['t', 'r', 'u', 'e']
  | false : Spelt (.bool false) ['f', 'a', 'l', 's', 'e']
  | number {cs : List Char} : IsNumber cs → Spelt (.number cs) cs
  | text {ps : List Piece} {cs : List Char} :
    Piece.AllSpelt ps cs → Spelt (.text ps) ('"' :: (cs ++ ['"']))

/-- The characters that may stand between tokens. -/
def blanks : List Char := [' ', '\n', '\t', '\r']

/-- Tokens with blanks before, between and after them. -/
inductive Spaced : List Token → List Char → Prop
  | nil {bs : List Char} : bs ⊆ blanks → Spaced [] bs
  | cons {t : Token} {ts : List Token} {bs cs ds : List Char} :
    bs ⊆ blanks → t.Spelt cs → Spaced ts ds → Spaced (t :: ts) (bs ++ (cs ++ ds))

namespace Value

mutual

/-- The tokens of a value. -/
def tokens : Value → List Token
  | null => [.null]
  | bool b => [.bool b]
  | number literal => [.number literal]
  | text pieces => [.text pieces]
  | list items => .openList :: (itemTokens items ++ [.closeList])
  | record members => .openRecord :: (memberTokens members ++ [.closeRecord])

/-- The tokens of the items of a list, with commas between them. -/
def itemTokens : List Value → List Token
  | [] => []
  | [v] => tokens v
  | v :: w :: vs => tokens v ++ .comma :: itemTokens (w :: vs)

/-- The tokens of the members of a record, with commas between them. -/
def memberTokens : List (List Piece × Value) → List Token
  | [] => []
  | [(k, v)] => .text k :: .colon :: tokens v
  | (k, v) :: m :: ms => .text k :: .colon :: (tokens v ++ .comma :: memberTokens (m :: ms))

end

/-- A text spells out a value: its tokens, with blanks anywhere between them. -/
def Spells (v : Value) (s : String) : Prop := Spaced v.tokens s.toList

end Value

end PackedColumn.Json
