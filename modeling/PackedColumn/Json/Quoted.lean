/-!
# Quoted text

The inside of a JSON string literal is a sequence of pieces: characters that
stand for themselves or are escaped by name, and UTF-16 units escaped by
number. It names a text only if its units are scalar values or pairs of a
leading and a trailing surrogate; where the text does not matter, any
sequence of pieces will do.

* `text?_ofText`: a text turned into pieces reads back.
-/

namespace PackedColumn.Json

/-- One piece of a string literal. -/
inductive Piece where
  /-- A character. -/
  | char (c : Char)
  /-- A UTF-16 unit given by its number. -/
  | unit (u : Nat)
  deriving Repr, DecidableEq

namespace Piece

/-- The pieces of a text, one for each character. -/
def ofText (s : String) : List Piece := s.toList.map char

/-- The text that a sequence of pieces names, unless a surrogate stands alone. -/
def chars? : List Piece → Option (List Char)
  | [] => some []
  | char c :: ps => (c :: ·) <$> chars? ps
  | [unit u] => if 0xD800 ≤ u ∧ u < 0xE000 then none else some [Char.ofNat u]
  | unit u :: char c :: ps =>
    if 0xD800 ≤ u ∧ u < 0xE000 then none
    else (Char.ofNat u :: ·) <$> chars? (char c :: ps)
  | unit u :: unit v :: ps =>
    if 0xD800 ≤ u ∧ u < 0xDC00 then
      if 0xDC00 ≤ v ∧ v < 0xE000 then
        (Char.ofNat ((u - 0xD800) * 0x400 + (v - 0xDC00) + 0x10000) :: ·) <$> chars? ps
      else none
    else if 0xDC00 ≤ u ∧ u < 0xE000 then none
    else (Char.ofNat u :: ·) <$> chars? (unit v :: ps)

/-- The text that a sequence of pieces names, unless a surrogate stands alone. -/
def text? (ps : List Piece) : Option String := (chars? ps).map String.ofList

/-- The digit of value `n`, below 16. -/
def hexDigit (n : Nat) : Char := if n < 10 then Char.ofNat (48 + n) else Char.ofNat (87 + n)

/-- The value of a hexadecimal digit. -/
def hexValue? (c : Char) : Option Nat :=
  if '0' ≤ c ∧ c ≤ '9' then some (c.toNat - 48)
  else if 'a' ≤ c ∧ c ≤ 'f' then some (c.toNat - 87)
  else if 'A' ≤ c ∧ c ≤ 'F' then some (c.toNat - 55)
  else none

/-- The four digits of a unit. -/
def hexDigits (u : Nat) : List Char :=
  [hexDigit (u / 0x1000 % 16), hexDigit (u / 0x100 % 16), hexDigit (u / 0x10 % 16), hexDigit (u % 16)]

/-- The character that an escape letter names. -/
def escaped? : Char → Option Char
  | '"' => some '"'
  | '\\' => some '\\'
  | '/' => some '/'
  | 'b' => some '\x08'
  | 'f' => some '\x0c'
  | 'n' => some '\n'
  | 'r' => some '\r'
  | 't' => some '\t'
  | _ => none

/-- The written form of a character: quotes, backslashes and control characters are escaped, by
name where they have one. -/
def writeChar (c : Char) : List Char :=
  match c with
  | '"' => ['\\', '"']
  | '\\' => ['\\', '\\']
  | '\x08' => ['\\', 'b']
  | '\x0c' => ['\\', 'f']
  | '\n' => ['\\', 'n']
  | '\r' => ['\\', 'r']
  | '\t' => ['\\', 't']
  | c => if c.toNat < 0x20 then '\\' :: 'u' :: hexDigits c.toNat else [c]

/-- The written form of a piece. -/
def write : Piece → List Char
  | char c => writeChar c
  | unit u => '\\' :: 'u' :: hexDigits u

theorem chars?_map_char (cs : List Char) : chars? (cs.map char) = some cs := by
  induction cs with
  | nil => rfl
  | cons c cs ih => simp [chars?, ih]

@[simp] theorem text?_ofText (s : String) : text? (ofText s) = some s := by
  simp [text?, ofText, chars?_map_char, String.ofList_toList]

end Piece

end PackedColumn.Json
