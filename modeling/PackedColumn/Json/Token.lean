import PackedColumn.Json.Quoted

/-!
# Tokens

JSON text is cut into tokens from left to right, one character at a time,
and blanks between tokens are dropped. Numbers keep their spelling, and
strings their pieces.

* `lexFrom_nil`, `lexFrom_cons`: one step of the cutting.
-/

namespace PackedColumn.Json

/-- A token of JSON text. -/
inductive Token where
  | openList
  | closeList
  | openRecord
  | closeRecord
  | colon
  | comma
  | null
  | bool (b : Bool)
  | number (literal : List Char)
  | text (pieces : List Piece)
  deriving Repr, DecidableEq

/-- How much of a number has been read: a sign, the only digit 0, digits, a point, digits behind
it, the exponent mark, its sign, or its digits. -/
inductive Numeral where
  | minus
  | zero
  | whole
  | point
  | fraction
  | mark
  | sign
  | exponent
  deriving Repr, DecidableEq

namespace Numeral

/-- What a number starts with. -/
def ofFirst? (c : Char) : Option Numeral :=
  if c = '-' then some minus else if c = '0' then some zero
  else if c.isDigit then some whole else none

/-- What may follow the whole part of a number. -/
def afterWhole? (c : Char) : Option Numeral :=
  if c = '.' then some point else if c = 'e' ∨ c = 'E' then some mark else none

/-- How much has been read with one more character, if it belongs to the number. -/
def next? : Numeral → Char → Option Numeral
  | minus, c => if c = '0' then some zero else if c.isDigit then some whole else none
  | zero, c => afterWhole? c
  | whole, c => if c.isDigit then some whole else afterWhole? c
  | point, c => if c.isDigit then some fraction else none
  | fraction, c =>
    if c.isDigit then some fraction else if c = 'e' ∨ c = 'E' then some mark else none
  | mark, c =>
    if c = '+' ∨ c = '-' then some sign else if c.isDigit then some exponent else none
  | sign, c => if c.isDigit then some exponent else none
  | exponent, c => if c.isDigit then some exponent else none

/-- Whether the number may end here. -/
def complete : Numeral → Bool
  | zero | whole | fraction | exponent => true
  | minus | point | mark | sign => false

end Numeral

/-- Where the cutting stands. What has been read of the token at hand is kept last part first. -/
inductive Lexer where
  | between
  | word (letters : List Char)
  | number (state : Numeral) (literal : List Char)
  | quoted (pieces : List Piece)
  | escape (pieces : List Piece)
  /-- Inside the number of a unit, with `left` digits to come. -/
  | unit (pieces : List Piece) (left value : Nat)
  deriving Repr, DecidableEq

namespace Lexer

/-- The token that a word is. -/
def ofWord? : List Char → Option Token
  | ['n', 'u', 'l', 'l'] => some .null
  | ['t', 'r', 'u', 'e'] => some (.bool true)
  | ['f', 'a', 'l', 's', 'e'] => some (.bool false)
  | _ => none

/-- The tokens completed, and where the cutting stands, at the first character of a token or a
blank. -/
def first? (c : Char) : Option (List Token × Lexer) :=
  match c with
  | ' ' | '\n' | '\t' | '\r' => some ([], between)
  | '[' => some ([.openList], between)
  | ']' => some ([.closeList], between)
  | '{' => some ([.openRecord], between)
  | '}' => some ([.closeRecord], between)
  | ':' => some ([.colon], between)
  | ',' => some ([.comma], between)
  | '"' => some ([], quoted [])
  | c =>
    if c.isLower then some ([], word [c])
    else (Numeral.ofFirst? c).map fun s => ([], number s [c])

/-- The token that ends where nothing more of it comes. -/
def finish? : Lexer → Option (List Token)
  | between => some []
  | word letters => (ofWord? letters.reverse).map ([·])
  | number s literal => if s.complete then some [.number literal.reverse] else none
  | quoted _ | escape _ | unit .. => none

/-- Ends the token at hand and goes on with the first character behind it. -/
def finishWith? (l : Lexer) (c : Char) : Option (List Token × Lexer) := do
  let ended ← l.finish?
  let (begun, l) ← first? c
  return (ended ++ begun, l)

/-- The tokens completed by one more character, and where the cutting stands then. -/
def next? : Lexer → Char → Option (List Token × Lexer)
  | between, c => first? c
  | word letters, c =>
    if c.isLower then some ([], word (c :: letters)) else finishWith? (word letters) c
  | number s literal, c =>
    match s.next? c with
    | some s => some ([], number s (c :: literal))
    | none => finishWith? (number s literal) c
  | quoted ps, c =>
    if c = '"' then some ([.text ps.reverse], between)
    else if c = '\\' then some ([], escape ps)
    else if c.toNat < 0x20 then none
    else some ([], quoted (.char c :: ps))
  | escape ps, c =>
    if c = 'u' then some ([], unit ps 4 0)
    else (Piece.escaped? c).map fun d => ([], quoted (.char d :: ps))
  | unit ps left value, c => do
    let digit ← Piece.hexValue? c
    let value := value * 16 + digit
    if left ≤ 1 then some ([], quoted (.unit value :: ps))
    else some ([], unit ps (left - 1) value)

end Lexer

/-- Cuts the rest of a text; `done` are the tokens so far, the last one first. -/
def lexFrom (done : List Token) (l : Lexer) : List Char → Option (List Token)
  | [] => l.finish?.map fun ended => (ended.reverse ++ done).reverse
  | c :: cs =>
    match l.next? c with
    | none => none
    | some (ended, l) => lexFrom (ended.reverse ++ done) l cs

/-- The tokens of a text, if it can be cut into tokens. -/
def lex? (s : String) : Option (List Token) := lexFrom [] .between s.toList

@[simp] theorem lexFrom_nil (done : List Token) (l : Lexer) :
    lexFrom done l [] = l.finish?.map (done.reverse ++ ·) := by
  simp [lexFrom]

theorem lexFrom_cons {done ended : List Token} {l l' : Lexer} {c : Char} {cs : List Char}
    (h : l.next? c = some (ended, l')) :
    lexFrom done l (c :: cs) = lexFrom (ended.reverse ++ done) l' cs := by
  simp [lexFrom, h]

end PackedColumn.Json
