/-!
# UTF-8

Decoding a byte string character by character. A fault names the number of
good bytes before it and the bytes that make it: 1, 2 or 3 of them when they
start no character, or all that is left when the string ends inside one.

* `decode_nil`: the empty string decodes to no characters.
* `fault?_eq_none_iff`: a byte string without a fault is one that decodes.
-/

namespace PackedColumn.Utf8

/-- Where and how a byte string stops being UTF-8. -/
structure Fault where
  /-- The number of bytes before the fault, all of them good. -/
  position : Nat
  /-- How many bytes can start no character; none if the string ends inside a character. -/
  length : Option Nat
  deriving Repr, DecidableEq

/-- The text of the fault. -/
def Fault.message (f : Fault) : String :=
  match f.length with
  | some n =>
    "invalid utf-8 sequence of " ++ toString n ++ " bytes from index " ++ toString f.position
  | none => "incomplete utf-8 byte sequence from index " ++ toString f.position

/-- What the first byte of a character says about the rest: the range of the byte that must
follow, how many plain continuation bytes come after that one, and the bits of the character that
the first byte holds. -/
structure Lead where
  low : UInt8
  high : UInt8
  more : Nat
  bits : Nat
  deriving Repr, DecidableEq

/-- The meaning of the first byte of a character of two to four bytes. -/
def Lead.ofByte? (b : UInt8) : Option Lead :=
  if b < 0xC2 then none
  else if b ≤ 0xDF then some ⟨0x80, 0xBF, 0, b.toNat - 0xC0⟩
  else if b = 0xE0 then some ⟨0xA0, 0xBF, 1, 0⟩
  else if b = 0xED then some ⟨0x80, 0x9F, 1, 0xD⟩
  else if b ≤ 0xEF then some ⟨0x80, 0xBF, 1, b.toNat - 0xE0⟩
  else if b = 0xF0 then some ⟨0x90, 0xBF, 2, 0⟩
  else if b ≤ 0xF3 then some ⟨0x80, 0xBF, 2, b.toNat - 0xF0⟩
  else if b = 0xF4 then some ⟨0x80, 0x8F, 2, 4⟩
  else none

/-- Where decoding stands between two bytes. -/
inductive State where
  /-- At the start of a character. -/
  | start
  /-- After `seen` bytes of a character: the next byte is in the given range, and `more` plain
  continuation bytes follow it. `bits` is the character as far as it is known. -/
  | inside (low high : UInt8) (more seen bits : Nat)
  deriving Repr, DecidableEq

/-- Decodes the rest of a byte string; `pos` bytes are good, and their characters are `done`, the
last one first. -/
def decodeFrom (pos : Nat) (done : List Char) : State → List UInt8 → Except Fault (List Char)
  | .start, [] => .ok done.reverse
  | .inside .., [] => .error ⟨pos, none⟩
  | .start, b :: bs =>
    if b < 0x80 then decodeFrom (pos + 1) (Char.ofNat b.toNat :: done) .start bs
    else
      match Lead.ofByte? b with
      | none => .error ⟨pos, some 1⟩
      | some l => decodeFrom pos done (.inside l.low l.high l.more 1 l.bits) bs
  | .inside low high more seen bits, b :: bs =>
    if low ≤ b ∧ b ≤ high then
      let bits := bits * 64 + b.toNat % 64
      match more with
      | 0 => decodeFrom (pos + seen + 1) (Char.ofNat bits :: done) .start bs
      | more + 1 => decodeFrom pos done (.inside 0x80 0xBF more (seen + 1) bits) bs
    else .error ⟨pos, some seen⟩

/-- The characters that a byte string encodes, or its first fault. -/
def decode (bytes : List UInt8) : Except Fault (List Char) := decodeFrom 0 [] .start bytes

/-- The text that a byte string encodes, or its first fault. -/
def text (bytes : List UInt8) : Except Fault String := (decode bytes).map String.ofList

/-- The first fault of a byte string, if it is not UTF-8. -/
def fault? (bytes : List UInt8) : Option Fault :=
  match decode bytes with
  | .ok _ => none
  | .error f => some f

@[simp] theorem decode_nil : decode [] = .ok [] := rfl

theorem fault?_eq_none_iff {bytes : List UInt8} :
    fault? bytes = none ↔ ∃ cs, decode bytes = .ok cs := by
  unfold fault?; split <;> simp [*]

theorem fault?_eq_some_iff {bytes : List UInt8} {f : Fault} :
    fault? bytes = some f ↔ decode bytes = .error f := by
  unfold fault?; split <;> simp [*]

end PackedColumn.Utf8
