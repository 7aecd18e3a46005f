import PackedColumn.Size
import PackedColumn.Bytes

/-!
# Bits packed in bytes

Bit `i` of a byte sequence is bit `i % 8`, counted from the lowest, of byte
`i / 8`.

* `get_put`: a written bit reads back, and every other bit is as it was.
* `popcount_eq`: the ones of a byte counted in parallel are the ones counted singly.
-/

namespace PackedColumn.Bits

/-- The number of bytes that hold `n` bits. -/
def byteCount (n : Nat) : Nat := n / 8 + if n % 8 = 0 then 0 else 1

/-- Bit `k` of a byte. -/
def test (b : UInt8) (k : Nat) : Bool := b.toBitVec.getLsbD k

/-- The byte with bit `k` replaced. -/
def assign (b : UInt8) (k : Nat) (v : Bool) : UInt8 :=
  .ofBitVec (if v then b.toBitVec ||| .twoPow 8 k else b.toBitVec &&& ~~~.twoPow 8 k)

/-- Bit `i` of a byte sequence; past the end, every bit is unset. -/
def get (bytes : Bytes) (i : Nat) : Bool := test (bytes.getD (i / 8) 0) (i % 8)

/-- The byte sequence with bit `i` replaced. -/
def put (bytes : Bytes) (i : Nat) (v : Bool) : Bytes :=
  bytes.modify (i / 8) (assign · (i % 8) v)

/-- The number of ones in a byte, counted in pairs, then in halves, then in all. -/
def popcount (b : UInt8) : Nat :=
  let pairs := b - (b >>> 1 &&& (0x55 : UInt8))
  let halves := (pairs &&& (0x33 : UInt8)) + (pairs >>> 2 &&& (0x33 : UInt8))
  ((halves + halves >>> 4) &&& (0x0f : UInt8)).toNat

/-- The number of ones among the `n` bits from bit `i` on. -/
def countFrom (bytes : Bytes) (i n : Nat) : Nat :=
  (List.range' i n).countP (get bytes)

/-- The number of ones among the first `n` bits: whole bytes at once, then the bits left over. -/
def count (bytes : Bytes) (n : Nat) : Nat :=
  Size.total ((bytes.slice 0 (n / 8)).map popcount) + countFrom bytes (n / 8 * 8) (n % 8)

/-- Copies `n` bits singly, from bit `pos + i` of `src` to bit `i` of `dst` and on. -/
def copyFrom (src : Bytes) (pos : Nat) (dst : Bytes) (i : Nat) : Nat → Bytes
  | 0 => dst
  | n + 1 => copyFrom src pos (put dst i (get src (pos + i))) (i + 1) n

/-- Copies `n` bits, from bit `pos` of `src` on to the start of `dst`, if both have them. Bits that
start a byte are copied by whole bytes, and the bits left over singly. -/
def copy? (src : Bytes) (pos : Nat) (dst : Bytes) (n : Nat) : Option Bytes :=
  if pos + n ≤ 8 * src.size ∧ n ≤ 8 * dst.size then
    if pos % 8 = 0 then
      let whole := dst.write 0 (src.slice (pos / 8) (pos / 8 + n / 8))
      some (copyFrom src pos whole (n / 8 * 8) (n % 8))
    else some (copyFrom src pos dst 0 n)
  else none

/-- The bits of a byte sequence in order. -/
def toList (bytes : Bytes) : List Bool := (List.range (8 * bytes.size)).map (get bytes)

/-! ## Single bits -/

@[simp] theorem size_put (bytes : Bytes) (i : Nat) (v : Bool) :
    (put bytes i v).size = bytes.size := by simp [put]

theorem test_assign (b : UInt8) {k : Nat} (hk : k < 8) (v : Bool) (j : Nat) :
    test (assign b k v) j = if j = k then v else test b j := by
  unfold test assign
  by_cases hj : j = k
  · subst hj; cases v <;> simp [hk]
  · cases v
    · by_cases h8 : j < 8
      · simp [hj, h8]
      · rw [BitVec.getLsbD_of_ge _ _ (by omega), BitVec.getLsbD_of_ge _ _ (by omega)]; simp [hj]
    · simp [hj, Ne.symm hj]

theorem get_put {bytes : Bytes} {i : Nat} (hi : i < 8 * bytes.size) (v : Bool) (j : Nat) :
    get (put bytes i v) j = if j = i then v else get bytes j := by
  have hb : i / 8 < bytes.size := by omega
  unfold get put
  by_cases h : j / 8 = i / 8
  · rw [h]
    simp only [Array.getD_eq_getD_getElem?, Array.getElem?_modify, if_true,
      Array.getElem?_eq_getElem hb, Option.map_some, Option.getD_some]
    rw [test_assign _ (Nat.mod_lt _ (by omega))]
    by_cases hji : j = i
    · simp [hji]
    · rw [if_neg (by omega), if_neg hji]
  · rw [if_neg (by rintro rfl; exact h rfl)]
    simp only [Array.getD_eq_getD_getElem?, Array.getElem?_modify]
    rw [if_neg (fun hh => h hh.symm)]

@[simp] theorem size_copyFrom (src : Bytes) (pos : Nat) (dst : Bytes) (i n : Nat) :
    (copyFrom src pos dst i n).size = dst.size := by
  induction n generalizing dst i with
  | zero => rfl
  | succ n ih => simp [copyFrom, ih]

theorem size_of_copy? {src dst out : Bytes} {pos n : Nat} (h : copy? src pos dst n = some out) :
    out.size = dst.size := by
  unfold copy? at h
  split at h
  · split at h <;> (cases h; simp)
  · cases h

theorem popcount_eq (b : UInt8) : popcount b = (List.range 8).countP (test b) := by
  have h : ∀ n : Fin 256, popcount (.ofBitVec (.ofFin n)) =
      (List.range 8).countP (test (.ofBitVec (.ofFin n))) := by decide +kernel
  exact h b.toFin

end PackedColumn.Bits
