import PackedColumn.Proofs.Copies

/-!
# Copies of bits, access by access

`Bits.copy?` looks once whether both byte sequences are long enough. Here every
access is looked at by itself, on two ways to copy: bit by bit, and by whole
bytes with the bits left over singly, for bits that start a byte. As soon as
there is a bit to copy, the one look is what the accesses need, no more and no
less, and both ways lead to the same bytes.

* `copySingly?_eq`, `copyWhole?_eq`: when the accesses of a way are all in bounds, and what they
  leave.
* `copy?_eq_checked`: a copy is one of the two ways.
* `copy?_paths_agree`: what a copy leaves in every bit, whichever way it goes.
-/

namespace PackedColumn.Bits

variable {src dst a b : Bytes} {pos i n : Nat}

/-! ## Checked accesses -/

/-- Bit `i` of a byte sequence, if that has the byte. -/
def read? (bytes : Bytes) (i : Nat) : Option Bool := bytes[i / 8]?.map (test · (i % 8))

/-- The byte sequence with bit `i` replaced, if it has the byte. -/
def write? (bytes : Bytes) (i : Nat) (v : Bool) : Option Bytes :=
  if i / 8 < bytes.size then some (put bytes i v) else none

/-- Copies `n` bits singly, from bit `pos + i` of `src` to bit `i` of `dst` and on, as long as both
have them. -/
def copySingly? (src : Bytes) (pos : Nat) (dst : Bytes) (i : Nat) : Nat → Option Bytes
  | 0 => some dst
  | n + 1 => do
    let bit ← read? src (pos + i)
    let dst ← write? dst i bit
    copySingly? src pos dst (i + 1) n

/-- Copies `n` bits from the one that starts byte `pos / 8` of `src`: whole bytes at once, if both
have them, and then the bits left over. -/
def copyWhole? (src : Bytes) (pos : Nat) (dst : Bytes) (n : Nat) : Option Bytes :=
  if pos / 8 + n / 8 ≤ src.size ∧ n / 8 ≤ dst.size then
    copySingly? src pos (dst.write 0 (src.slice (pos / 8) (pos / 8 + n / 8))) (n / 8 * 8) (n % 8)
  else none

theorem read?_of_lt (h : i < 8 * src.size) : read? src i = some (get src i) := by
  have hbyte : i / 8 < src.size := by omega
  rw [read?, get, Array.getElem?_eq_getElem hbyte, Array.getD_eq_getD_getElem?,
    Array.getElem?_eq_getElem hbyte]
  rfl

theorem read?_of_le (h : 8 * src.size ≤ i) : read? src i = none := by
  rw [read?, Array.getElem?_eq_none (by omega)]
  rfl

theorem write?_of_lt (h : i < 8 * dst.size) (v : Bool) : write? dst i v = some (put dst i v) :=
  if_pos (by omega)

theorem write?_of_le (h : 8 * dst.size ≤ i) (v : Bool) : write? dst i v = none :=
  if_neg (by omega)

/-- Byte sequences of one length with the same bits. -/
theorem ext_get (hsize : a.size = b.size) (h : ∀ j, get a j = get b j) : a = b := by
  apply Array.ext hsize
  intro i ha hb
  apply byte_ext
  intro k hk
  have hbit := h (8 * i + k)
  simp only [get, Array.getD_eq_getD_getElem?] at hbit
  rwa [show (8 * i + k) / 8 = i by omega, show (8 * i + k) % 8 = k by omega,
    Array.getElem?_eq_getElem ha, Array.getElem?_eq_getElem hb] at hbit

/-! ## The two ways -/

/-- Bits copied singly are all in bounds exactly if the last one is. -/
theorem copySingly?_eq (hn : 0 < n) : copySingly? src pos dst i n =
    if pos + i + n ≤ 8 * src.size ∧ i + n ≤ 8 * dst.size then some (copyFrom src pos dst i n)
    else none := by
  induction n generalizing dst i with
  | zero => omega
  | succ n ih =>
    rw [copySingly?]
    by_cases hsrc : 8 * src.size ≤ pos + i
    · rw [read?_of_le hsrc, if_neg (by omega)]
      rfl
    rw [read?_of_lt (Nat.lt_of_not_le hsrc), Option.bind_eq_bind, Option.bind_some]
    by_cases hdst : 8 * dst.size ≤ i
    · rw [write?_of_le hdst, if_neg (by omega)]
      rfl
    rw [write?_of_lt (Nat.lt_of_not_le hdst), Option.bind_eq_bind, Option.bind_some]
    rcases Nat.eq_zero_or_pos n with rfl | hpos
    · rw [if_pos (by omega)]
      rfl
    · rw [ih hpos, size_put, copyFrom]
      congr 1
      simp only [eq_iff_iff]
      omega

/-- So are whole bytes with the bits left over. -/
theorem copyWhole?_eq (hpos : pos % 8 = 0) : copyWhole? src pos dst n =
    if pos + n ≤ 8 * src.size ∧ n ≤ 8 * dst.size then
      some (copyFrom src pos (dst.write 0 (src.slice (pos / 8) (pos / 8 + n / 8)))
        (n / 8 * 8) (n % 8))
    else none := by
  rw [copyWhole?]
  rcases Nat.eq_zero_or_pos (n % 8) with hrest | hrest
  · -- Nothing is left over, so the whole bytes decide.
    rw [hrest]
    show (if _ then some _ else none) = _
    congr 1
    simp only [eq_iff_iff]
    omega
  · rw [copySingly?_eq hrest, Bytes.size_write]
    by_cases hwhole : pos / 8 + n / 8 ≤ src.size ∧ n / 8 ≤ dst.size
    · rw [if_pos hwhole]
      congr 1
      simp only [eq_iff_iff]
      omega
    · rw [if_neg hwhole, if_neg (by omega)]

/-- A copy of some bits is the way that it goes, in bounds and out of them. -/
theorem copy?_eq_checked (hn : 0 < n) : copy? src pos dst n =
    if pos % 8 = 0 then copyWhole? src pos dst n else copySingly? src pos dst 0 n := by
  rw [copy?]
  by_cases hpos : pos % 8 = 0
  · rw [if_pos hpos, if_pos hpos, copyWhole?_eq hpos]
  · rw [if_neg hpos, if_neg hpos, copySingly?_eq hn, Nat.add_zero, Nat.zero_add]

/-! ## What they leave -/

/-- In bounds, either way leaves the bits of the source in place of the first ones, and every other
bit as it was. -/
theorem exists_copySingly? (hn : 0 < n) (hsrc : pos + n ≤ 8 * src.size) (hdst : n ≤ 8 * dst.size) :
    ∃ out, copySingly? src pos dst 0 n = some out ∧ out.size = dst.size ∧
      ∀ j, get out j = if j < n then get src (pos + j) else get dst j := by
  refine ⟨copyFrom src pos dst 0 n, ?_, size_copyFrom .., fun j => ?_⟩
  · rw [copySingly?_eq hn, if_pos (by omega)]
  · rw [get_copyFrom (by omega)]
    congr 1
    simp only [eq_iff_iff]
    omega

theorem exists_copyWhole? (hn : 0 < n) (hsrc : pos + n ≤ 8 * src.size) (hdst : n ≤ 8 * dst.size)
    (hpos : pos % 8 = 0) :
    ∃ out, copyWhole? src pos dst n = some out ∧ out.size = dst.size ∧
      ∀ j, get out j = if j < n then get src (pos + j) else get dst j := by
  obtain ⟨out, hout⟩ := exists_copy? hsrc hdst
  have hchecked : copy? src pos dst n = _ := copy?_eq_checked hn
  rw [if_pos hpos, hout] at hchecked
  exact ⟨out, hchecked.symm, size_of_copy? hout, get_copy? hout⟩

/-- A copy of bits that both byte sequences have is done. It leaves the bits of the source in place
of the first ones, and every other bit as it was; and wherever the same bits are copied from, bit by
bit or by whole bytes, they are left so. -/
theorem copy?_paths_agree (hn : 0 < n) (hsrc : pos + n ≤ 8 * src.size)
    (hdst : n ≤ 8 * dst.size) :
    ∃ out, copy? src pos dst n = some out ∧ out.size = dst.size ∧
      (∀ j < n, get out j = get src (pos + j)) ∧ (∀ j, n ≤ j → get out j = get dst j) ∧
      (copy? src pos dst n =
        if pos % 8 = 0 then copyWhole? src pos dst n else copySingly? src pos dst 0 n) ∧
      ∀ (src' : Bytes) (pos' : Nat), pos' + n ≤ 8 * src'.size →
        (∀ j < n, get src' (pos' + j) = get src (pos + j)) →
          copySingly? src' pos' dst 0 n = some out ∧
            (pos' % 8 = 0 → copyWhole? src' pos' dst n = some out) := by
  obtain ⟨out, hout⟩ := exists_copy? hsrc hdst
  have hbits := get_copy? hout
  have hsize := size_of_copy? hout
  refine ⟨out, hout, hsize, fun j hj => ?_, fun j hj => ?_, copy?_eq_checked hn,
    fun src' pos' hsrc' hsame => ?_⟩
  · rw [hbits, if_pos hj]
  · rw [hbits, if_neg (Nat.not_lt_of_le hj)]
  -- The bits of a result say all about it.
  have hunique : ∀ out' : Bytes, out'.size = dst.size →
      (∀ j, get out' j = if j < n then get src' (pos' + j) else get dst j) → out' = out := by
    intro out' hsize' hbits'
    apply ext_get (hsize'.trans hsize.symm)
    intro j
    rw [hbits', hbits]
    split
    · rename_i hj
      exact hsame j hj
    · rfl
  constructor
  · obtain ⟨out', hout', hsize', hbits'⟩ := exists_copySingly? hn hsrc' hdst
    rw [hout', hunique out' hsize' hbits']
  · intro hpos'
    obtain ⟨out', hout', hsize', hbits'⟩ := exists_copyWhole? hn hsrc' hdst hpos'
    rw [hout', hunique out' hsize' hbits']

/-- Thirteen bits up to the last one of the source, over bits of both kinds, and the same thirteen
from the start of another source. -/
theorem copy?_paths_agree_of_unaligned :
    ∃ out, copy? #[0xb6, 0x5d] 3 #[0xff, 0x00] 13 = some out ∧
      (∀ j < 13, get out j = get #[0xb6, 0x5d] (3 + j)) ∧
      (∀ j, 13 ≤ j → get out j = get #[0xff, 0x00] j) ∧
      copyWhole? #[0xb6, 0xab] 0 #[0xff, 0x00] 13 = some out := by
  have hsrc : 3 + 13 ≤ 8 * (#[0xb6, 0x5d] : Bytes).size := by decide
  have hdst : 13 ≤ 8 * (#[0xff, 0x00] : Bytes).size := by decide
  have hsame : ∀ j < 13, get #[0xb6, 0xab] (0 + j) = get #[0xb6, 0x5d] (3 + j) := by decide
  obtain ⟨out, hout, -, hcopied, hkept, -, hpaths⟩ :=
    copy?_paths_agree (show 0 < 13 by decide) hsrc hdst
  obtain ⟨-, hwhole⟩ := hpaths #[0xb6, 0xab] 0 (by decide) hsame
  exact ⟨out, hout, hcopied, hkept, hwhole rfl⟩

end PackedColumn.Bits
