import PackedColumn.Bytes
import PackedColumn.Text.Utf8

/-!
# Decoding and encoding texts

The decoder accepts a byte string exactly when it is the encoding of a text,
and then gives that text back. A character of more than one byte is a lead
byte and six bits of the character in each of the bytes behind it
(`continuation`), so both directions come down to one fact about lead bytes:
with the bits and the range that a lead byte leaves for the next byte, the
number is a character whose encoding starts with it.

* `Lead.ofByte?_eq`: the lead bytes by their numbers.
* `decodeFrom_continuation`, `exists_continuation`: the bytes behind a lead byte.
* `Lead.encodes`, `exists_lead`: lead bytes and encodings.
* `decode_eq_ok_iff`, `text_eq_ok_iff`: decoding is the inverse of encoding.
-/

namespace PackedColumn.Utf8

/-- The low `n` groups of six bits of a number as continuation bytes, highest first. -/
def continuation (v : Nat) : Nat → List UInt8
  | 0 => []
  | n + 1 => .ofNat (v / Nat.pow 64 n % 64 + 0x80) :: continuation v n

/-- The characters of a list, encoded one behind the other. -/
def encode (cs : List Char) : List UInt8 := cs.flatMap String.utf8EncodeChar

variable {pos seen bits v : Nat} {done cs : List Char} {low high : UInt8} {rest bs : List UInt8}

/-! ## Bytes behind the lead byte -/

theorem toNat_byte {m : Nat} (h : m < 256) : (UInt8.ofNat m).toNat = m := by
  rw [UInt8.toNat_ofNat', Nat.mod_eq_of_lt h]

theorem toNat_group (m : Nat) : (UInt8.ofNat (m % 64 + 0x80)).toNat = m % 64 + 0x80 :=
  toNat_byte (by omega)

theorem length_continuation (v n : Nat) : (continuation v n).length = n := by
  induction n with
  | zero => rfl
  | succ n ih => rw [continuation, List.length_cons, ih]

theorem div_pow_succ (v n : Nat) : v / Nat.pow 64 (n + 1) = v / Nat.pow 64 n / 64 := by
  rw [Nat.pow_eq, Nat.pow_eq, Nat.pow_succ, Nat.div_div_eq_div_mul]

/-- The range of the first continuation byte of a number. -/
def Follows (v n : Nat) (low high : UInt8) : Prop :=
  low.toNat ≤ v / Nat.pow 64 n % 64 + 0x80 ∧ v / Nat.pow 64 n % 64 + 0x80 ≤ high.toNat

theorem follows_continuation (v n : Nat) : Follows v n 0x80 0xBF := by
  show 0x80 ≤ _ ∧ _ ≤ 0xBF
  omega

/-- A range that is narrower in some cases. -/
theorem follows_narrowed {v n : Nat} {p q : Prop} [Decidable p] [Decidable q]
    (hlow : p → low.toNat ≤ v / Nat.pow 64 n % 64 + 0x80)
    (hhigh : q → v / Nat.pow 64 n % 64 + 0x80 ≤ high.toNat) :
    Follows v n (if p then low else 0x80) (if q then high else 0xBF) := by
  obtain ⟨hleast, hmost⟩ := follows_continuation v n
  constructor
  · split
    · exact hlow ‹_›
    · exact hleast
  · split
    · exact hhigh ‹_›
    · exact hmost

/-- The next continuation byte is in its range and adds six bits. -/
theorem step_of_follows {n : Nat} (hbits : v / Nat.pow 64 (n + 1) = bits)
    (hrange : Follows v n low high) :
    (low ≤ .ofNat (v / Nat.pow 64 n % 64 + 0x80) ∧ .ofNat (v / Nat.pow 64 n % 64 + 0x80) ≤ high) ∧
      bits * 64 + (UInt8.ofNat (v / Nat.pow 64 n % 64 + 0x80)).toNat % 64 = v / Nat.pow 64 n := by
  rw [UInt8.le_iff_toNat_le, UInt8.le_iff_toNat_le, toNat_group, ← hbits, div_pow_succ]
  exact ⟨hrange, by omega⟩

/-- The continuation bytes complete a number of which the bits before them are known. -/
theorem decodeFrom_continuation {n : Nat} (hbits : v / Nat.pow 64 (n + 1) = bits)
    (hrange : Follows v n low high) :
    decodeFrom pos done (.inside low high n seen bits) (continuation v (n + 1) ++ rest) =
      decodeFrom (pos + seen + n + 1) (Char.ofNat v :: done) .start rest := by
  induction n generalizing low high seen bits with
  | zero =>
    have hnext := step_of_follows hbits hrange
    rw [continuation, continuation, List.cons_append, decodeFrom, if_pos hnext.1]
    dsimp only
    rw [hnext.2, Nat.pow_eq, Nat.pow_zero, Nat.div_one]
    rfl
  | succ n ih =>
    have hnext := step_of_follows hbits hrange
    rw [continuation, List.cons_append, decodeFrom, if_pos hnext.1]
    dsimp only
    rw [hnext.2, ih rfl (follows_continuation v n)]
    congr 1
    omega

/-- Behind a lead byte the decoder finds the continuation bytes of some number, or a fault. -/
theorem exists_continuation {n : Nat} (hlow : 0x80 ≤ low.toNat) (hhigh : high.toNat ≤ 0xBF)
    (h : decodeFrom pos done (.inside low high n seen bits) bs = .ok cs) :
    ∃ v rest, bs = continuation v (n + 1) ++ rest ∧ v / Nat.pow 64 (n + 1) = bits ∧
      Follows v n low high ∧
      decodeFrom (pos + seen + n + 1) (Char.ofNat v :: done) .start rest = .ok cs := by
  induction n generalizing low high seen bits bs with
  | zero =>
    cases bs with
    | nil => cases h
    | cons b bs =>
      rw [decodeFrom] at h
      split at h
      · rename_i hb
        rw [UInt8.le_iff_toNat_le, UInt8.le_iff_toNat_le] at hb
        have hone : (bits * 64 + b.toNat % 64) / Nat.pow 64 0 = bits * 64 + b.toNat % 64 :=
          Nat.div_one _
        have hgroup : (bits * 64 + b.toNat % 64) / Nat.pow 64 0 % 64 + 0x80 = b.toNat := by
          rw [hone]
          omega
        refine ⟨bits * 64 + b.toNat % 64, bs, ?_, ?_, ?_, h⟩
        · rw [continuation, hgroup, UInt8.ofNat_toNat]
          rfl
        · rw [div_pow_succ, hone]
          omega
        · rw [Follows, hgroup]
          exact hb
      · cases h
  | succ n ih =>
    cases bs with
    | nil => cases h
    | cons b bs =>
      rw [decodeFrom] at h
      split at h
      · rename_i hb
        rw [UInt8.le_iff_toNat_le, UInt8.le_iff_toNat_le] at hb
        obtain ⟨v, rest, hbs, hv, -, hrest⟩ := ih (by decide) (by decide) h
        have hgroup : v / Nat.pow 64 (n + 1) % 64 + 0x80 = b.toNat := by omega
        refine ⟨v, rest, ?_, ?_, ?_, ?_⟩
        · rw [continuation, hgroup, UInt8.ofNat_toNat, hbs, List.cons_append]
        · rw [div_pow_succ, hv]
          omega
        · rw [Follows, hgroup]
          exact hb
        · rw [← hrest]
          congr 1
          omega
      · cases h

/-! ## Lead bytes -/

/-- The lead bytes of characters of two, three and four bytes. After four of them the next byte has a
narrower range, which keeps out numbers that fewer bytes encode, surrogates, and numbers too large. -/
theorem Lead.ofByte?_eq (b : UInt8) : Lead.ofByte? b =
    if b.toNat < 0xC2 then none
    else if b.toNat < 0xE0 then some ⟨0x80, 0xBF, 0, b.toNat - 0xC0⟩
    else if b.toNat < 0xF0 then
      some ⟨if b.toNat = 0xE0 then 0xA0 else 0x80, if b.toNat = 0xED then 0x9F else 0xBF, 1,
        b.toNat - 0xE0⟩
    else if b.toNat < 0xF5 then
      some ⟨if b.toNat = 0xF0 then 0x90 else 0x80, if b.toNat = 0xF4 then 0x8F else 0xBF, 2,
        b.toNat - 0xF0⟩
    else none := by
  have h : ∀ n : Fin 256, Lead.ofByte? (.ofBitVec (.ofFin n)) =
      if n.val < 0xC2 then none
      else if n.val < 0xE0 then some ⟨0x80, 0xBF, 0, n.val - 0xC0⟩
      else if n.val < 0xF0 then
        some ⟨if n.val = 0xE0 then 0xA0 else 0x80, if n.val = 0xED then 0x9F else 0xBF, 1,
          n.val - 0xE0⟩
      else if n.val < 0xF5 then
        some ⟨if n.val = 0xF0 then 0x90 else 0x80, if n.val = 0xF4 then 0x8F else 0xBF, 2,
          n.val - 0xF0⟩
      else none := by decide +kernel
  exact h b.toFin

theorem Lead.range {b : UInt8} {l : Lead} (h : ofByte? b = some l) :
    0x80 ≤ l.low.toNat ∧ l.high.toNat ≤ 0xBF := by
  have hall : ∀ n : Fin 256, ∀ l ∈ ofByte? (.ofBitVec (.ofFin n)),
      0x80 ≤ l.low.toNat ∧ l.high.toNat ≤ 0xBF := by decide +kernel
  exact hall b.toFin l h

theorem toNat_ofNat (h : v.isValidChar) : (Char.ofNat v).val.toNat = v := by
  rw [Char.ofNat, dif_pos h]
  rfl

/-! ## Characters by the length of their encoding -/

theorem encode_one (h : v < 0x80) : String.utf8EncodeChar (Char.ofNat v) = [.ofNat v] := by
  rw [String.utf8EncodeChar, toNat_ofNat (.inl (by omega)), if_pos (by omega)]

theorem encode_two (h : 0x80 ≤ v) (h' : v < 0x800) :
    String.utf8EncodeChar (Char.ofNat v) = .ofNat (v / 64 + 0xC0) :: continuation v 1 := by
  have hone : v / Nat.pow 64 0 = v := Nat.div_one v
  rw [String.utf8EncodeChar, toNat_ofNat (.inl (by omega))]
  rw [if_neg (by omega), if_pos (by omega), show v / 64 % 0x20 = v / 64 by omega, continuation,
    hone]
  rfl

theorem encode_three (h : 0x800 ≤ v) (h' : v < 0x10000) (hv : v.isValidChar) :
    String.utf8EncodeChar (Char.ofNat v) = .ofNat (v / 4096 + 0xE0) :: continuation v 2 := by
  have hone : v / Nat.pow 64 0 = v := Nat.div_one v
  rw [String.utf8EncodeChar, toNat_ofNat hv]
  rw [if_neg (by omega), if_neg (by omega), if_pos (by omega),
    show v / 4096 % 0x10 = v / 4096 by omega, continuation, continuation, hone]
  rfl

theorem encode_four (h : 0x10000 ≤ v) (h' : v < 0x110000) :
    String.utf8EncodeChar (Char.ofNat v) = .ofNat (v / 262144 + 0xF0) :: continuation v 3 := by
  have hone : v / Nat.pow 64 0 = v := Nat.div_one v
  rw [String.utf8EncodeChar, toNat_ofNat (.inr (by omega))]
  rw [if_neg (by omega), if_neg (by omega), if_neg (by omega),
    show v / 262144 % 0x08 = v / 262144 by omega, continuation, continuation, continuation, hone]
  rfl

theorem Lead.not_lt_of_ofByte? {b : UInt8} {l : Lead} (h : ofByte? b = some l) : ¬ b < 0x80 := by
  rw [ofByte?_eq] at h
  split at h
  · cases h
  · rw [UInt8.lt_iff_toNat_lt]
    show ¬ b.toNat < 0x80
    omega

/-- A lead byte and the continuation bytes of a number that has its bits encode that number, which is
one of a character. -/
theorem Lead.encodes {b : UInt8} {l : Lead} (h : ofByte? b = some l)
    (hbits : v / Nat.pow 64 (l.more + 1) = l.bits) (hrange : Follows v l.more l.low l.high) :
    String.utf8EncodeChar (Char.ofNat v) = b :: continuation v (l.more + 1) := by
  rw [ofByte?_eq] at h
  split at h
  · cases h
  split at h
  · cases h
    have hlead : v / 64 = b.toNat - 0xC0 := hbits
    rw [encode_two (by omega) (by omega), show v / 64 + 0xC0 = b.toNat by omega, UInt8.ofNat_toNat]
  split at h
  · cases h
    obtain ⟨hlow, hhigh⟩ := hrange
    have hlead : v / 4096 = b.toNat - 0xE0 := hbits
    have hshort : b.toNat = 0xE0 → 0xA0 ≤ v / 64 % 64 + 0x80 := fun hb => by rwa [if_pos hb] at hlow
    have hsurrogate : b.toNat = 0xED → v / 64 % 64 + 0x80 ≤ 0x9F := fun hb => by
      rwa [if_pos hb] at hhigh
    have hvalid : v.isValidChar := by
      unfold Nat.isValidChar
      omega
    rw [encode_three (by omega) (by omega) hvalid, show v / 4096 + 0xE0 = b.toNat by omega,
      UInt8.ofNat_toNat]
  split at h
  · cases h
    obtain ⟨hlow, hhigh⟩ := hrange
    have hlead : v / 262144 = b.toNat - 0xF0 := hbits
    have hshort : b.toNat = 0xF0 → 0x90 ≤ v / 4096 % 64 + 0x80 := fun hb => by
      rwa [if_pos hb] at hlow
    have hlarge : b.toNat = 0xF4 → v / 4096 % 64 + 0x80 ≤ 0x8F := fun hb => by
      rwa [if_pos hb] at hhigh
    rw [encode_four (by omega) (by omega), show v / 262144 + 0xF0 = b.toNat by omega,
      UInt8.ofNat_toNat]
  · cases h

/-- The encoding of a character of more than one byte starts with a lead byte that leaves its bits and
the range of its next byte. -/
theorem exists_lead (hv : v.isValidChar) (h : 0x80 ≤ v) : ∃ b l, Lead.ofByte? b = some l ∧
    v / Nat.pow 64 (l.more + 1) = l.bits ∧ Follows v l.more l.low l.high ∧
    String.utf8EncodeChar (Char.ofNat v) = b :: continuation v (l.more + 1) := by
  unfold Nat.isValidChar at hv
  rcases Nat.lt_or_ge v 0x800 with htwo | htwo
  · have hlead := Lead.ofByte?_eq (.ofNat (v / 64 + 0xC0))
    rw [toNat_byte (by omega), if_neg (by omega), if_pos (by omega), Nat.add_sub_cancel] at hlead
    exact ⟨_, _, hlead, rfl, follows_continuation v 0, encode_two h htwo⟩
  rcases Nat.lt_or_ge v 0x10000 with hthree | hthree
  · have hlead := Lead.ofByte?_eq (.ofNat (v / 4096 + 0xE0))
    rw [toNat_byte (by omega), if_neg (by omega), if_neg (by omega), if_pos (by omega),
      Nat.add_sub_cancel] at hlead
    have hshort : v / 4096 + 0xE0 = 0xE0 → 0xA0 ≤ v / 64 % 64 + 0x80 := by omega
    have hsurrogate : v / 4096 + 0xE0 = 0xED → v / 64 % 64 + 0x80 ≤ 0x9F := by omega
    exact ⟨_, _, hlead, rfl, follows_narrowed hshort hsurrogate,
      encode_three htwo hthree (by unfold Nat.isValidChar; omega)⟩
  · have hlead := Lead.ofByte?_eq (.ofNat (v / 262144 + 0xF0))
    rw [toNat_byte (by omega), if_neg (by omega), if_neg (by omega), if_neg (by omega),
      if_pos (by omega), Nat.add_sub_cancel] at hlead
    have hshort : v / 262144 + 0xF0 = 0xF0 → 0x90 ≤ v / 4096 % 64 + 0x80 := by omega
    have hlarge : v / 262144 + 0xF0 = 0xF4 → v / 4096 % 64 + 0x80 ≤ 0x8F := by omega
    exact ⟨_, _, hlead, rfl, follows_narrowed hshort hlarge, encode_four hthree (by omega)⟩

/-! ## Whole texts -/

theorem decodeFrom_encodeChar (pos : Nat) (done : List Char) (c : Char) (rest : List UInt8) :
    decodeFrom pos done .start (String.utf8EncodeChar c ++ rest) =
      decodeFrom (pos + (String.utf8EncodeChar c).length) (c :: done) .start rest := by
  obtain ⟨v, hv, rfl⟩ : ∃ v : Nat, v.isValidChar ∧ Char.ofNat v = c :=
    ⟨c.toNat, c.valid, Char.ofNat_toNat c⟩
  rcases Nat.lt_or_ge v 0x80 with hone | hmore
  · have hb : (UInt8.ofNat v).toNat = v := toNat_byte (by omega)
    have hlt : UInt8.ofNat v < 0x80 := by
      rw [UInt8.lt_iff_toNat_lt, hb]
      exact hone
    rw [encode_one hone, List.singleton_append, decodeFrom, if_pos hlt, hb]
    rfl
  · obtain ⟨b, l, hlead, hbits, hrange, hencode⟩ := exists_lead hv hmore
    rw [hencode, List.cons_append, decodeFrom, if_neg (Lead.not_lt_of_ofByte? hlead)]
    simp only [hlead]
    rw [decodeFrom_continuation hbits hrange, List.length_cons, length_continuation]
    congr 1
    omega

theorem decodeFrom_encode (pos : Nat) (done cs : List Char) :
    decodeFrom pos done .start (encode cs) = .ok (done.reverse ++ cs) := by
  induction cs generalizing pos done with
  | nil => rw [List.append_nil]; rfl
  | cons c cs ih =>
    rw [encode, List.flatMap_cons, decodeFrom_encodeChar]
    refine (ih _ _).trans ?_
    rw [List.reverse_cons, List.append_assoc]
    rfl

/-- What the decoder accepts is the encoding of the characters it gives. -/
theorem exists_encode (h : decodeFrom pos done .start bs = .ok cs) :
    ∃ ds, cs = done.reverse ++ ds ∧ bs = encode ds := by
  generalize hn : bs.length = n
  induction n using Nat.strongRecOn generalizing pos done bs with
  | _ n ih =>
  cases bs with
  | nil =>
    cases h
    exact ⟨[], (List.append_nil _).symm, rfl⟩
  | cons b bs =>
    rw [decodeFrom] at h
    split at h
    · rename_i hone
      obtain ⟨ds, hcs, hbs⟩ := ih bs.length (by rw [← hn]; exact Nat.lt_succ_self _) h rfl
      refine ⟨Char.ofNat b.toNat :: ds, ?_, ?_⟩
      · rw [hcs, List.reverse_cons, List.append_assoc]
        rfl
      · rw [UInt8.lt_iff_toNat_lt] at hone
        rw [hbs, encode, encode, List.flatMap_cons, encode_one hone, UInt8.ofNat_toNat]
        rfl
    · split at h
      · cases h
      · rename_i l hlead
        obtain ⟨hlow, hhigh⟩ := Lead.range hlead
        obtain ⟨v, rest, hbs, hbits, hrange, hrest⟩ := exists_continuation hlow hhigh h
        have hlt : rest.length < n := by
          rw [← hn, hbs, List.length_cons, List.length_append]
          omega
        obtain ⟨ds, hcs, hds⟩ := ih rest.length hlt hrest rfl
        refine ⟨Char.ofNat v :: ds, ?_, ?_⟩
        · rw [hcs, List.reverse_cons, List.append_assoc]
          rfl
        · rw [hbs, hds, encode, encode, List.flatMap_cons, Lead.encodes hlead hbits hrange]
          rfl

theorem decode_eq_ok_iff : decode bs = .ok cs ↔ bs = encode cs := by
  refine ⟨fun h => ?_, fun h => h ▸ decodeFrom_encode 0 [] cs⟩
  obtain ⟨ds, rfl, hds⟩ := exists_encode h
  exact hds

/-- The bytes of a text are the encoding of its characters. -/
theorem toList_ofText (text : String) : (Blob.ofText text).toList = encode text.toList := by
  rw [Blob.ofText, Blob.toList_ofList, String.toUTF8_eq_toByteArray, ← String.utf8Encode_toList,
    List.utf8Encode, List.data_toByteArray]
  rfl

theorem text_eq_ok_iff {text : String} :
    Utf8.text bs = .ok text ↔ bs = (Blob.ofText text).toList := by
  rw [toList_ofText, ← decode_eq_ok_iff, Utf8.text]
  cases decode bs with
  | error f => exact ⟨nofun, nofun⟩
  | ok cs =>
    refine ⟨fun h => ?_, fun h => ?_⟩
    · cases h
      rw [String.toList_ofList]
    · cases h
      rw [Except.map, String.ofList_toList]

/-- A byte string without a fault is the encoding of a text. -/
theorem fault?_eq_none_iff_text :
    fault? bs = none ↔ ∃ text : String, bs = (Blob.ofText text).toList := by
  rw [fault?_eq_none_iff]
  refine ⟨fun ⟨cs, hcs⟩ => ⟨String.ofList cs, ?_⟩, fun ⟨text, htext⟩ => ⟨text.toList, ?_⟩⟩
  · rw [toList_ofText, String.toList_ofList]
    exact decode_eq_ok_iff.1 hcs
  · rw [toList_ofText] at htext
    exact decode_eq_ok_iff.2 htext

end PackedColumn.Utf8
