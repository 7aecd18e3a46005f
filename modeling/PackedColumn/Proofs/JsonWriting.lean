import PackedColumn.Proofs.JsonValues

/-!
# Written values read back

The written form of a value is a JSON text of that value, except that control
characters without an escape of their own are told by their number. They name
the same text, so a value that is written and read again says the same.

* `chars?_reread`: pieces that are read again name the same text.
* `isNumber_toDigits`: the digits of a natural number are a number literal.
* `spells_render`: the written form of a value is a text of it, up to such characters.
-/

namespace PackedColumn.Json

namespace Piece

/-- A control character without a name of its own to be escaped by. -/
def Nameless (c : Char) : Prop := c.toNat < 0x20 ∧ c ∉ ['\x08', '\x0c', '\n', '\r', '\t']

instance (c : Char) : Decidable (Nameless c) := by
  unfold Nameless; infer_instance

/-- How a piece reads once it has been written: a nameless character is told by its number. -/
def reread : Piece → Piece
  | char c => if Nameless c then unit c.toNat else char c
  | unit u => unit u

theorem reread_unit (u : Nat) : (unit u).reread = unit u := rfl

/-- A unit has sixteen bits. -/
def Writable : Piece → Prop
  | char _ => True
  | unit u => u < 0x10000

/-! ## Texts -/

/-- A unit that is no surrogate is a character by itself. -/
theorem chars?_unit_cons {u : Nat} (hu : ¬(0xD800 ≤ u ∧ u < 0xE000)) (ps : List Piece) :
    chars? (unit u :: ps) = (Char.ofNat u :: ·) <$> chars? ps := by
  have hleading : ¬(0xD800 ≤ u ∧ u < 0xDC00) := by omega
  have htrailing : ¬(0xDC00 ≤ u ∧ u < 0xE000) := by omega
  rcases ps with _ | ⟨c | v, ps⟩
  · simp only [chars?, if_neg hu]
    rfl
  · simp only [chars?, if_neg hu]
  · rw [chars?.eq_5]
    simp only [if_neg hleading, if_neg htrailing]

theorem chars?_reread_cons (c : Char) (ps : List Piece) :
    chars? ((char c).reread :: ps) = (c :: ·) <$> chars? ps := by
  rw [reread]
  split
  · rename_i hc
    rw [chars?_unit_cons (by have := hc.1; omega), Char.ofNat_toNat]
  · rw [chars?]

/-- A surrogate is no text before anything but a unit that completes it, so a character may be told
by its number there as well. -/
theorem chars?_surrogate_reread {u : Nat} (hu : 0xD800 ≤ u ∧ u < 0xE000) (c : Char)
    (ps : List Piece) : chars? (unit u :: (char c).reread :: ps) = none := by
  rw [reread]
  split
  · rename_i hc
    have htrailing : ¬(0xDC00 ≤ c.toNat ∧ c.toNat < 0xE000) := by
      have := hc.1
      omega
    rw [chars?.eq_5, if_neg htrailing]
    split
    · rfl
    · rw [if_pos (by omega)]
  · rw [chars?.eq_4, if_pos hu]

/-- What is read again names the same text. -/
theorem chars?_reread (ps : List Piece) : chars? (ps.map reread) = chars? ps := by
  induction ps using chars?.induct with
  | case1 => rfl
  | case2 c ps ih => rw [List.map_cons, chars?_reread_cons, ih, chars?]
  | case3 u hu => rfl
  | case4 u hu => rfl
  | case5 u c ps hu =>
    rw [List.map_cons, List.map_cons, reread_unit, chars?_surrogate_reread hu, chars?.eq_4, if_pos hu]
  | case6 u c ps hu ih => rw [List.map_cons, reread_unit, chars?_unit_cons hu, ih, chars?_unit_cons hu]
  | case7 u v ps hu hv ih =>
    rw [List.map_cons, List.map_cons, reread_unit, reread_unit, chars?.eq_5, if_pos hu, if_pos hv, ih,
      chars?.eq_5, if_pos hu, if_pos hv]
  | case8 u v ps hu hv =>
    rw [List.map_cons, List.map_cons, reread_unit, reread_unit, chars?.eq_5, if_pos hu, if_neg hv,
      chars?.eq_5, if_pos hu, if_neg hv]
  | case9 u v ps hu hu' =>
    rw [List.map_cons, List.map_cons, reread_unit, reread_unit, chars?.eq_5, if_neg hu, if_pos hu',
      chars?.eq_5, if_neg hu, if_pos hu']
  | case10 u v ps hu hu' ih =>
    have hnone : ¬(0xD800 ≤ u ∧ u < 0xE000) := by omega
    rw [List.map_cons, reread_unit, chars?_unit_cons hnone, ih, chars?_unit_cons hnone]

theorem text?_reread (ps : List Piece) : text? (ps.map reread) = text? ps := by
  rw [text?, text?, chars?_reread]

theorem text?_reread_ofText (s : String) : text? ((ofText s).map reread) = some s :=
  (text?_reread _).trans (text?_ofText s)

/-! ## Spellings -/

theorem hexValue?_hexDigit : ∀ i < 16, hexValue? (hexDigit i) = some i := by decide

theorem spelt_unit {u : Nat} (hu : u < 0x10000) : (unit u).Spelt ('\\' :: 'u' :: hexDigits u) := by
  have hvalue : u = ((u / 0x1000 % 16 * 16 + u / 0x100 % 16) * 16 + u / 0x10 % 16) * 16 + u % 16 := by
    omega
  have hdigit : ∀ n, hexValue? (hexDigit (n % 16)) = some (n % 16) := fun n =>
    hexValue?_hexDigit _ (Nat.mod_lt n (by decide))
  have h := Spelt.unit (hdigit (u / 0x1000)) (hdigit (u / 0x100)) (hdigit (u / 0x10)) (hdigit u)
  rwa [← hvalue] at h

theorem spelt_writeChar (c : Char) : (char c).reread.Spelt (writeChar c) := by
  unfold writeChar
  split
  case h_8 hquote hbackslash hb hf hn hr ht =>
    by_cases hcontrol : c.toNat < 0x20
    · rw [if_pos hcontrol, reread, if_pos ⟨hcontrol, by simpa using ⟨hb, hf, hn, hr, ht⟩⟩]
      exact spelt_unit (by omega)
    · rw [if_neg hcontrol, reread, if_neg fun h => hcontrol h.1]
      exact .plain (Nat.le_of_not_lt hcontrol) hquote hbackslash
  all_goals exact .escape rfl

theorem spelt_write {p : Piece} (h : p.Writable) : p.reread.Spelt p.write := by
  cases p with
  | char c => exact spelt_writeChar c
  | unit u => exact spelt_unit h

theorem allSpelt_write {ps : List Piece} (h : ∀ p ∈ ps, p.Writable) :
    AllSpelt (ps.map reread) (ps.flatMap write) := by
  induction ps with
  | nil => exact .nil
  | cons p ps ih =>
    rw [List.map_cons, List.flatMap_cons]
    exact .cons (spelt_write (h p List.mem_cons_self)) (ih fun q hq => h q (List.mem_cons_of_mem _ hq))

theorem writable_of_mem_ofText {s : String} : ∀ p ∈ ofText s, p.Writable := by
  intro p hp
  obtain ⟨c, -, rfl⟩ := List.mem_map.1 hp
  trivial

end Piece

/-! ## Numbers -/

theorem toDigits_eq_cons {n : Nat} (hn : 0 < n) :
    ∃ c cs, Nat.toDigits 10 n = c :: cs ∧ c ≠ '0' := by
  induction n using Nat.strongRecOn with
  | _ n ih =>
    rw [Nat.toDigits_eq_if (by decide)]
    split
    · rename_i hlt
      exact ⟨n.digitChar, [], rfl, fun h => by
        have := Nat.digitChar_eq_zero.1 h
        omega⟩
    · obtain ⟨c, cs, hdigits, hc⟩ := ih (n / 10) (by omega) (by omega)
      exact ⟨c, _, by rw [hdigits, List.cons_append], hc⟩

theorem isDigit_of_mem_toDigits {n : Nat} {c : Char} (h : c ∈ Nat.toDigits 10 n) :
    c.isDigit = true :=
  Nat.isDigit_of_mem_toDigits (by decide) (by decide) h

theorem whole_toDigits (n : Nat) : Whole (Nat.toDigits 10 n) := by
  rcases Nat.eq_zero_or_pos n with rfl | hn
  · exact .zero
  · obtain ⟨c, cs, hdigits, hc⟩ := toDigits_eq_cons hn
    have hall : ∀ d ∈ c :: cs, d.isDigit = true := fun d hd =>
      isDigit_of_mem_toDigits (n := n) (hdigits ▸ hd)
    rw [hdigits]
    exact .digits (hall c List.mem_cons_self) hc fun d hd => hall d (List.mem_cons_of_mem _ hd)

theorem isNumber_toDigits (n : Nat) : IsNumber (Nat.toDigits 10 n) := by
  simpa using IsNumber.mk List.mem_cons_self (whole_toDigits n) .none .none

namespace Value

/-! ## Values -/

mutual

/-- A value that can be told in JSON: its numbers are number literals, and its units have sixteen
bits. -/
def Writable : Value → Prop
  | number literal => IsNumber literal
  | text pieces => ∀ p ∈ pieces, p.Writable
  | list items => ItemsWritable items
  | record members => MembersWritable members
  | _ => True

def ItemsWritable : List Value → Prop
  | [] => True
  | v :: vs => v.Writable ∧ ItemsWritable vs

def MembersWritable : List (List Piece × Value) → Prop
  | [] => True
  | (k, v) :: ms => (∀ p ∈ k, p.Writable) ∧ v.Writable ∧ MembersWritable ms

end

mutual

/-- How a value reads once it has been written. -/
def reread : Value → Value
  | text pieces => text (pieces.map Piece.reread)
  | list items => list (rereadItems items)
  | record members => record (rereadMembers members)
  | v => v

def rereadItems : List Value → List Value
  | [] => []
  | v :: vs => v.reread :: rereadItems vs

def rereadMembers : List (List Piece × Value) → List (List Piece × Value)
  | [] => []
  | (k, v) :: ms => (k.map Piece.reread, v.reread) :: rereadMembers ms

end

theorem spaced_writeText {ps : List Piece} (h : ∀ p ∈ ps, p.Writable) :
    Spaced [.text (ps.map Piece.reread)] (writeText ps) :=
  .singleton (.text (Piece.allSpelt_write h))

mutual

/-- The written form of a value consists of its tokens. -/
theorem spaced_write : ∀ v : Value, v.Writable → Spaced v.reread.tokens v.write
  | null, _ => .singleton .null
  | bool true, _ => .singleton .true
  | bool false, _ => .singleton .false
  | number _, h => .singleton (.number h)
  | text _, h => spaced_writeText h
  | list items, h => by
    have hitems := spaced_writeItems items h
    exact (Spaced.singleton .openList).append (hitems.append (.singleton .closeList))
  | record members, h => by
    have hmembers := spaced_writeMembers members h
    exact (Spaced.singleton .openRecord).append (hmembers.append (.singleton .closeRecord))

theorem spaced_writeItems : ∀ vs : List Value, ItemsWritable vs →
    Spaced (itemTokens (rereadItems vs)) (writeItems vs)
  | [], _ => .nil (List.nil_subset _)
  | [v], h => spaced_write v h.1
  | v :: w :: vs, h =>
    (spaced_write v h.1).append ((Spaced.singleton .comma).append (spaced_writeItems (w :: vs) h.2))

theorem spaced_writeMembers : ∀ ms : List (List Piece × Value), MembersWritable ms →
    Spaced (memberTokens (rereadMembers ms)) (writeMembers ms)
  | [], _ => .nil (List.nil_subset _)
  | [(_, v)], h =>
    (spaced_writeText h.1).append ((Spaced.singleton .colon).append (spaced_write v h.2.1))
  | (k, v) :: m :: ms, h => by
    have hmember := (spaced_writeText h.1).append
      ((Spaced.singleton .colon).append (spaced_write v h.2.1))
    exact hmember.append ((Spaced.singleton .comma).append (spaced_writeMembers (m :: ms) h.2.2))

end

theorem spells_render {v : Value} (h : v.Writable) : v.reread.Spells v.render := by
  rw [Spells, render, String.toList_ofList]
  exact spaced_write v h

end Value

end PackedColumn.Json
