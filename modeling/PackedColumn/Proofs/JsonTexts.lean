import Mathlib.Data.List.Chain
import PackedColumn.Proofs.JsonGrammar

/-!
# JSON texts cut into tokens

The machine that cuts texts finds the tokens of every text that consists of
tokens with blanks between them, as long as no two words or numbers stand side
by side, which no value needs.

* `lexFrom_piece`, `lexFrom_pieces`: the inside of string literals.
* `IsNumber.run`: number literals, part by part.
* `lexFrom_token`: one token, whatever follows it.
* `lexFrom_spaced`: all of them.
-/

namespace PackedColumn.Json

/-- Whether a token shows its own end. Words and numbers end where something else begins. -/
def Token.closed : Token → Bool
  | .null | .bool _ | .number _ => false
  | _ => true

/-- No two words or numbers stand side by side. -/
def Separated (ts : List Token) : Prop := ts.IsChain fun a b => a.closed ∨ b.closed

variable {done : List Token} {p : Piece} {ps qs : List Piece} {t : Token} {ts us : List Token}
  {l : Lexer} {s s' : Numeral} {cs ds rest literal : List Char} {c : Char}

/-! ## Single steps -/

theorem lexFrom_shift {l' : Lexer} (h : l.next? c = some ([], l')) :
    lexFrom done l (c :: cs) = lexFrom done l' cs := lexFrom_cons h

theorem lexFrom_emit {l' : Lexer} (h : l.next? c = some ([t], l')) :
    lexFrom done l (c :: cs) = lexFrom (t :: done) l' cs := lexFrom_cons h

/-! ## String literals -/

theorem unit_next? {a : Char} {i left value : Nat} (ha : Piece.hexValue? a = some i)
    (hleft : 1 < left) :
    (Lexer.unit qs left value).next? a = some ([], .unit qs (left - 1) (value * 16 + i)) := by
  simp only [Lexer.next?, ha, Option.bind_eq_bind, Option.bind_some]
  rw [if_neg (by omega)]

theorem unit_next?_last {a : Char} {i value : Nat} (ha : Piece.hexValue? a = some i) :
    (Lexer.unit qs 1 value).next? a = some ([], .quoted (.unit (value * 16 + i) :: qs)) := by
  simp only [Lexer.next?, ha, Option.bind_eq_bind, Option.bind_some]
  rfl

theorem lexFrom_piece (h : p.Spelt cs) :
    lexFrom done (.quoted qs) (cs ++ rest) = lexFrom done (.quoted (p :: qs)) rest := by
  have hbegin : (Lexer.quoted qs).next? '\\' = some ([], .escape qs) := rfl
  cases h with
  | @plain c hcontrol hquote hbackslash =>
    have hnext : (Lexer.quoted qs).next? c = some ([], .quoted (.char c :: qs)) := by
      rw [Lexer.next?, if_neg hquote, if_neg hbackslash, if_neg (by omega)]
    exact lexFrom_shift hnext
  | @escape e c he =>
    have hu : e ≠ 'u' := by
      rintro rfl
      cases he
    have hend : (Lexer.escape qs).next? e = some ([], .quoted (.char c :: qs)) := by
      rw [Lexer.next?, if_neg hu, he]
      rfl
    exact (lexFrom_shift hbegin).trans (lexFrom_shift hend)
  | @unit a b c d i j k l ha hb hc hd =>
    have hunit : (Lexer.escape qs).next? 'u' = some ([], .unit qs 4 0) := rfl
    have hfirst : (Lexer.unit qs 4 0).next? a = some ([], .unit qs 3 i) := by
      rw [unit_next? ha (by decide), Nat.zero_mul, Nat.zero_add]
    calc lexFrom done (.quoted qs) ('\\' :: 'u' :: a :: b :: c :: d :: rest)
        = lexFrom done (.unit qs 4 0) (a :: b :: c :: d :: rest) :=
          (lexFrom_shift hbegin).trans (lexFrom_shift hunit)
      _ = lexFrom done (.unit qs 2 (i * 16 + j)) (c :: d :: rest) :=
          (lexFrom_shift hfirst).trans (lexFrom_shift (unit_next? hb (by decide)))
      _ = lexFrom done (.quoted (.unit (((i * 16 + j) * 16 + k) * 16 + l) :: qs)) rest :=
          (lexFrom_shift (unit_next? hc (by decide))).trans (lexFrom_shift (unit_next?_last hd))

theorem lexFrom_pieces (h : Piece.AllSpelt ps cs) :
    lexFrom done (.quoted qs) (cs ++ '"' :: rest) =
      lexFrom (.text (qs.reverse ++ ps) :: done) .between rest := by
  induction h generalizing qs with
  | nil =>
    have hend : (Lexer.quoted qs).next? '"' = some ([.text qs.reverse], .between) := rfl
    rw [List.append_nil]
    exact lexFrom_emit hend
  | cons hp hps ih =>
    rw [List.append_assoc, lexFrom_piece hp, ih, List.reverse_cons, List.append_assoc,
      List.singleton_append]

/-! ## Number literals -/

namespace Numeral

/-- How much of a number has been read behind more of its characters. -/
def run (s : Numeral) : List Char → Option Numeral
  | [] => some s
  | c :: cs => (s.next? c).bind (run · cs)

theorem run_cons (h : s.next? c = some s') : s.run (c :: cs) = s'.run cs := by
  rw [run, h]
  rfl

theorem run_append (s : Numeral) (cs ds : List Char) :
    s.run (cs ++ ds) = (s.run cs).bind (run · ds) := by
  induction cs generalizing s with
  | nil => rfl
  | cons c cs ih =>
    rw [List.cons_append, run, run, Option.bind_assoc]
    exact Option.bind_congr fun s' _ => ih s'

theorem run_append_of_some (h : s.run cs = some s') : s.run (cs ++ ds) = s'.run ds := by
  rw [run_append, h]
  rfl

/-- Digits alone do not lead out of a part that is made of digits. -/
theorem run_digits (hs : ∀ c, c.isDigit → s.next? c = some s) (hcs : ∀ c ∈ cs, c.isDigit) :
    s.run cs = some s := by
  induction cs with
  | nil => rfl
  | cons c cs ih =>
    rw [run_cons (hs c (hcs c List.mem_cons_self))]
    exact ih fun d hd => hcs d (List.mem_cons_of_mem _ hd)

theorem run_digits_of_first (hs : ∀ c, c.isDigit → s.next? c = some s')
    (hs' : ∀ c, c.isDigit → s'.next? c = some s') (hcs : Digits cs) : s.run cs = some s' := by
  obtain ⟨hne, hall⟩ := hcs
  cases cs with
  | nil => exact absurd rfl hne
  | cons c cs =>
    rw [run_cons (hs c (hall c List.mem_cons_self))]
    exact run_digits hs' fun d hd => hall d (List.mem_cons_of_mem _ hd)

theorem whole_next? (c : Char) (hc : c.isDigit) : whole.next? c = some whole := if_pos hc

theorem point_next? (c : Char) (hc : c.isDigit) : point.next? c = some fraction := if_pos hc

theorem fraction_next? (c : Char) (hc : c.isDigit) : fraction.next? c = some fraction := if_pos hc

theorem sign_next? (c : Char) (hc : c.isDigit) : sign.next? c = some exponent := if_pos hc

theorem exponent_next? (c : Char) (hc : c.isDigit) : exponent.next? c = some exponent := if_pos hc

theorem mark_next? (c : Char) (hc : c.isDigit) : mark.next? c = some exponent := by
  have hne : ¬(c = '+' ∨ c = '-') := by
    rintro (rfl | rfl) <;> cases hc
  rw [next?, if_neg hne, if_pos hc]

theorem run_whole (hcs : Whole cs) :
    ∃ c ds s s', cs = c :: ds ∧ ofFirst? c = some s ∧ minus.next? c = some s ∧
      s.run ds = some s' ∧ (s' = zero ∨ s' = whole) := by
  cases hcs with
  | zero => exact ⟨'0', [], zero, zero, rfl, rfl, rfl, rfl, .inl rfl⟩
  | @digits c ds hc hzero hds =>
    have hminus : c ≠ '-' := by
      rintro rfl
      cases hc
    refine ⟨c, ds, whole, whole, rfl, ?_, ?_, run_digits whole_next? hds, .inr rfl⟩
    · rw [ofFirst?, if_neg hminus, if_neg hzero, if_pos hc]
    · rw [next?, if_neg hzero, if_pos hc]

theorem run_fraction (hs : s = zero ∨ s = whole) (hcs : Fraction cs) :
    ∃ s', s.run cs = some s' ∧ (s' = zero ∨ s' = whole ∨ s' = fraction) := by
  cases hcs with
  | none => exact ⟨s, rfl, hs.imp_right .inl⟩
  | digits hcs =>
    have hpoint : s.next? '.' = some point := by
      rcases hs with rfl | rfl <;> rfl
    exact ⟨fraction, (run_cons hpoint).trans (run_digits_of_first point_next? fraction_next? hcs),
      .inr (.inr rfl)⟩

theorem run_exponent (hs : s = zero ∨ s = whole ∨ s = fraction) (hcs : Exponent cs) :
    ∃ s', s.run cs = some s' ∧ s'.complete = true := by
  cases hcs with
  | none => exact ⟨s, rfl, by rcases hs with rfl | rfl | rfl <;> rfl⟩
  | @digits c cs ds hmark hsign hds =>
    have hnext : s.next? c = some mark := by
      simp only [List.mem_cons, List.not_mem_nil, or_false] at hmark
      rcases hs with rfl | rfl | rfl <;> rcases hmark with rfl | rfl <;> rfl
    refine ⟨exponent, ?_, rfl⟩
    rw [run_cons hnext]
    simp only [List.mem_cons, List.not_mem_nil, or_false] at hsign
    rcases hsign with rfl | rfl | rfl
    · exact run_digits_of_first mark_next? exponent_next? hds
    · exact (run_cons rfl).trans (run_digits_of_first sign_next? exponent_next? hds)
    · exact (run_cons rfl).trans (run_digits_of_first sign_next? exponent_next? hds)

end Numeral

/-- The machine reads every number literal to a place where it may end. -/
theorem IsNumber.run (h : IsNumber cs) : ∃ c ds s s', cs = c :: ds ∧ Numeral.ofFirst? c = some s ∧
    s.run ds = some s' ∧ s'.complete = true := by
  obtain @⟨sign, whole, fraction, exponent, hsign, hwhole, hfraction, hexponent⟩ := h
  obtain ⟨c, ds, s, s₁, rfl, hfirst, hminus, hrun₁, hs₁⟩ := Numeral.run_whole hwhole
  obtain ⟨s₂, hrun₂, hs₂⟩ := Numeral.run_fraction hs₁ hfraction
  obtain ⟨s₃, hrun₃, hcomplete⟩ := Numeral.run_exponent hs₂ hexponent
  have hrest : s.run (ds ++ (fraction ++ exponent)) = some s₃ := by
    rw [Numeral.run_append_of_some hrun₁, Numeral.run_append_of_some hrun₂, hrun₃]
  simp only [List.mem_cons, List.not_mem_nil, or_false] at hsign
  rcases hsign with rfl | rfl
  · exact ⟨c, _, s, s₃, rfl, hfirst, hrest, hcomplete⟩
  · exact ⟨'-', _, .minus, s₃, rfl, rfl, (Numeral.run_cons hminus).trans hrest, hcomplete⟩

theorem lexFrom_run (h : s.run cs = some s') :
    lexFrom done (.number s literal) (cs ++ rest) =
      lexFrom done (.number s' (cs.reverse ++ literal)) rest := by
  induction cs generalizing s literal with
  | nil =>
    cases h
    rfl
  | cons c cs ih =>
    obtain ⟨s₁, hc, hcs⟩ := Option.bind_eq_some_iff.1 h
    have hnext : (Lexer.number s literal).next? c = some ([], .number s₁ (c :: literal)) := by
      rw [Lexer.next?, hc]
    rw [List.cons_append, lexFrom_shift hnext, ih hcs, List.reverse_cons, List.append_assoc,
      List.singleton_append]

/-! ## Tokens -/

/-- The characters that end a word or a number. -/
def stops : List Char := blanks ++ ['[', ']', '{', '}', ':', ',', '"']

/-- A text is over, or goes on with something that ends a word or a number. -/
def Stops (rest : List Char) : Prop := ∀ c ∈ rest.head?, c ∈ stops

/-- What has been read is a token, which ends if one of the characters comes that end it. -/
structure Pending (l : Lexer) (t : Token) : Prop where
  finish? : l.finish? = some [t]
  next? : ∀ c ∈ stops, l.next? c = l.finishWith? c

theorem pending_word {letters : List Char} (h : Lexer.ofWord? letters.reverse = some t) :
    Pending (.word letters) t where
  finish? := by
    rw [Lexer.finish?, h]
    rfl
  next? := fun c hc => by
    have hall : stops.all (fun c => !c.isLower) = true := by decide
    have hlower : ¬c.isLower = true := by simpa using List.all_eq_true.1 hall c hc
    exact if_neg hlower

theorem pending_number (h : s.complete = true) (literal : List Char) :
    Pending (.number s literal) (.number literal.reverse) where
  finish? := if_pos h
  next? := fun c hc => by
    have hall : stops.all (fun c => (s.next? c).isNone) = true := by cases s <;> decide
    rw [Lexer.next?, Option.isNone_iff_eq_none.1 (List.all_eq_true.1 hall c hc)]

/-- Nothing is lost between a token that waits for its end and what follows it. -/
theorem lexFrom_pending (h : Pending l t) (hrest : Stops rest) :
    lexFrom done l rest = lexFrom (t :: done) .between rest := by
  cases rest with
  | nil =>
    rw [lexFrom_nil, lexFrom_nil, h.finish?, List.reverse_cons]
    exact congrArg some (List.append_nil _).symm
  | cons c cs =>
    have hnext := h.next? c (hrest c rfl)
    rw [Lexer.finishWith?, h.finish?, Option.bind_eq_bind, Option.bind_some] at hnext
    rw [lexFrom, lexFrom, hnext, Lexer.next?]
    cases Lexer.first? c with
    | none => rfl
    | some begun =>
      simp only [Option.bind_eq_bind, Option.bind_some, Option.pure_def, List.reverse_append,
        List.append_assoc]
      rfl

theorem lexFrom_letters {letters : List Char} (h : cs.all Char.isLower = true) :
    lexFrom done (.word letters) (cs ++ rest) =
      lexFrom done (.word (cs.reverse ++ letters)) rest := by
  induction cs generalizing letters with
  | nil => rfl
  | cons c cs ih =>
    rw [List.all_cons, Bool.and_eq_true] at h
    have hnext : (Lexer.word letters).next? c = some ([], .word (c :: letters)) := if_pos h.1
    rw [List.cons_append, lexFrom_shift hnext, ih h.2, List.reverse_cons, List.append_assoc,
      List.singleton_append]

/-- A word, if something follows that ends it. -/
theorem lexFrom_word (hfirst : Lexer.between.next? c = some ([], .word [c]))
    (hcs : cs.all Char.isLower = true) (hword : Lexer.ofWord? (c :: cs) = some t)
    (hrest : Stops rest) :
    lexFrom done .between (c :: cs ++ rest) = lexFrom (t :: done) .between rest := by
  have hletters : (cs.reverse ++ [c]).reverse = c :: cs := by
    rw [List.reverse_append, List.reverse_reverse, List.reverse_singleton, List.singleton_append]
  rw [List.cons_append, lexFrom_shift hfirst, lexFrom_letters hcs]
  exact lexFrom_pending (pending_word (hletters ▸ hword)) hrest

theorem not_isLower_of_isDigit (h : c.isDigit = true) : ¬c.isLower = true := fun hlower => by
  have hdigit : c.val ≤ '9'.val := of_decide_eq_true (Bool.and_eq_true_iff.1 h).2
  have hletter : 'a'.val ≤ c.val := of_decide_eq_true (Bool.and_eq_true_iff.1 hlower).1
  exact absurd (UInt32.le_trans hletter hdigit) (by decide)

/-- A number is not taken for anything else at its first character. -/
theorem first?_of_ofFirst? (h : Numeral.ofFirst? c = some s) :
    Lexer.first? c = some ([], .number s [c]) := by
  have hlower : ¬c.isLower = true := by
    unfold Numeral.ofFirst? at h
    split at h
    · simp_all
    split at h
    · simp_all
    split at h
    · exact not_isLower_of_isDigit (by assumption)
    · cases h
  unfold Lexer.first?
  split
  case h_12 =>
    rw [if_neg hlower, h]
    rfl
  all_goals cases h

/-- One token, if something follows that ends it where it does not end by itself. -/
theorem lexFrom_token (h : t.Spelt cs) (hrest : t.closed ∨ Stops rest) :
    lexFrom done .between (cs ++ rest) = lexFrom (t :: done) .between rest := by
  cases h with
  | openList => exact lexFrom_emit (t := .openList) rfl
  | closeList => exact lexFrom_emit (t := .closeList) rfl
  | openRecord => exact lexFrom_emit (t := .openRecord) rfl
  | closeRecord => exact lexFrom_emit (t := .closeRecord) rfl
  | colon => exact lexFrom_emit (t := .colon) rfl
  | comma => exact lexFrom_emit (t := .comma) rfl
  | @text ps cs hps =>
    have hbegin : Lexer.between.next? '"' = some ([], .quoted []) := rfl
    rw [List.cons_append, lexFrom_shift hbegin, List.append_assoc, List.singleton_append,
      lexFrom_pieces hps]
    rfl
  | null => exact lexFrom_word rfl rfl rfl (hrest.resolve_left nofun)
  | true => exact lexFrom_word rfl rfl rfl (hrest.resolve_left nofun)
  | false => exact lexFrom_word rfl rfl rfl (hrest.resolve_left nofun)
  | number hcs =>
    obtain ⟨c, ds, s, s', rfl, hfirst, hrun, hcomplete⟩ := hcs.run
    have hbegin : Lexer.between.next? c = some ([], .number s [c]) := first?_of_ofFirst? hfirst
    have hpending := pending_number hcomplete (ds.reverse ++ [c])
    rw [List.reverse_append, List.reverse_reverse, List.reverse_singleton, List.singleton_append]
      at hpending
    rw [List.cons_append, lexFrom_shift hbegin, lexFrom_run hrun]
    exact lexFrom_pending hpending (hrest.resolve_left nofun)

/-! ## Texts -/

theorem lexFrom_blanks (h : cs ⊆ blanks) :
    lexFrom done .between (cs ++ rest) = lexFrom done .between rest := by
  induction cs with
  | nil => rfl
  | cons c cs ih =>
    have hblank : Lexer.between.next? c = some ([], .between) := by
      have hc := h List.mem_cons_self
      simp only [blanks, List.mem_cons, List.not_mem_nil, or_false] at hc
      rcases hc with rfl | rfl | rfl | rfl <;> rfl
    rw [List.cons_append, lexFrom_shift hblank]
    exact ih fun d hd => h (List.mem_cons_of_mem _ hd)

theorem stops_blanks_append (h : cs ⊆ blanks) (hrest : Stops rest) : Stops (cs ++ rest) := by
  cases cs with
  | nil => exact hrest
  | cons c cs =>
    rintro _ ⟨⟩
    exact List.mem_append_left _ (h List.mem_cons_self)

theorem stops_of_spelt (h : t.Spelt cs) (ht : t.closed = true) : Stops (cs ++ rest) := by
  cases h with
  | null | true | false | number => cases ht
  | _ =>
    rintro _ ⟨⟩
    decide

theorem stops_of_spaced (h : Spaced ts cs) (hts : ∀ t ∈ ts.head?, t.closed = true) : Stops cs := by
  cases h with
  | nil hbs =>
    rw [← List.append_nil cs]
    exact stops_blanks_append hbs nofun
  | cons hbs ht hrest => exact stops_blanks_append hbs (stops_of_spelt ht (hts _ rfl))

/-- The machine finds the tokens of a text. -/
theorem lexFrom_spaced (h : Spaced ts cs) (hts : Separated ts) :
    lexFrom done .between cs = some (done.reverse ++ ts) := by
  induction h generalizing done with
  | @nil bs hbs =>
    rw [← List.append_nil bs, lexFrom_blanks hbs, lexFrom_nil]
    rfl
  | @cons t ts bs cs ds hbs ht hrest ih =>
    -- A word or a number ends at the first character behind it, which the next token decides.
    obtain ⟨hhead, htail⟩ := List.isChain_cons.1 hts
    have hends : t.closed ∨ Stops ds := by
      by_cases hclosed : t.closed = true
      · exact .inl hclosed
      · exact .inr (stops_of_spaced hrest fun u hu => (hhead u hu).resolve_left hclosed)
    rw [lexFrom_blanks hbs, lexFrom_token ht hends, ih htail, List.reverse_cons, List.append_assoc,
      List.singleton_append]

/-- Texts one behind the other, where the blanks between them go to the second. -/
theorem Spaced.append (h : Spaced ts cs) (h' : Spaced us ds) : Spaced (ts ++ us) (cs ++ ds) := by
  induction h with
  | @nil bs hbs =>
    cases h' with
    | nil hbs' => exact .nil (List.append_subset.2 ⟨hbs, hbs'⟩)
    | cons hbs' ht hrest =>
      rw [← List.append_assoc]
      exact .cons (List.append_subset.2 ⟨hbs, hbs'⟩) ht hrest
  | cons hbs ht hrest ih =>
    rw [List.append_assoc, List.append_assoc]
    exact .cons hbs ht ih

theorem Spaced.singleton (h : t.Spelt cs) : Spaced [t] cs := by
  have hnil : ([] : List Char) ⊆ blanks := List.nil_subset _
  simpa using Spaced.cons hnil h (.nil hnil)

end PackedColumn.Json
