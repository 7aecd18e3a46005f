import PackedColumn.Json.Plain
import PackedColumn.Proofs.JsonTexts

/-!
# JSON values built from tokens

The machine that builds values from tokens gives every value back from each of
its texts, however deep lists and records are nested in it.

* `separated_tokens`: no value has two words or numbers side by side.
* `parseFrom_tokens`: a value is built from its tokens, inside of whatever is open.
* `parse?_of_spells`: a text that spells out a value is read as that value.
-/

namespace PackedColumn.Json

/-! ## Tokens in a row -/

theorem separated_cons {t : Token} {ts : List Token} (ht : t.closed = true) (hts : Separated ts) :
    Separated (t :: ts) :=
  List.isChain_cons.2 ⟨fun _ _ => .inl ht, hts⟩

theorem separated_append {u : Token} {ts us : List Token} (hts : Separated ts)
    (hu : u.closed = true) (hus : Separated us) : Separated (ts ++ u :: us) := by
  refine List.isChain_append.2 ⟨hts, separated_cons hu hus, fun x _ y hy => ?_⟩
  cases hy
  exact .inr hu

namespace Value

mutual

theorem separated_tokens : ∀ v : Value, Separated v.tokens
  | null => .singleton _
  | bool _ => .singleton _
  | number _ => .singleton _
  | text _ => .singleton _
  | list items => separated_cons rfl (separated_append (separated_itemTokens items) rfl .nil)
  | record members =>
    separated_cons rfl (separated_append (separated_memberTokens members) rfl .nil)

theorem separated_itemTokens : ∀ vs : List Value, Separated (itemTokens vs)
  | [] => .nil
  | [v] => separated_tokens v
  | v :: w :: vs => separated_append (separated_tokens v) rfl (separated_itemTokens (w :: vs))

theorem separated_memberTokens : ∀ ms : List (List Piece × Value), Separated (memberTokens ms)
  | [] => .nil
  | [(_, v)] => separated_cons rfl (separated_cons rfl (separated_tokens v))
  | (_, v) :: m :: ms => separated_cons rfl (separated_cons rfl
    (separated_append (separated_tokens v) rfl (separated_memberTokens (m :: ms))))

end

/-! ## Values from tokens -/

theorem parseFrom_firstItem (v : Value) (fs : List Frame) (ts : List Token) :
    parseFrom .firstItem fs (v.tokens ++ ts) = parseFrom .value (.list [] :: fs) (v.tokens ++ ts) := by
  cases v <;> rfl

theorem parseFrom_firstMember (m : List Piece × Value) (ms : List (List Piece × Value))
    (fs : List Frame) (ts : List Token) :
    parseFrom .firstMember fs (memberTokens (m :: ms) ++ ts) =
      parseFrom (.member []) fs (memberTokens (m :: ms) ++ ts) := by
  cases ms <;> rfl

mutual

/-- A value is built from its tokens, whatever is open and whatever follows. -/
theorem parseFrom_tokens : ∀ (v : Value) (fs : List Frame) (ts : List Token),
    parseFrom .value fs (v.tokens ++ ts) = parseFrom (.after v) fs ts
  | null, _, _ => rfl
  | bool _, _, _ => rfl
  | number _, _, _ => rfl
  | text _, _, _ => rfl
  | list [], _, _ => rfl
  | list (v :: vs), fs, ts => by
    have hfirst : parseFrom .firstItem fs (itemTokens (v :: vs) ++ .closeList :: ts) =
        parseFrom .value (.list [] :: fs) (itemTokens (v :: vs) ++ .closeList :: ts) := by
      cases vs with
      | nil => exact parseFrom_firstItem v fs _
      | cons w vs =>
        rw [itemTokens, List.append_assoc]
        exact parseFrom_firstItem v fs _
    rw [tokens, List.cons_append, List.append_assoc, List.singleton_append]
    exact hfirst.trans (parseFrom_itemTokens (v :: vs) (List.cons_ne_nil _ _) [] fs ts)
  | record [], _, _ => rfl
  | record (m :: ms), fs, ts => by
    rw [tokens, List.cons_append, List.append_assoc, List.singleton_append]
    exact (parseFrom_firstMember m ms fs _).trans
      (parseFrom_memberTokens (m :: ms) (List.cons_ne_nil _ _) [] fs ts)

theorem parseFrom_itemTokens : ∀ (vs : List Value) (_ : vs ≠ []) (done : List Value)
    (fs : List Frame) (ts : List Token),
    parseFrom .value (.list done :: fs) (itemTokens vs ++ .closeList :: ts) =
      parseFrom (.after (.list (done.reverse ++ vs))) fs ts
  | [], h, _, _, _ => absurd rfl h
  | [v], _, done, fs, ts => by
    rw [itemTokens, parseFrom_tokens v, ← List.reverse_cons]
    rfl
  | v :: w :: vs, _, done, fs, ts => by
    have hrest := parseFrom_itemTokens (w :: vs) (List.cons_ne_nil _ _) (v :: done) fs ts
    rw [List.reverse_cons, List.append_assoc, List.singleton_append] at hrest
    rw [itemTokens, List.append_assoc, parseFrom_tokens v]
    exact hrest

theorem parseFrom_memberTokens : ∀ (ms : List (List Piece × Value)) (_ : ms ≠ [])
    (done : List (List Piece × Value)) (fs : List Frame) (ts : List Token),
    parseFrom (.member done) fs (memberTokens ms ++ .closeRecord :: ts) =
      parseFrom (.after (.record (done.reverse ++ ms))) fs ts
  | [], h, _, _, _ => absurd rfl h
  | [(k, v)], _, done, fs, ts => by
    have hvalue := parseFrom_tokens v (.record done k :: fs) (.closeRecord :: ts)
    rw [memberTokens, ← List.reverse_cons]
    exact hvalue
  | (k, v) :: m :: ms, _, done, fs, ts => by
    have hvalue := parseFrom_tokens v (.record done k :: fs)
      (.comma :: (memberTokens (m :: ms) ++ .closeRecord :: ts))
    have hrest := parseFrom_memberTokens (m :: ms) (List.cons_ne_nil _ _) ((k, v) :: done) fs ts
    rw [List.reverse_cons, List.append_assoc, List.singleton_append] at hrest
    rw [memberTokens, List.cons_append, List.cons_append, List.append_assoc]
    exact hvalue.trans hrest

end

/-! ## Values from texts -/

theorem parse?_of_spells {v : Value} {s : String} (h : v.Spells s) : parse? s = some v := by
  have hlex : lex? s = some v.tokens := lexFrom_spaced h (separated_tokens v)
  have hparse := parseFrom_tokens v [] []
  rw [List.append_nil] at hparse
  rw [parse?, hlex, Option.bind_some, hparse]
  rfl

end Value

end PackedColumn.Json
