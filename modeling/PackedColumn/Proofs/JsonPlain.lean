import PackedColumn.Proofs.JsonLibrary
import PackedColumn.Proofs.JsonWriting

/-!
# The plain JSON library

The plain library reads and writes as is taken for granted of one: it looks the
members of a structure up by name, which comes to the same as going through a
record member by member, and what it writes is a text of the value written.

* `fields?_unknown`, `fields?_known`: one more member of a record.
* `plain_documented`: all that is taken for granted.
-/

namespace PackedColumn.Json

namespace Value

variable {α β : Type} {f g : α → Option β} {as : List α} {names : List String} {name : String}
  {key : List Piece} {v : Value} {rest : List (List Piece × Value)}
  {members : List (String × Value)} {i n bound : Nat}

/-! ## Members by name -/

theorem mapM_congr (h : ∀ a ∈ as, f a = g a) : as.mapM f = as.mapM g := by
  induction as with
  | nil => rfl
  | cons a as ih =>
    rw [List.mapM_cons, List.mapM_cons, h a List.mem_cons_self,
      ih fun a ha => h a (List.mem_cons_of_mem _ ha)]

/-- Two functions that differ for one element give lists that differ at its place. -/
theorem mapM_set {a : α} {b c : β} (hnodup : as.Nodup) (hi : as[i]? = some a) (hf : f a = some b)
    (hg : g a = some c) (hne : ∀ a' ≠ a, f a' = g a') :
    as.mapM f = (as.mapM g).map (·.set i b) := by
  induction as generalizing i with
  | nil => cases hi
  | cons a' as ih =>
    obtain ⟨hfresh, hnodup⟩ := List.nodup_cons.1 hnodup
    rw [List.mapM_cons, List.mapM_cons]
    cases i with
    | zero =>
      cases hi
      rw [hf, hg, mapM_congr fun a' ha' => hne a' (ne_of_mem_of_not_mem ha' hfresh)]
      cases as.mapM g <;> rfl
    | succ i =>
      have ha : a ∈ as := List.mem_of_getElem? hi
      rw [hne a' (ne_of_mem_of_not_mem ha hfresh).symm, ih hnodup hi]
      cases g a' <;> cases as.mapM g <;> rfl

theorem named?_cons (hname : Piece.text? key = some name) :
    named? ((key, v) :: rest) = (named? rest).map ((name, v) :: ·) := by
  rw [named?, named?, List.mapM_cons, hname]
  cases rest.mapM fun m => (Piece.text? m.1).map (·, m.2) <;> rfl

theorem filter_eq_nil_of_named? (h : named? rest = some members)
    (hfresh : ∀ m ∈ rest, Piece.text? m.1 ≠ some name) : members.filter (·.1 == name) = [] := by
  induction rest generalizing members with
  | nil =>
    cases h
    rfl
  | cons m rest ih =>
    obtain ⟨n, hn, members', hrest, heq⟩ := by
      simpa only [named?, List.mapM_cons, Option.bind_eq_bind, Option.bind_eq_some_iff] using h
    cases heq
    obtain ⟨n, hname, rfl⟩ := Option.map_eq_some_iff.1 hn
    have hne : n ≠ name := fun heq => hfresh m List.mem_cons_self (heq ▸ hname)
    rw [List.filter_cons_of_neg (by simpa using hne),
      ih hrest fun m hm => hfresh m (List.mem_cons_of_mem _ hm)]

theorem lookup?_cons_of_ne {other : String} (h : other ≠ name) :
    lookup? other ((name, v) :: members) = lookup? other members := by
  rw [lookup?, lookup?, List.filter_cons_of_neg (by simpa using h.symm)]

theorem fields?_unknown (hname : Piece.text? key = some name) (hunknown : name ∉ names) :
    fields? names (record ((key, v) :: rest)) = fields? names (record rest) := by
  rw [fields?, fields?, named?_cons hname, Option.bind_map]
  refine Option.bind_congr fun members _ => mapM_congr fun n hn => ?_
  exact lookup?_cons_of_ne (ne_of_mem_of_not_mem hn hunknown)

theorem fields?_known (hnodup : names.Nodup) (hi : names[i]? = some name)
    (hname : Piece.text? key = some name) (hfresh : ∀ m ∈ rest, Piece.text? m.1 ≠ some name) :
    fields? names (record ((key, v) :: rest)) =
      (fields? names (record rest)).map (·.set i (some v)) := by
  rw [fields?, fields?, named?_cons hname, Option.bind_map, Option.map_bind]
  refine Option.bind_congr fun members hmembers => ?_
  have hnil := filter_eq_nil_of_named? hmembers hfresh
  refine mapM_set (b := some v) (c := none) hnodup hi ?_ ?_ fun n hn => lookup?_cons_of_ne hn
  · rw [lookup?, List.filter_cons_of_pos (by simp), hnil]
  · rw [lookup?, hnil]

/-! ## Scalars -/

/-- A natural number written in digits is read as it is, up to the bound. -/
theorem natural?_ofNat (hn : n ≤ bound) : natural? bound (ofNat n) = some n := by
  have hdigits : (Nat.toDigits 10 n).all Char.isDigit = true :=
    List.all_eq_true.2 fun c hc => isDigit_of_mem_toDigits hc
  have hvalue : (Nat.toDigits 10 n).foldl (fun n c => 10 * n + (c.toNat - 48)) 0 = n :=
    Nat.ofDigitChars_toDigits (by decide) (by decide)
  rw [ofNat, natural?, if_pos hdigits, hvalue]
  exact if_pos hn

end Value

namespace Scalar

theorem writable_toValue (x : Scalar) : x.toValue.Writable := by
  cases x with
  | null => trivial
  | truth b => trivial
  | size n => exact isNumber_toDigits n
  | text s => exact Piece.writable_of_mem_ofText

/-- A scalar that is written is told by what is read. -/
theorem told_reread (x : Scalar) : x.Told x.toValue.reread := by
  cases x with
  | null => exact .null
  | truth b => exact .truth b
  | size n => exact .size n
  | text s => exact .text (Piece.text?_reread_ofText s)

end Scalar

/-! ## Structures -/

variable {written : List (String × Scalar)}

theorem membersWritable_written (written : List (String × Scalar)) :
    Value.MembersWritable (written.map fun m => (Piece.ofText m.1, m.2.toValue)) := by
  induction written with
  | nil => trivial
  | cons m written ih => exact ⟨Piece.writable_of_mem_ofText, m.2.writable_toValue, ih⟩

theorem named_written (written : List (String × Scalar)) :
    Value.Named (Value.rereadMembers (written.map fun m => (Piece.ofText m.1, m.2.toValue)))
      (written.map fun m => (m.1, m.2.toValue.reread)) := by
  induction written with
  | nil => rfl
  | cons m written ih =>
    rw [Value.Named, List.map_cons, Value.rereadMembers, List.map_cons, List.map_cons,
      List.map_cons, Piece.text?_reread_ofText, ih]

theorem told_written (written : List (String × Scalar)) :
    List.Forall₂ (fun m n => n.1 = m.1 ∧ m.2.Told n.2) written
      (written.map fun m => (m.1, m.2.toValue.reread)) := by
  induction written with
  | nil => exact .nil
  | cons m written ih => exact .cons ⟨rfl, m.2.told_reread⟩ ih

theorem plain_documented : plain.Documented where
  parse? := fun _ _ => Value.parse?_of_spells
  size? := fun n v hn h => by
    cases h
    exact Value.natural?_ofNat hn
  text? := fun s v h => by
    cases h with
    | text hs => exact hs
  truth? := fun b v h => by
    cases h
    rfl
  nullable?_null := fun _ => rfl
  nullable?_of_ne := fun read v hne => by
    cases v with
    | null => exact absurd rfl hne
    | _ => rfl
  variant? := fun names s v hs h => by
    cases h with
    | text htext =>
      show (Piece.text? _).filter names.contains = some s
      rw [htext, Option.filter_some, List.contains_iff_mem.2 hs, if_pos rfl]
  members?_nil := fun names => List.mapM_pure
  members?_unknown := fun _ _ _ _ _ => Value.fields?_unknown
  members?_known := fun _ _ _ _ _ _ => Value.fields?_known
  member?_none := fun _ _ => rfl
  member?_some := fun _ _ _ => rfl
  writeRecord := fun written _ =>
    ⟨_, ⟨_, Value.spells_render (v := .record _) (membersWritable_written written),
      named_written written⟩, told_written written⟩

end PackedColumn.Json
