import Mathlib.Data.List.Forall2
import Mathlib.Data.List.Nodup
import PackedColumn.Proofs.JsonGrammar
import PackedColumn.Size

/-!
# JSON libraries

What is taken for granted of a library that reads JSON texts and writes them
(`Library.Documented`): it knows the texts of values and of scalars, and deals
with one member of a record after the other. What a record says about the
members of a structure follows from that, whatever their order.

* `SameMembers.lookup_eq`: neither other members nor the order matter for what is found by a name.
* `Documented.members?_record`: what a record says is found by the names of its members.
* `Documented.member?_eq`: what follows for one member.
-/

namespace PackedColumn.Json

variable {members : List (List Piece × Value)} {named named' : List (String × Value)}
  {names : List String} {name : String}

namespace Value

/-! ## Members by name -/

/-- The names of the members of a record, all of which are texts, with the values. -/
def Named (members : List (List Piece × Value)) (named : List (String × Value)) : Prop :=
  members.map (fun m => (Piece.text? m.1, m.2)) = named.map fun m => (some m.1, m.2)

theorem mem_names_of_named (h : Named members named) {m : List Piece × Value} (hm : m ∈ members)
    (hname : Piece.text? m.1 = some name) : name ∈ named.map Prod.fst := by
  have hmem : (Piece.text? m.1, m.2) ∈ named.map fun n => (some n.1, n.2) :=
    h ▸ List.mem_map_of_mem hm
  obtain ⟨n, hn, heq⟩ := List.mem_map.1 hmem
  rw [hname, Prod.mk.injEq, Option.some.injEq] at heq
  exact heq.1 ▸ List.mem_map_of_mem hn

/-- A text spells out a record that has these members. -/
def SpellsRecord (text : String) (named : List (String × Value)) : Prop :=
  ∃ members, (record members).Spells text ∧ Named members named

/-- No member with one of the names stands twice. -/
def OnceEach (names : List String) (named : List (String × Value)) : Prop :=
  ∀ name ∈ names, (named.map Prod.fst).count name ≤ 1

/-- The members of the given names are the same, wherever they stand. -/
def SameMembers (names : List String) (named named' : List (String × Value)) : Prop :=
  (named.filter fun m => names.contains m.1).Perm (named'.filter fun m => names.contains m.1)

theorem lookup_eq_head? (name : String) (named : List (String × Value)) :
    named.lookup name = (named.filter (·.1 == name)).head?.map Prod.snd := by
  induction named with
  | nil => rfl
  | cons m named ih =>
    rw [List.lookup_cons, List.filter_cons, BEq.comm]
    cases m.1 == name with
    | true => rfl
    | false => exact ih

theorem count_eq (name : String) (named : List (String × Value)) :
    (named.map Prod.fst).count name = (named.filter (·.1 == name)).length := by
  rw [List.count, List.countP_map, List.countP_eq_length_filter]
  rfl

/-- So are those of any one of the names. -/
theorem SameMembers.filter_perm (h : SameMembers names named named') (hname : name ∈ names) :
    (named.filter (·.1 == name)).Perm (named'.filter (·.1 == name)) := by
  have hfilter : ∀ ms : List (String × Value), ms.filter (·.1 == name) =
      (ms.filter fun m => names.contains m.1).filter (·.1 == name) := fun ms => by
    rw [List.filter_filter]
    refine List.filter_congr fun m _ => ?_
    cases hm : m.1 == name with
    | false => rfl
    | true =>
      rw [eq_of_beq hm, List.contains_iff_mem.2 hname]
      rfl
  rw [hfilter named, hfilter named']
  exact h.filter (·.1 == name)

/-- Members of other names do not matter for what is found by a name, and neither does the order. -/
theorem SameMembers.lookup_eq (h : SameMembers names named named') (honce : OnceEach names named)
    (hname : name ∈ names) : named.lookup name = named'.lookup name := by
  have hperm := h.filter_perm hname
  have hlength := honce name hname
  rw [count_eq] at hlength
  rw [lookup_eq_head?, lookup_eq_head?]
  generalize named.filter (·.1 == name) = found at hperm hlength
  generalize named'.filter (·.1 == name) = found' at hperm
  rcases found with _ | ⟨m, _ | ⟨m', found⟩⟩
  · rw [hperm.nil_eq]
  · rw [hperm.singleton_eq]
  · exact absurd hlength (by simp)

/-- Then they stand once each in both, if they do in one. -/
theorem OnceEach.of_sameMembers (honce : OnceEach names named)
    (h : SameMembers names named named') : OnceEach names named' := fun name hname => by
  rw [count_eq, ← (h.filter_perm hname).length_eq, ← count_eq]
  exact honce name hname

end Value

/-! ## Libraries -/

/-- A value tells a scalar; a text may be told in any spelling. -/
inductive Scalar.Told : Scalar → Value → Prop
  | null : Told .null .null
  | truth (b : Bool) : Told (.truth b) (.bool b)
  | size (n : Nat) : Told (.size n) (.number (Nat.toDigits 10 n))
  | text {s : String} {ps : List Piece} : Piece.text? ps = some s → Told (.text s) (.text ps)

/-- A size can be represented. -/
def Scalar.Representable : Scalar → Prop
  | size n => n ≤ Size.max
  | _ => True

/-- What is known of a library that reads JSON texts and writes them. -/
structure Library.Documented (lib : Library) : Prop where
  /-- Every text of a value is read. -/
  parse? : ∀ (v : Value) (s : String), v.Spells s → lib.parse? s = some v
  /-- Sizes are read without loss. -/
  size? : ∀ (n : Nat) (v : Value), n ≤ Size.max → (Scalar.size n).Told v → lib.size? v = some n
  text? : ∀ (s : String) (v : Value), (Scalar.text s).Told v → lib.text? v = some s
  truth? : ∀ (b : Bool) (v : Value), (Scalar.truth b).Told v → lib.truth? v = some b
  nullable?_null : ∀ {α : Type} (read : Value → Option α), lib.nullable? read .null = some none
  nullable?_of_ne : ∀ {α : Type} (read : Value → Option α) (v : Value), v ≠ .null →
    lib.nullable? read v = (read v).map some
  /-- A variant is told by its name. -/
  variant? : ∀ (names : List String) (s : String) (v : Value), s ∈ names →
    (Scalar.text s).Told v → lib.variant? names v = some s
  /-- An empty record says nothing. -/
  members?_nil : ∀ names : List String,
    lib.members? names (.record []) = some (names.map fun _ => none)
  /-- A member that is not known is passed over. -/
  members?_unknown : ∀ (names : List String) (name : String) (key : List Piece) (v : Value)
    (rest : List (List Piece × Value)), Piece.text? key = some name → name ∉ names →
      lib.members? names (.record ((key, v) :: rest)) = lib.members? names (.record rest)
  /-- A member that is known, and does not come again, is found. -/
  members?_known : ∀ (names : List String) (i : Nat) (name : String) (key : List Piece) (v : Value)
    (rest : List (List Piece × Value)), names.Nodup → names[i]? = some name →
      Piece.text? key = some name → (∀ m ∈ rest, Piece.text? m.1 ≠ some name) →
      lib.members? names (.record ((key, v) :: rest)) =
        (lib.members? names (.record rest)).map (·.set i (some v))
  /-- Of a member that is missing, there may be something to take for it. -/
  member?_none : ∀ {α : Type} (missing : Option α) (read : Value → Option α),
    lib.member? missing read none = missing
  member?_some : ∀ {α : Type} (missing : Option α) (read : Value → Option α) (v : Value),
    lib.member? missing read (some v) = read v
  /-- A structure is written as a record of its members, in their order. -/
  writeRecord : ∀ members : List (String × Scalar), (∀ m ∈ members, m.2.Representable) →
    ∃ named, Value.SpellsRecord (lib.writeRecord members) named ∧
      List.Forall₂ (fun m n => n.1 = m.1 ∧ m.2.Told n.2) members named

namespace Library.Documented

variable {lib : Library} {v : Value} {i : Nat}

theorem lookup_cons_of_ne (h : name ∉ names) :
    (names.map fun n => ((name, v) :: named).lookup n) = names.map fun n => named.lookup n := by
  refine List.map_congr_left fun n hn => ?_
  have hne : n ≠ name := fun heq => h (heq ▸ hn)
  rw [List.lookup_cons, beq_false_of_ne hne]

theorem names_eq_of_told {written : List (String × Scalar)}
    (h : List.Forall₂ (fun m n => n.1 = m.1 ∧ m.2.Told n.2) written named) :
    written.map Prod.fst = named.map Prod.fst := by
  induction h with
  | nil => rfl
  | cons hm _ ih => rw [List.map_cons, List.map_cons, ih, hm.1]

theorem exists_lookup_of_told {written : List (String × Scalar)} {x : Scalar}
    (h : List.Forall₂ (fun m n => n.1 = m.1 ∧ m.2.Told n.2) written named)
    (hnodup : (written.map Prod.fst).Nodup) (hx : (name, x) ∈ written) :
    ∃ v, named.lookup name = some v ∧ x.Told v := by
  induction h with
  | nil => cases hx
  | @cons m n written named hm _ ih =>
    obtain ⟨hfresh, hnodup⟩ := List.nodup_cons.1 hnodup
    rw [List.lookup_cons, hm.1]
    rcases List.mem_cons.1 hx with rfl | hx
    · rw [beq_self_eq_true]
      exact ⟨n.2, rfl, hm.2⟩
    · have hne : name ≠ m.1 := fun heq => hfresh (heq ▸ List.mem_map_of_mem (f := Prod.fst) hx)
      rw [beq_false_of_ne hne]
      exact ih hnodup hx

/-- One more member is found at the place of its name. -/
theorem lookup_cons_of_getElem? (hnodup : names.Nodup) (hi : names[i]? = some name) :
    (names.map fun n => ((name, v) :: named).lookup n) =
      (names.map fun n => named.lookup n).set i (some v) := by
  obtain ⟨hlt, hname⟩ := List.getElem?_eq_some_iff.1 hi
  refine List.ext_getElem (by simp) fun j hj _ => ?_
  rw [List.length_map] at hj
  rw [List.getElem_map, List.getElem_set, List.getElem_map, List.lookup_cons]
  by_cases hij : i = j
  · subst hij
    rw [if_pos rfl, hname, beq_self_eq_true]
  · have hne : names[j] ≠ name := fun heq =>
      hij (hnodup.getElem_inj_iff.1 (hname.trans heq.symm))
    rw [if_neg hij, beq_false_of_ne hne]

/-- What a record says about the members of a structure is found by their names. -/
theorem members?_record (hlib : lib.Documented) (hnodup : names.Nodup)
    (h : Value.Named members named) (honce : Value.OnceEach names named) :
    lib.members? names (.record members) = some (names.map fun name => named.lookup name) := by
  induction members generalizing named with
  | nil =>
    obtain rfl : named = [] := List.map_eq_nil_iff.1 h.symm
    exact hlib.members?_nil names
  | cons m members ih =>
    cases named with
    | nil => cases h
    | cons n named =>
      obtain ⟨key, v⟩ := m
      obtain ⟨name, v'⟩ := n
      rw [Value.Named, List.map_cons, List.map_cons, List.cons.injEq, Prod.mk.injEq] at h
      obtain ⟨⟨hname, rfl⟩, hrest⟩ := h
      have hbehind : ∀ n, (named.map Prod.fst).count n ≤ (((name, v) :: named).map Prod.fst).count n :=
        fun n => (List.sublist_cons_self _ _).count_le n
      have hrecord := ih hrest fun n hn => Nat.le_trans (hbehind n) (honce n hn)
      by_cases hknown : name ∈ names
      · obtain ⟨i, hi⟩ := List.mem_iff_getElem?.1 hknown
        have hagain : ∀ m ∈ members, Piece.text? m.1 ≠ some name := by
          intro m hm heq
          have hcount := List.count_pos_iff.2 (Value.mem_names_of_named hrest hm heq)
          have honce := honce name hknown
          rw [List.map_cons, List.count_cons_self] at honce
          omega
        rw [hlib.members?_known names i name key v members hnodup hi hname hagain, hrecord,
          lookup_cons_of_getElem? hnodup hi]
        rfl
      · rw [hlib.members?_unknown names name key v members hname hknown, hrecord,
          lookup_cons_of_ne hknown]

/-- A structure whose members have different names is written as a record in which each of them
stands once, and is found by its name. -/
theorem exists_written (hlib : lib.Documented) {written : List (String × Scalar)}
    (hrepresentable : ∀ m ∈ written, m.2.Representable) (hnodup : (written.map Prod.fst).Nodup) :
    ∃ named, Value.SpellsRecord (lib.writeRecord written) named ∧
      (∀ names, Value.OnceEach names named) ∧
      ∀ name x, (name, x) ∈ written → ∃ v, named.lookup name = some v ∧ x.Told v := by
  obtain ⟨named, hspells, htold⟩ := hlib.writeRecord written hrepresentable
  refine ⟨named, hspells, fun names name _ => ?_, fun name x hx => ?_⟩
  · rw [← names_eq_of_told htold]
    exact List.nodup_iff_count_le_one.1 hnodup name
  · exact exists_lookup_of_told htold hnodup hx

/-- A member is read if it is said, and what is given for it is taken else. -/
theorem member?_eq (hlib : lib.Documented) {α : Type} (missing : Option α)
    (read : Value → Option α) (said : Option Value) :
    lib.member? missing read said = (said.map read).getD missing := by
  cases said with
  | none => exact hlib.member?_none missing read
  | some v => exact hlib.member?_some missing read v

end Library.Documented

end PackedColumn.Json
