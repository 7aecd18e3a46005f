import PackedColumn.Proofs.JsonPlain
import PackedColumn.Schema.Written

/-!
# Settings and fields as JSON texts

Settings and fields are read from the text of any JSON record with names for
its members. What is read is told by the members of known names alone,
wherever they stand and whatever stands among them, and by the defaults where
they are missing; and the text that settings or a field are written to reads
back. The JSON library is any that reads and writes as documented.

* `Settings.parse?_eq_some_iff`, `Field.parse?_eq_some_iff`: what is read from a record.
* `Settings.parse?_render`, `Field.parse?_render`: what was written is read.
* `json_forms`: all of it.
-/

namespace PackedColumn

open Json Json.Value

variable {lib : Library} {text text' : String} {named named' : List (String × Value)}

/-! ## What a member says -/

/-- A member that is read as `a`, or that is missing where `a` is the default. -/
def Tells {α : Type} (read : Value → Option α) (default : α) (member : Option Value) (a : α) :
    Prop :=
  match member with
  | some v => read v = some a
  | none => a = default

/-- A member that has to be there, and is read as `a`. -/
def Requires {α : Type} (read : Value → Option α) (member : Option Value) (a : α) : Prop :=
  ∃ v, member = some v ∧ read v = some a

section

variable {α : Type} {read : Value → Option α} {default a : α} {member : Option Value}

theorem member?_eq_some_iff (hlib : lib.Documented) :
    lib.member? (some default) read member = some a ↔ Tells read default member a := by
  rw [hlib.member?_eq]
  cases member with
  | none => exact Option.some_inj.trans eq_comm
  | some v => exact Iff.rfl

theorem member?_none_eq_some_iff (hlib : lib.Documented) :
    lib.member? none read member = some a ↔ Requires read member a := by
  rw [hlib.member?_eq, Requires]
  cases member with
  | none => simp
  | some v => simp

/-- A member that was written is there, and tells what it was. -/
theorem tells_of_told {x : Scalar} (h : ∃ v, member = some v ∧ x.Told v)
    (hread : ∀ v, x.Told v → read v = some a) : Tells read default member a := by
  obtain ⟨v, rfl, htold⟩ := h
  exact hread v htold

theorem requires_of_told {x : Scalar} (h : ∃ v, member = some v ∧ x.Told v)
    (hread : ∀ v, x.Told v → read v = some a) : Requires read member a := by
  obtain ⟨v, hv, htold⟩ := h
  exact ⟨v, hv, hread v htold⟩

end

/-- The value of a structure that a text spells out, with what it says about the members. -/
theorem exists_members?_eq (hlib : lib.Documented) {names : List String} (hnodup : names.Nodup)
    (h : SpellsRecord text named) (honce : OnceEach names named) :
    ∃ v, lib.parse? text = some v ∧
      lib.members? names v = some (names.map fun name => named.lookup name) := by
  obtain ⟨members, hspells, hnamed⟩ := h
  exact ⟨_, hlib.parse? _ text hspells, hlib.members?_record hnodup hnamed honce⟩

/-- Two texts say the same about names that have the same members in both. -/
theorem exists_members?_eq_of_sameMembers (hlib : lib.Documented) {names : List String}
    (hnodup : names.Nodup) (h : SpellsRecord text named) (h' : SpellsRecord text' named')
    (honce : OnceEach names named) (hsame : SameMembers names named named') :
    ∃ v v', lib.parse? text = some v ∧ lib.parse? text' = some v' ∧
      lib.members? names v = lib.members? names v' := by
  obtain ⟨v, hparse, hmembers⟩ := exists_members?_eq hlib hnodup h honce
  obtain ⟨v', hparse', hmembers'⟩ :=
    exists_members?_eq hlib hnodup h' (honce.of_sameMembers hsame)
  refine ⟨v, v', hparse, hparse', ?_⟩
  rw [hmembers, hmembers', List.map_congr_left fun name hname => hsame.lookup_eq honce hname]

/-- A size that may be missing is read from what it was written to. -/
theorem nullable?_of_told (hlib : lib.Documented) {limit : Option Nat} {v : Value}
    (hlimit : ∀ n ∈ limit, n ≤ Size.max) (h : ((limit.map Scalar.size).getD .null).Told v) :
    lib.nullable? lib.size? v = some limit := by
  cases limit with
  | none =>
    cases h
    exact hlib.nullable?_null _
  | some n =>
    have hne : v ≠ .null := by
      rintro rfl
      cases h
    rw [hlib.nullable?_of_ne _ v hne, hlib.size? n v (hlimit n rfl) h]
    rfl

/-! ## Settings -/

namespace Settings

/-- All sizes can be represented. -/
structure Representable (s : Settings) : Prop where
  initialSlots : s.initialSlots ≤ Size.max
  averageWidth : s.averageWidth ≤ Size.max
  allocationLimit : ∀ n ∈ s.allocationLimit, n ≤ Size.max

/-- The settings are what the members say, and the default ones where they say nothing. -/
structure ToldBy (s : Settings) (lib : Library) (named : List (String × Value)) : Prop where
  initialSlots : Tells lib.size? default.initialSlots (named.lookup "initial_slot_capacity")
    s.initialSlots
  averageWidth : Tells lib.size? default.averageWidth (named.lookup "average_value_width")
    s.averageWidth
  allocationLimit : Tells (lib.nullable? lib.size?) default.allocationLimit
    (named.lookup "allocation_limit") s.allocationLimit

theorem parse?_eq_some_iff (hlib : lib.Documented) {s : Settings} (h : SpellsRecord text named)
    (honce : OnceEach members named) : parse? lib text = some s ↔ s.ToldBy lib named := by
  obtain ⟨v, hparse, hmembers⟩ := exists_members?_eq hlib (by decide) h honce
  rw [parse?, hparse, Option.bind_some, ofValue?, hmembers]
  simp only [members, List.map_cons, List.map_nil, Option.bind_eq_bind, Option.bind_eq_some_iff,
    member?_eq_some_iff hlib, Option.pure_def, Option.some.injEq]
  constructor
  · rintro ⟨slots, hslots, width, hwidth, limit, hlimit, rfl⟩
    exact ⟨hslots, hwidth, hlimit⟩
  · rintro ⟨hslots, hwidth, hlimit⟩
    exact ⟨_, hslots, _, hwidth, _, hlimit, rfl⟩

theorem parse?_eq_of_sameMembers (hlib : lib.Documented) (h : SpellsRecord text named)
    (h' : SpellsRecord text' named') (honce : OnceEach members named)
    (hsame : SameMembers members named named') : parse? lib text = parse? lib text' := by
  obtain ⟨v, v', hparse, hparse', hmembers⟩ :=
    exists_members?_eq_of_sameMembers hlib (by decide) h h' honce hsame
  rw [parse?, parse?, hparse, hparse', Option.bind_some, Option.bind_some, ofValue?, ofValue?,
    hmembers]

theorem Representable.toScalars {s : Settings} (h : s.Representable) :
    ∀ m ∈ s.toScalars, m.2.Representable := by
  have hlimit : ((s.allocationLimit.map Scalar.size).getD .null).Representable := by
    have hle := h.allocationLimit
    cases hn : s.allocationLimit with
    | none => trivial
    | some n => exact hle n hn
  simp only [Settings.toScalars, members, List.zip_cons_cons, List.zip_nil_left,
    List.forall_mem_cons, List.not_mem_nil, false_implies, implies_true, and_true]
  exact ⟨h.initialSlots, h.averageWidth, hlimit⟩

/-- What was written is read. -/
theorem parse?_render (hlib : lib.Documented) {s : Settings} (h : s.Representable) :
    parse? lib (s.render lib) = some s := by
  obtain ⟨named, hspells, honce, hfound⟩ :=
    hlib.exists_written h.toScalars (by simp [toScalars, members])
  refine (parse?_eq_some_iff hlib hspells (honce members)).2 ⟨?_, ?_, ?_⟩
  · have hslots := hfound "initial_slot_capacity" (.size s.initialSlots)
      (by simp [toScalars, members])
    exact tells_of_told hslots fun v => hlib.size? _ v h.initialSlots
  · have hwidth := hfound "average_value_width" (.size s.averageWidth)
      (by simp [toScalars, members])
    exact tells_of_told hwidth fun v => hlib.size? _ v h.averageWidth
  · have hlimit := hfound "allocation_limit" ((s.allocationLimit.map Scalar.size).getD .null)
      (by simp [toScalars, members])
    exact tells_of_told hlimit fun _ => nullable?_of_told hlib h.allocationLimit

end Settings

/-! ## Fields -/

/-- A column type is read from what it was written to. -/
theorem ColumnType.ofValue?_of_told (hlib : lib.Documented) {t : ColumnType} {v : Value}
    (h : t.toScalar.Told v) : ofValue? lib v = some t := by
  have hname : t.name ∈ names := List.mem_map_of_mem t.mem_all
  rw [ofValue?, hlib.variant? names t.name v hname h, Option.bind_some, ofName?_name]

namespace Field

/-- The field is what the members say, nullable if they do not say; a name and a type have to be
there. -/
structure ToldBy (f : Field) (lib : Library) (named : List (String × Value)) : Prop where
  name : Requires lib.text? (named.lookup "name") f.name
  type : Requires (ColumnType.ofValue? lib) (named.lookup "data_type") f.type
  nullable : Tells lib.truth? true (named.lookup "nullable") f.nullable

theorem parse?_eq_some_iff (hlib : lib.Documented) {f : Field} (h : SpellsRecord text named)
    (honce : OnceEach members named) : parse? lib text = some f ↔ f.ToldBy lib named := by
  obtain ⟨v, hparse, hmembers⟩ := exists_members?_eq hlib (by decide) h honce
  rw [parse?, hparse, Option.bind_some, ofValue?, hmembers]
  simp only [members, List.map_cons, List.map_nil, Option.bind_eq_bind, Option.bind_eq_some_iff,
    member?_eq_some_iff hlib, member?_none_eq_some_iff hlib, Option.pure_def, Option.some.injEq]
  constructor
  · rintro ⟨name, hname, type, htype, nullable, hnullable, rfl⟩
    exact ⟨hname, htype, hnullable⟩
  · rintro ⟨hname, htype, hnullable⟩
    exact ⟨_, hname, _, htype, _, hnullable, rfl⟩

theorem parse?_eq_of_sameMembers (hlib : lib.Documented) (h : SpellsRecord text named)
    (h' : SpellsRecord text' named') (honce : OnceEach members named)
    (hsame : SameMembers members named named') : parse? lib text = parse? lib text' := by
  obtain ⟨v, v', hparse, hparse', hmembers⟩ :=
    exists_members?_eq_of_sameMembers hlib (by decide) h h' honce hsame
  rw [parse?, parse?, hparse, hparse', Option.bind_some, Option.bind_some, ofValue?, ofValue?,
    hmembers]

/-- What was written is read. -/
theorem parse?_render (hlib : lib.Documented) (f : Field) :
    parse? lib (f.render lib) = some f := by
  have hrepresentable : ∀ m ∈ f.toScalars, m.2.Representable := by
    simp [toScalars, members, ColumnType.toScalar, Scalar.Representable]
  obtain ⟨named, hspells, honce, hfound⟩ :=
    hlib.exists_written hrepresentable (by simp [toScalars, members])
  refine (parse?_eq_some_iff hlib hspells (honce members)).2 ⟨?_, ?_, ?_⟩
  · have hname := hfound "name" (.text f.name) (by simp [toScalars, members])
    exact requires_of_told hname fun v => hlib.text? f.name v
  · have htype := hfound "data_type" f.type.toScalar (by simp [toScalars, members])
    exact requires_of_told htype fun _ => ColumnType.ofValue?_of_told hlib
  · have hnullable := hfound "nullable" (.truth f.nullable) (by simp [toScalars, members])
    exact tells_of_told hnullable fun v => hlib.truth? f.nullable v

end Field

/-! ## Both -/

/-- Settings and fields as JSON: what was written is read; from any text of a record with names for
its members, each known one there at most once, what is read is what the known members say, or the
defaults for those that are missing; and nothing else in the text matters, nor does the order. -/
theorem json_forms (lib : Library) (hlib : lib.Documented) :
    ((∀ s : Settings, s.Representable → Settings.parse? lib (s.render lib) = some s) ∧
      (∀ text named, SpellsRecord text named → OnceEach Settings.members named →
        ∀ s, Settings.parse? lib text = some s ↔ s.ToldBy lib named) ∧
      ∀ text text' named named', SpellsRecord text named → SpellsRecord text' named' →
        OnceEach Settings.members named → SameMembers Settings.members named named' →
        Settings.parse? lib text = Settings.parse? lib text') ∧
    (∀ f : Field, Field.parse? lib (f.render lib) = some f) ∧
      (∀ text named, SpellsRecord text named → OnceEach Field.members named →
        ∀ f, Field.parse? lib text = some f ↔ f.ToldBy lib named) ∧
      ∀ text text' named named', SpellsRecord text named → SpellsRecord text' named' →
        OnceEach Field.members named → SameMembers Field.members named named' →
        Field.parse? lib text = Field.parse? lib text' :=
  ⟨⟨fun _ => Settings.parse?_render hlib,
      fun _ _ h honce _ => Settings.parse?_eq_some_iff hlib h honce,
      fun _ _ _ _ => Settings.parse?_eq_of_sameMembers hlib⟩,
    Field.parse?_render hlib, fun _ _ h honce _ => Field.parse?_eq_some_iff hlib h honce,
    fun _ _ _ _ => Field.parse?_eq_of_sameMembers hlib⟩

/-- In the plain library: settings among a member of no meaning, out of order and one of them missing,
and a field whose name has to be escaped. -/
theorem json_forms_of_unknown_member :
    Settings.parse? plain
        "\x7b\"x\":[1,\x7b\x7d],\"allocation_limit\":null,\"initial_slot_capacity\":7\x7d" =
      some { initialSlots := 7 } ∧
    Field.parse? plain
        "\x7b\"name\":\"\\\"\\u0001é\",\"data_type\":\"large_utf8\",\"nullable\":false\x7d" =
      some { name := "\"\x01é", type := ⟨.text, .wide⟩, nullable := false } := by
  obtain ⟨⟨-, hsettings, -⟩, hfields, -⟩ := json_forms plain plain_documented
  let members : List (List Piece × Value) := [(Piece.ofText "x", list [ofNat 1, record []]),
    (Piece.ofText "allocation_limit", null), (Piece.ofText "initial_slot_capacity", ofNat 7)]
  have hwritable : (record members).Writable :=
    ⟨Piece.writable_of_mem_ofText, ⟨isNumber_toDigits 1, trivial, trivial⟩,
      Piece.writable_of_mem_ofText, trivial, Piece.writable_of_mem_ofText, isNumber_toDigits 7,
      trivial⟩
  have hnamed : Named (rereadMembers members) [("x", list [ofNat 1, record []]),
      ("allocation_limit", null), ("initial_slot_capacity", ofNat 7)] := by
    simp only [members, Named, rereadMembers, List.map_cons, List.map_nil,
      Piece.text?_reread_ofText]
    rfl
  constructor
  · have hslots : natural? Size.max (ofNat 7) = some 7 := natural?_ofNat (by decide)
    have hread := (hsettings _ _ ⟨_, spells_render hwritable, hnamed⟩
      (by simp [OnceEach, Settings.members]) { initialSlots := 7 }).2 ⟨hslots, rfl, rfl⟩
    rw [← hread]
    exact congrArg (Settings.parse? plain) (by decide +kernel)
  · rw [← hfields { name := "\"\x01é", type := ⟨.text, .wide⟩, nullable := false }]
    exact congrArg (Field.parse? plain) (by decide +kernel)

example : Settings.parse? plain "\x7b \"x\" : [1.5e3, \x7b\x7d ], \"average_value_width\":16 \x7d" =
    some { averageWidth := 16 } := by decide +kernel

end PackedColumn
