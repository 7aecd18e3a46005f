import PackedColumn.Proofs.Exchange
import PackedColumn.Proofs.Provenance
import PackedColumn.Proofs.Readers
import PackedColumn.Proofs.Utf8

/-!
# Texts in columns

A text column takes any bytes, and four scans tell of those that are no texts:
the check of all values, the reader of one text, the reader of all texts, and
the export. All of them find the same slots (`Column.ListsFaults`).

* `mem_invalidValues`, `pairwise_invalidValues`: what the check lists, and in which order.
* `Encodes.getText_eq`, `Encodes.texts?_eq`: the readers, slot by slot.
* `Encodes.exportFrom?_fault`: an export stops at the first slot that is no text.
* `Encodes.listsFaults`: the four scans together.
* `Reachable.texts_checked`: the same for any text column that ever arises, and that a column which
  was given texts only has no faults.
-/

namespace PackedColumn

/-- The bytes are those of a text. -/
def IsText (v : List UInt8) : Prop := ∃ text : String, v = (Blob.ofText text).toList

theorem isText_ofText (text : String) : IsText (Blob.ofText text).toList := ⟨text, rfl⟩

theorem isText_iff {v : List UInt8} : IsText v ↔ Utf8.fault? v = none :=
  Utf8.fault?_eq_none_iff_text.symm

namespace Column

variable {width : OffsetWidth} {c : Column ⟨.text, width⟩} {xs : Slots} {i : Nat}
  {x : Option (List UInt8)}

/-! ## The list of faults -/

theorem mem_invalidValues {e : Element} {f : ValueFault} :
    ⟨i, f⟩ ∈ invalidValues e xs ↔ ∃ x, xs[i]? = some x ∧ x.bind e.fault? = some f := by
  rw [invalidValues, List.mem_filterMap]
  constructor
  · rintro ⟨⟨x, j⟩, hmem, hfault⟩
    obtain ⟨g, hg, heq⟩ := Option.map_eq_some_iff.1 hfault
    cases heq
    exact ⟨x, List.mem_zipIdx_iff_getElem?.1 hmem, hg⟩
  · rintro ⟨x, hx, hfault⟩
    refine ⟨(x, i), List.mem_zipIdx_iff_getElem?.2 hx, ?_⟩
    simp only [hfault, Option.map_some]

/-- Faults are listed in the order of their slots, so none twice. -/
theorem pairwise_invalidValues (e : Element) (xs : Slots) :
    (invalidValues e xs).Pairwise fun x y => x.slot < y.slot := by
  have hidx : xs.zipIdx.Pairwise fun p q => p.2 < q.2 := by
    refine List.pairwise_iff_getElem.2 fun i j hi hj hij => ?_
    rw [List.getElem_zipIdx, List.getElem_zipIdx]
    omega
  refine List.pairwise_filterMap.2 (hidx.imp fun {p q} hpq x hx y hy => ?_)
  obtain ⟨f, -, rfl⟩ := Option.map_eq_some_iff.1 hx
  obtain ⟨g, -, rfl⟩ := Option.map_eq_some_iff.1 hy
  exact hpq

theorem mem_invalidTexts {f : ValueFault} : ⟨i, f⟩ ∈ invalidValues .text xs ↔
    ∃ v g, xs[i]? = some (some v) ∧ Utf8.fault? v = some g ∧ f = .notText g := by
  rw [mem_invalidValues]
  constructor
  · rintro ⟨x, hx, hfault⟩
    obtain ⟨v, rfl, hv⟩ := Option.bind_eq_some_iff.1 hfault
    obtain ⟨g, hg, rfl⟩ := Option.map_eq_some_iff.1 hv
    exact ⟨v, g, hx, hg, rfl⟩
  · rintro ⟨v, g, hx, hg, rfl⟩
    refine ⟨some v, hx, ?_⟩
    rw [Option.bind_some, Element.fault?, hg]
    rfl

theorem mem_invalidText {f : Utf8.Fault} : ⟨i, .notText f⟩ ∈ invalidValues .text xs ↔
    ∃ v, xs[i]? = some (some v) ∧ Utf8.fault? v = some f := by
  rw [mem_invalidTexts]
  exact ⟨fun ⟨v, _, hx, hg, heq⟩ => ⟨v, hx, ValueFault.notText.inj heq ▸ hg⟩,
    fun ⟨v, hx, hg⟩ => ⟨v, f, hx, hg, rfl⟩⟩

/-- Nothing is listed exactly when every value is a text. -/
theorem invalidTexts_eq_nil_iff :
    invalidValues .text xs = [] ↔ ∀ v, some v ∈ xs → IsText v := by
  rw [List.eq_nil_iff_forall_not_mem]
  constructor
  · intro h v hv
    obtain ⟨i, hi⟩ := List.mem_iff_getElem?.1 hv
    rw [isText_iff]
    cases hfault : Utf8.fault? v with
    | none => rfl
    | some g => exact absurd (mem_invalidTexts.2 ⟨v, g, hi, hfault, rfl⟩) (h _)
  · rintro h ⟨i, f⟩ hmem
    obtain ⟨v, g, hx, hg, -⟩ := mem_invalidTexts.1 hmem
    rw [isText_iff.1 (h v (List.mem_of_getElem? hx))] at hg
    cases hg

/-! ## The readers -/

/-- What a reader of texts makes of slot `i`. -/
def asText (i : Nat) : Option (List UInt8) → Except ColumnError (Option String)
  | some v => ((Utf8.text v).map some).mapError (.invalidText i)
  | none => .ok none

theorem asText_eq_error_iff {f : Utf8.Fault} :
    asText i x = .error (.invalidText i f) ↔ ∃ v, x = some v ∧ Utf8.fault? v = some f := by
  cases x with
  | none => exact ⟨nofun, fun ⟨_, hv, _⟩ => nomatch hv⟩
  | some v =>
    simp only [asText, Utf8.text, Option.some.injEq, exists_eq_left', Utf8.fault?_eq_some_iff]
    cases Utf8.decode v <;> simp [Except.map, Except.mapError]

theorem asText_eq_ok_iff {text : Option String} :
    asText i x = .ok text ↔ x = text.map fun s => (Blob.ofText s).toList := by
  cases x with
  | none => cases text <;> simp [asText]
  | some v =>
    cases text with
    | none =>
      rw [asText]
      cases Utf8.text v <;> simp [Except.map, Except.mapError]
    | some s =>
      rw [Option.map_some, Option.some.injEq, ← Utf8.text_eq_ok_iff, asText]
      cases Utf8.text v <;> simp [Except.map, Except.mapError]

namespace Encodes

theorem getText_eq (h : c.Encodes xs) (hx : xs[i]? = some x) :
    c.getText i = some (asText i x) := by
  rw [getText, h.get hx]
  cases x <;> rfl

/-- A slot read as a text is one of the slots, or there is none. -/
theorem getText_eq_some_iff (h : c.Encodes xs) {y : Except ColumnError (Option String)}
    (hy : ∀ n, y ≠ .error (.indexOutOfBounds i n)) :
    c.getText i = some y ↔ ∃ x, xs[i]? = some x ∧ asText i x = y := by
  rcases Nat.lt_or_ge i xs.length with hi | hi
  · rw [h.getText_eq (List.getElem?_eq_getElem hi), Option.some.injEq, List.getElem?_eq_getElem hi]
    simp only [Option.some.injEq, exists_eq_left']
  · rw [(readsOutside (h.count ▸ hi)).getText, List.getElem?_eq_none hi, Option.some.injEq]
    exact ⟨fun heq => absurd heq.symm (hy _), fun ⟨_, hx, _⟩ => nomatch hx⟩

theorem texts?_eq (h : c.Encodes xs) : c.texts? = some (xs.mapIdx asText) := by
  rw [texts?, h.slots?]
  refine congrArg some (congrArg (List.mapIdx · xs) (funext fun i => funext fun x => ?_))
  cases x <;> rfl

/-! ## The export -/

/-- An export stops at the first slot that is no text, and reports it. -/
theorem exportFrom?_fault (h : c.Encodes xs) {k n : Nat} {v : List UInt8} {f : Utf8.Fault}
    (hbefore : ∀ j v, j < k → xs[j]? = some (some v) → Utf8.fault? v = none)
    (hk : xs[k]? = some (some v)) (hf : Utf8.fault? v = some f) (done : Slots) (hik : i ≤ k)
    (hkn : k < i + n) (hn : i + n ≤ xs.length) :
    c.exportFrom? done i n = some (.error (.invalidText k f)) := by
  induction n generalizing done i with
  | zero => omega
  | succ n ih =>
    obtain ⟨x, hx⟩ : ∃ x, xs[i]? = some x := ⟨_, List.getElem?_eq_getElem (by omega)⟩
    simp only [Column.exportFrom?, h.slot? hx, Option.bind_eq_bind, Option.bind_some]
    rcases Nat.eq_or_lt_of_le hik with rfl | hlt
    · cases hk.symm.trans hx
      simp only [Option.bind_some, Element.fault?, hf, Option.map_some]
    · have hnone : x.bind (Element.fault? .text) = none := by
        refine Option.bind_eq_none_iff.2 fun v hv => ?_
        rw [Element.fault?, hbefore i v hlt (by rw [hx, hv]), Option.map_none]
      simp only [hnone]
      exact ih _ hlt (by omega) (by omega)

end Encodes

/-- What the four scans of a text column with the given slots tell of those that are no texts. -/
structure ListsFaults (c : Column ⟨.text, width⟩) (xs : Slots) (failures : List InvalidValue) :
    Prop where
  checkValues : c.checkValues =
    some (if failures = [] then .ok () else .error (.invalidValues failures))
  /-- Slots are listed in order, none of them twice. -/
  ascending : failures.Pairwise fun x y => x.slot < y.slot
  notText : ∀ x ∈ failures, ∃ f, x.fault = .notText f
  listed : ∀ i f, ⟨i, .notText f⟩ ∈ failures ↔
    ∃ v, xs[i]? = some (some v) ∧ Utf8.fault? v = some f
  texts : failures = [] ↔ ∀ v, some v ∈ xs → IsText v
  getText : ∀ i f, c.getText i = some (.error (.invalidText i f)) ↔ ⟨i, .notText f⟩ ∈ failures
  getText_ok : ∀ i text, c.getText i = some (.ok text) ↔
    xs[i]? = some (text.map fun s => (Blob.ofText s).toList)
  texts? : ∃ ts, c.texts? = some ts ∧ ts.length = c.count ∧ ∀ i < c.count, c.getText i = ts[i]?
  exports : failures = [] → ∀ {α : Type} (lib : ArrowLibrary α),
    c.export? lib = some (.ok (lib.ofSlots xs))
  exports_not : ∀ i f rest, failures = ⟨i, .notText f⟩ :: rest →
    ∀ {α : Type} (lib : ArrowLibrary α), c.export? lib = some (.error (.invalidText i f))

theorem Encodes.listsFaults (h : c.Encodes xs) : c.ListsFaults xs (invalidValues .text xs) where
  checkValues := by
    rw [Column.checkValues, h.slots?, Option.map_some]
    cases invalidValues .text xs <;> rfl
  ascending := pairwise_invalidValues .text xs
  notText := fun ⟨_, _⟩ hmem => by
    obtain ⟨-, g, -, -, rfl⟩ := mem_invalidTexts.1 hmem
    exact ⟨g, rfl⟩
  listed := fun i f => mem_invalidText
  texts := invalidTexts_eq_nil_iff
  getText := fun i f => by
    rw [mem_invalidText, h.getText_eq_some_iff (y := .error (.invalidText i f)) nofun]
    simp only [asText_eq_error_iff]
    exact ⟨fun ⟨_, hx, v, hv, hf⟩ => ⟨v, hv ▸ hx, hf⟩, fun ⟨v, hx, hf⟩ => ⟨_, hx, v, rfl, hf⟩⟩
  getText_ok := fun i text => by
    rw [h.getText_eq_some_iff (y := .ok text) nofun]
    simp only [asText_eq_ok_iff, exists_eq_right]
  texts? := by
    refine ⟨_, h.texts?_eq, by rw [List.length_mapIdx, h.count], fun i hi => ?_⟩
    rw [h.count] at hi
    rw [h.getText_eq (List.getElem?_eq_getElem hi), List.getElem?_mapIdx,
      List.getElem?_eq_getElem hi, Option.map_some]
  exports := fun hnil _ lib =>
    h.export? (fun _ v hv => isText_iff.1 (invalidTexts_eq_nil_iff.1 hnil v hv)) lib
  exports_not := fun i f rest heq _ lib => by
    have hsorted := pairwise_invalidValues .text xs
    rw [heq, List.pairwise_cons] at hsorted
    obtain ⟨v, hv, hf⟩ := mem_invalidText.1 (heq ▸ List.mem_cons_self)
    -- a fault further ahead would be listed before this one
    have hbefore : ∀ j u, j < i → xs[j]? = some (some u) → Utf8.fault? u = none := by
      intro j u hji hu
      refine Option.eq_none_iff_forall_not_mem.2 fun g hg => ?_
      have hmem := mem_invalidText.2 ⟨u, hu, hg⟩
      rw [heq, List.mem_cons] at hmem
      rcases hmem with hhead | hrest
      · have := congrArg InvalidValue.slot hhead
        dsimp only at this
        omega
      · have := hsorted.1 _ hrest
        dsimp only at this
        omega
    have hi := (List.getElem?_eq_some_iff.1 hv).1
    rw [Column.export?, h.exportFrom?_fault hbefore hv hf [] (Nat.zero_le i)
      (by rw [h.count]; omega) (by rw [h.count]; omega)]
    rfl

end Column

namespace Workspace

variable {limits : List Nat} {w : Workspace} {width : OffsetWidth} {place : Nat}
  {seat : Seat ⟨.text, width⟩}

/-- In a text column of a reachable workspace the four scans find the same slots, those that hold no
text. They find none if all that the column was ever given, and the columns that it took over or
copied slots from, are texts. -/
theorem Reachable.texts_checked (h : Reachable limits w)
    (hseat : (w.places ⟨.text, width⟩)[place]? = some (some seat)) :
    ∃ (xs : Slots) (failures : List InvalidValue), seat.column.slots? = some xs ∧
      seat.column.ListsFaults xs failures ∧
      ∀ G, Recorded limits w G → (∀ v ∈ G ⟨.text, width⟩ place, IsText v) → failures = [] := by
  obtain ⟨xs, hxs⟩ := h.encoded _ place seat (Session.seatAt?_eq_some.2 hseat)
  have hfaults := hxs.listsFaults
  refine ⟨xs, _, hxs.slots?, hfaults, fun G hG htexts => hfaults.texts.2 fun v hv => ?_⟩
  exact htexts v (hG.mem_of_slots? hseat hxs.slots? hv)

/-- A column with two slots that are no texts, and a column that was given texts only, by way of
another one. -/
theorem texts_checked_of_copied : ∃ (w w' : Workspace) (seat seat' : Seat ⟨.text, .narrow⟩)
    (failures : List InvalidValue) (G : ColumnType → Nat → Set (List UInt8)),
    Reachable [512] w ∧ (w.places ⟨.text, .narrow⟩)[0]? = some (some seat) ∧
      seat.column.slots? = some [some [0xC3], some [0xC3, 0xA9], none, some [0x61, 0xFF]] ∧
      seat.column.checkValues = some (.error (.invalidValues failures)) ∧
      ⟨3, .notText ⟨1, some 1⟩⟩ ∈ failures ∧
      seat.column.getText 3 = some (.error (.invalidText 3 ⟨1, some 1⟩)) ∧
      Reachable [1024] w' ∧ (w'.places ⟨.text, .narrow⟩)[0]? = some (some seat') ∧
      seat'.column.slots? = some [some [0xC3, 0xBC], none, none, some [0xC3, 0xA9]] ∧
      Recorded [1024] w' G ∧ (∀ v ∈ G ⟨.text, .narrow⟩ 0, IsText v) ∧
      seat'.column.checkValues = some (.ok ()) := by
  have hrun : Yields [512]
      [.create 0 0 { name := "a", type := ⟨.text, .narrow⟩ } { initialSlots := 1 },
      .edit 0 (.push (some ⟨[0xC3], 1⟩)), .edit 0 (.pushText (some "é")),
      .edit 0 (.pushAll [none, some ⟨[0x61, 0xFF], 1⟩])]
      (fun (seat : Seat ⟨.text, .narrow⟩) _ => seat.column.slots? =
        some [some [0xC3], some [0xC3, 0xA9], none, some [0x61, 0xFF]]) = true := by decide +kernel
  have hcopy : (runAll (start ([1024].map fun l => { limit := l }) 2)
      ([.create 0 0 { name := "a", type := ⟨.text, .narrow⟩ } { initialSlots := 1 },
        .create 1 0 { name := "b", type := ⟨.text, .narrow⟩ } { initialSlots := 1 },
        .edit 0 (.pushText (some "é")), .edit 0 (.pushText (some "ab")),
        .edit 0 (.setText 1 "ü"), .copyRange 0 1 1 1, .copySlot 0 1 0 3, .edit 0 (.setCount 1),
        .transfer 1 0].map fun c => (⟨.text, .narrow⟩, c))).any
      (fun w => ((w.session ⟨.text, .narrow⟩).seatAt? 0).any fun seat => seat.column.slots? =
        some [some [0xC3, 0xBC], none, none, some [0xC3, 0xA9]]) = true := by decide +kernel
  obtain ⟨w, seat, _, hw, hseat, -, hslots⟩ :=
    Reachable.of_yields hrun (by simp [Command.Safe, Edit.Safe])
  obtain ⟨w', hw', hseats'⟩ := (Option.any_eq_true _ _).1 hcopy
  obtain ⟨seat', hseat', hslots'⟩ := (Option.any_eq_true _ _).1 hseats'
  -- all that the commands of the second history write are texts
  obtain ⟨G, hG, htexts⟩ := (Recorded.start 2).exists_of_runAll
    (T := fun _ => {v | IsText v}) (fun _ _ => Set.empty_subset _)
    (by simp [Command.Safe, Edit.Safe, Command.written, Edit.written, Slots.values,
      isText_ofText]) hw'
  have hplace' := Session.seatAt?_eq_some.1 hseat'
  obtain ⟨xs, failures, hxs, hfaults, -⟩ := hw.texts_checked hseat
  obtain ⟨xs', failures', hxs', hfaults', hnone⟩ := hG.reachable.texts_checked hplace'
  cases hxs.symm.trans (of_decide_eq_true hslots)
  have hmem : ⟨3, .notText ⟨1, some 1⟩⟩ ∈ failures :=
    (hfaults.listed 3 ⟨1, some 1⟩).2 ⟨_, rfl, by decide +kernel⟩
  have hchecked := hfaults.checkValues
  have hchecked' := hfaults'.checkValues
  rw [if_neg (List.ne_nil_of_mem hmem)] at hchecked
  rw [if_pos (hnone G hG (htexts _ 0))] at hchecked'
  exact ⟨w, w', seat, seat', failures, G, hw, hseat, hxs, hchecked, hmem,
    (hfaults.getText 3 _).2 hmem, hG.reachable, hplace', of_decide_eq_true hslots', hG, htexts _ 0,
    hchecked'⟩

end Workspace

end PackedColumn
