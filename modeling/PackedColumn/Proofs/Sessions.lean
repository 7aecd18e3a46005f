import PackedColumn.Proofs.Edits
import PackedColumn.Proofs.Places
import PackedColumn.Proofs.Ranges

/-!
# The columns of a session

Safe commands keep the buffers of every column of a session standing for a
list of slots, whether columns are made, changed, handed over or dropped, and
whether or not memory is refused on the way.

* `Encodes.putWithin_sat`, `Encodes.copySlot_slots`, `Encodes.copyRange_slots`: the slots after
  writes within the memory held and after copies.
* `ofArrow_sat`, `ofValues_sat`: the slots of new columns.
* `run_encoded`: every safe command keeps this for all columns of a session.
-/

namespace PackedColumn

variable {t : ColumnType}

/-! ## Operations on one column -/

/-- A value copied is the value written. -/
theorem Blob.map_toList_ofList (x : Option (List UInt8)) :
    (x.map Blob.ofList).map Blob.toList = x := by
  cases x with
  | none => rfl
  | some b => rw [Option.map_some, Option.map_some, Blob.toList_ofList]

namespace Column

/-- Writing within the memory held, if that is no larger than the largest offset. -/
theorem Encodes.putWithin_sat {s : Owned t} {xs : Slots} (h : s.column.Encodes xs) (i : Nat)
    (x : Option (List UInt8)) (hmax : s.column.byteCapacity ≤ t.width.max) :
    (Op.change (fun c => c.put? i x) s).Sat (fun _ u => u.column.Encodes (xs.put i x))
      (fun _ u => u.column.Encodes xs) True := by
  cases hput : s.column.put? i x with
  | none => rw [Op.change_of_none hput]; trivial
  | some d => rw [Op.change_of_some hput]; exact h.of_put? hput hmax

/-- What is read from a slot is what the column shows there. -/
theorem Shows.getElem?_of_get {c : Column t} {xs : Slots} (h : c.Shows xs) {i : Nat}
    {x : Option (List UInt8)} (hget : c.get i = some (.ok x)) :
    i < xs.length ∧ xs[i]? = some x := by
  rcases Nat.lt_or_ge i xs.length with hi | hi
  · have hx := List.getElem?_eq_getElem hi
    cases (h.2 i _ hx).symm.trans hget
    exact ⟨hi, hx⟩
  · have herror : c.get i = some (.error (.indexOutOfBounds i c.count)) :=
      atSlot_of_le (by rw [h.1]; exact hi) _
    cases herror.symm.trans hget

/-- A slot of the source goes on to what is done with it, or is none. -/
theorem Encodes.slotOf_bind_sat {source : Column t} {ys : Slots} (hs : source.Encodes ys) {i : Nat}
    {s : Owned t} {D R : Owned t → Prop} {op : Option (List UInt8) → Op t Unit}
    (hop : ∀ x, ys[i]? = some x → (op x s).Sat (fun _ => D) (fun _ => R) True) (hR : R s) :
    ((slotOf source i >>= op) s).Sat (fun _ => D) (fun _ => R) True := by
  refine Call.sat_bind.2 (Call.sat_bind.2 (Call.sat_require.2
    ⟨fun y hy => Call.sat_ofExcept.2 ⟨fun x hx => ?_, fun _ _ => hR⟩, fun _ => trivial⟩))
  subst hx
  exact hop x (hs.shows.getElem?_of_get hy).2

theorem Encodes.copySlot_slots {source : Column t} {s : Owned t} {xs ys : Slots}
    (hs : source.Encodes ys) (h : s.column.Encodes xs) (i j : Nat) :
    (copySlot source i j s).Sat (fun _ u => ∃ x, ys[i]? = some x ∧ u.column.Encodes (xs.put j x))
      (fun _ u => u.column.Encodes xs) True :=
  hs.slotOf_bind_sat (fun x hx => (h.set_sat j _).mono
    (fun _ _ hu => ⟨x, hx, Blob.map_toList_ofList x ▸ hu.1⟩) (fun _ _ hu => hu) fun _ => trivial) h

theorem Encodes.copySlotWithin_slots {source : Column t} {s : Owned t} {xs ys : Slots}
    (hs : source.Encodes ys) (h : s.column.Encodes xs) (i j : Nat)
    (hmax : s.column.byteCapacity ≤ t.width.max) :
    (copySlotWithin source i j s).Sat
      (fun _ u => ∃ x, ys[i]? = some x ∧ u.column.Encodes (xs.put j x))
      (fun _ u => u.column.Encodes xs) True :=
  hs.slotOf_bind_sat (fun x hx => (h.putWithin_sat j x hmax).mono (fun _ _ hu => ⟨x, hx, hu⟩)
    (fun _ _ hu => hu) id) h

theorem Encodes.copyRange_slots {source : Column t} {s : Owned t} {xs ys : Slots}
    (hs : source.Encodes ys) (h : s.column.Encodes xs) (start length : Nat) :
    (copyRange source start length s).Sat (fun _ u => u.column.Encodes (ys.slice start length))
      (fun _ u => u.column.Encodes xs) False := by
  by_cases hcount : source.count < start + length
  · rw [copyRange_of_lt hcount]
    exact h
  by_cases hlen : length = 0
  · subst hlen
    rw [copyRange_zero (show start ≤ source.count by omega), Slots.slice, List.take_zero]
    exact encodes_clear s
  · have hrange : start + length ≤ ys.length := by rw [← hs.count]; omega
    exact (hs.copyRange_sat (Nat.pos_of_ne_zero hlen) hrange s).mono (fun _ _ hu => hu.2.1)
      (fun _ _ hu => hu.2.2.1 ▸ h) id

/-! ## New columns -/

/-- An operation that makes a column standing for slots, if it makes any. -/
def Starts (make : Call ColumnError Allocator (Column t)) : Prop :=
  ∀ a, (make a).Sat (fun c _ => ∃ xs, c.Encodes xs) (fun _ _ => True) True

theorem starts_pure {c : Column t} (h : c.Encodes []) :
    Starts (pure c : Call ColumnError Allocator (Column t)) := fun _ => ⟨[], h⟩

theorem ofField_encodes {field : Field} {settings : Settings} {c : Column t}
    (hc : ofField t field settings = .ok c) : c.Encodes [] := by
  unfold ofField at hc
  split at hc
  · cases hc
    exact encodes_new ..
  · cases hc

/-- Slots written one after the other behind those that are there. -/
theorem Encodes.setFrom_sat {s : Owned t} {xs : Slots} (h : s.column.Encodes xs) (ys : Slots) :
    (setFrom xs.length ys s).Sat (fun _ u => u.column.Encodes (xs ++ ys)) (fun _ _ => True)
      True := by
  induction ys generalizing s xs with
  | nil => exact (List.append_nil xs).symm ▸ h
  | cons y ys ih =>
    refine Call.sat_bind.2 ((h.set_sat xs.length _).mono (fun _ u hu => ?_) (fun _ _ _ => trivial)
      fun _ => trivial)
    have hnext := hu.1
    rw [Blob.map_toList_ofList, Slots.put_length] at hnext
    have hrest := ih hnext
    rwa [List.length_append, List.length_singleton, List.append_assoc] at hrest

/-- A new column whose memory is allocated before anything is written to it. -/
theorem build_renewed_sat {op : Op t Unit} {xs : Slots}
    (hop : ∀ s : Owned t, s.column.Encodes [] →
      (op s).Sat (fun _ u => u.column.Encodes xs) (fun _ _ => True) True)
    (fresh : Column t) (bytes slots : Nat) (a : Allocator) :
    (build fresh (renewWith bytes slots >>= fun _ => op) a).Sat (fun c _ => c.Encodes xs)
      (fun _ _ => True) True := by
  have hsat : ((renewWith bytes slots >>= fun _ => op) ⟨a, fresh⟩).Sat
      (fun _ u => u.column.Encodes xs) (fun _ _ => True) True :=
    Call.sat_bind.2 ((renewWith_sat bytes slots _).mono (fun _ u hu => hop u hu)
      (fun _ _ _ => trivial) False.elim)
  unfold build
  cases hr : (renewWith bytes slots >>= fun _ => op) ⟨a, fresh⟩ with
  | done _ s => rw [hr] at hsat; exact hsat
  | refused e s => trivial
  | breach => trivial

theorem ofArrow_sat (name : String) (arr : ArrowArray) (a : Allocator) :
    (ofArrow name arr a : Outcome ColumnError Allocator (Column t)).Sat
      (fun c _ => c.Encodes arr.slots) (fun _ _ => True) True :=
  build_renewed_sat (fun _ h => h.setFrom_sat arr.slots) _ _ _ a

theorem ofValues_sat (values : List (Option Blob)) (a : Allocator) :
    (ofValues values a : Outcome ColumnError Allocator (Column t)).Sat
      (fun c _ => c.Encodes (values.map (·.map Blob.toList))) (fun _ _ => True) True :=
  build_renewed_sat (fun _ h => (h.pushAll_sat values).mono (fun _ _ hu => hu.1)
    (fun _ _ _ => trivial) fun _ => trivial) _ _ _ a

end Column

/-! ## Commands -/

/-- The commands that make room for what they write. -/
def Command.Safe : Command → Prop
  | .edit _ e => e.Safe
  | .copySlotWithin .. => False
  | _ => True

namespace Session

variable {s u : Session t} {place home : Nat}

/-- Every column in a place stands for slots. -/
def Encoded (s : Session t) : Prop :=
  ∀ i seat, s.seatAt? i = some seat → ∃ xs, seat.column.Encodes xs

theorem Encoded.each (h : s.Encoded) : s.Each fun _ c => ∃ xs, c.Encodes xs := h

/-- The commands that are safe to run on a session: all but writes within the memory held, which are
safe as well if that is no larger than the largest offset, so that no offset can overflow. -/
def SafeAt (s : Session t) : Command → Prop
  | .edit place (.overwrite ..) | .copySlotWithin _ place .. =>
    ∀ column, s.column? place = some column → column.byteCapacity ≤ t.width.max
  | _ => True

theorem safeAt_of_safe {c : Command} (hc : c.Safe) : s.SafeAt c := by
  cases c with
  | edit place e =>
    cases e with
    | overwrite => exact hc.elim
    | _ => trivial
  | copySlotWithin => exact hc.elim
  | _ => trivial

/-- An operation on a session that keeps every column standing for slots. -/
def KeepsEncoded (s : Session t) (op : Call ColumnError (Session t) Unit) : Prop :=
  s.Encoded → (op s).Sat (fun _ u => u.Encoded) (fun _ u => u.Encoded) True

theorem alter_encoded {op : Op t Unit} (hop : ∀ (o : Owned t) (xs : Slots),
      s.column? place = some o.column → o.column.Encodes xs →
        (op o).Sat (fun _ u => ∃ ys, u.column.Encodes ys) (fun _ u => ∃ ys, u.column.Encodes ys) True) :
    s.KeepsEncoded (alter place op) := fun h =>
  alter_each h.each (fun o ho ⟨xs, hxs⟩ => hop o xs ho hxs) (fun _ _ _ hc => hc) fun _ _ _ hc => hc

theorem create_encoded {make : Call ColumnError Allocator (Column t)} (hmake : Column.Starts make)
    (place home : Nat) : s.KeepsEncoded (create place home make) := fun h =>
  create_each (Q := fun _ c => ∃ xs, c.Encodes xs) h.each hmake fun _ _ _ hc => hc

theorem transfer_encoded (source dest : Nat) :
    s.KeepsEncoded (transfer source dest) := fun h =>
  transfer_each h.each (fun _ _ _ => ⟨[], Column.encodes_nil rfl rfl⟩)
    (fun _ _ ⟨xs, hxs⟩ _ => ⟨xs, hxs.withSlotsOf⟩) fun _ _ _ _ hc => hc

theorem alterFrom_encoded {source dest : Nat} {op : Column t → Op t Unit}
    (hop : ∀ c ys, c.Encodes ys → ∀ (o : Owned t) (xs : Slots), s.column? dest = some o.column →
      o.column.Encodes xs → (op c o).Sat (fun _ u => ∃ ys, u.column.Encodes ys)
        (fun _ u => ∃ ys, u.column.Encodes ys) True) :
    s.KeepsEncoded (alterFrom source dest op) := fun h =>
  alterFrom_each h.each (fun c _ ⟨ys, hys⟩ o ho ⟨xs, hxs⟩ => hop c ys hys o xs ho hxs)
    (fun _ _ _ hc => hc) fun _ _ _ hc => hc

theorem run_encoded {c : Command} (hc : s.SafeAt c) : s.KeepsEncoded (run c) := by
  cases c with
  | create place home field settings =>
    exact fun h => Call.sat_bind.2 (Call.sat_ofExcept.2 ⟨fun c hc =>
      create_encoded (Column.starts_pure (Column.ofField_encodes hc)) place home h, fun _ _ => h⟩)
  | createOfArrow place home name a =>
    exact create_encoded (fun b => (Column.ofArrow_sat name a b).mono (fun _ _ hc => ⟨_, hc⟩)
      (fun _ _ h => h) id) place home
  | createOfValues place values =>
    exact fun h => create_encoded (fun b => (Column.ofValues_sat values b).mono
      (fun _ _ hc => ⟨_, hc⟩) (fun _ _ h => h) id) place _ h
  | createCounterpart source place home name =>
    exact fun h => Call.sat_bind.2 (Call.sat_bind.2 (Call.sat_require.2
      ⟨fun c _ => create_encoded (Column.starts_pure (Column.encodes_new ..)) place home h,
        fun _ => trivial⟩))
  | drop place => exact fun h => h.each.vacate fun _ _ _ hc => hc
  | edit place e =>
    refine alter_encoded fun o xs ho h => ?_
    by_cases hsafe : e.Safe
    · exact (Edit.run_sat h e hsafe).mono (fun _ _ hu => ⟨_, hu⟩) (fun _ _ ⟨ys, _, hu⟩ => ⟨ys, hu⟩)
        fun _ => trivial
    · cases e with
      | overwrite i x =>
        exact (h.putWithin_sat i _ (hc o.column ho)).mono (fun _ _ hu => ⟨_, hu⟩)
          (fun _ _ hu => ⟨_, hu⟩) id
      | _ => exact absurd trivial hsafe
  | transfer source dest => exact transfer_encoded source dest
  | copyRange source dest start length =>
    exact alterFrom_encoded fun _ _ hs _ _ _ h => (hs.copyRange_slots h start length).mono
      (fun _ _ hu => ⟨_, hu⟩) (fun _ _ hu => ⟨_, hu⟩) False.elim
  | copySlot source dest i j =>
    exact alterFrom_encoded fun _ _ hs _ _ _ h => (hs.copySlot_slots h i j).mono
      (fun _ _ ⟨_, _, hu⟩ => ⟨_, hu⟩) (fun _ _ hu => ⟨_, hu⟩) id
  | copySlotWithin source dest i j =>
    exact alterFrom_encoded fun _ _ hs o _ ho h =>
      (hs.copySlotWithin_slots h i j (hc o.column ho)).mono (fun _ _ ⟨_, _, hu⟩ => ⟨_, hu⟩)
        (fun _ _ hu => ⟨_, hu⟩) id

end Session

end PackedColumn
