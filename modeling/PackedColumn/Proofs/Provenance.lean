import Mathlib.Data.Set.Basic
import Mathlib.Logic.Function.Basic
import PackedColumn.Proofs.Workspaces

/-!
# Where the values of columns come from

The byte strings in the columns of a workspace are those that were given to
them, by a write or with an array or a list that a column is made from. None
is ever cut or run into another, however often slots are rewritten, cut off,
handed over and copied. Which byte strings a column was given is recorded
along the history (`Workspace.Recorded`): a column that takes over or copies
slots was given what the source was, as far as the slots copied hold it.

* `Edit.written`, `Command.written`: what comes from outside; `Command.record` keeps account of it.
* `Slots.values_put`, `Edit.values_onSlots`, `Edit.values_of_leaves`: changes of a list of slots add
  no other values.
* `run_records`: one command, done or refused.
* `Recorded.mem_of_slots?`: after any history each value of a column is one that it was given.
* `Recorded.exists_of_runAll`: the record of a history that gives certain byte strings only.
-/

namespace PackedColumn

open Function (update)

variable {t : ColumnType} {G : Set (List UInt8)}

namespace Slots

/-- The values that are there. -/
def values (xs : Slots) : Set (List UInt8) := {v | some v ∈ xs}

variable {xs ys : Slots}

@[simp] theorem values_nil : values [] = ∅ :=
  Set.eq_empty_of_forall_notMem fun _ => List.not_mem_nil

@[simp] theorem values_append (xs ys : Slots) : values (xs ++ ys) = xs.values ∪ ys.values :=
  Set.ext fun _ => List.mem_append

@[simp] theorem values_replicate_none (n : Nat) : values (List.replicate n none) = ∅ :=
  Set.eq_empty_of_forall_notMem fun _ hv => nomatch List.eq_of_mem_replicate hv

theorem values_mono (h : xs ⊆ ys) : xs.values ⊆ ys.values := fun _ hv => h hv

@[simp] theorem values_padTo (xs : Slots) (n : Nat) : (xs.padTo n).values = xs.values := by
  rw [padTo, values_append, values_replicate_none, Set.union_empty]

theorem values_put (xs : Slots) (i : Nat) (x : Option (List UInt8)) :
    (xs.put i x).values ⊆ xs.values ∪ values [x] := by
  rw [← values_padTo xs (i + 1)]
  exact fun v hv => (List.mem_or_eq_of_mem_set hv).imp id List.mem_singleton.2

theorem values_resize (xs : Slots) (n : Nat) : (xs.resize n).values ⊆ xs.values := by
  rw [← values_padTo xs n]
  exact values_mono (List.take_subset n _)

theorem values_blankFrom (xs : Slots) (k : Nat) : (xs.blankFrom k).values ⊆ xs.values := by
  rw [blankFrom, values_append, values_replicate_none, Set.union_empty]
  exact values_mono (List.take_subset k xs)

theorem values_slice (xs : Slots) (start length : Nat) :
    (xs.slice start length).values ⊆ xs.values :=
  values_mono fun _ hx => List.mem_of_mem_drop (List.mem_of_mem_take hx)

end Slots

/-! ## What comes from outside -/

namespace Edit

/-- The slots that an edit is given to write. -/
def written : Edit → Slots
  | overwrite _ x | set _ x | push x => [x.map Blob.toList]
  | setText _ text => [some (Blob.ofText text).toList]
  | pushText text => [(text.map Blob.ofText).map Blob.toList]
  | pushAll xs => xs.map (·.map Blob.toList)
  | _ => []

/-- An edit leaves no values but those that were there and those that it writes. -/
theorem values_onSlots (e : Edit) (xs : Slots) :
    (e.onSlots xs).values ⊆ xs.values ∪ e.written.values := by
  cases e with
  | overwrite i x | set i x => exact Slots.values_put xs i _
  | setText i text => exact Slots.values_put xs i _
  | push | pushText | pushAll => exact (Slots.values_append xs _).subset
  | setCount n => exact (Slots.values_resize xs n).trans Set.subset_union_left
  | padTo n => exact (Slots.values_padTo xs n).subset.trans Set.subset_union_left
  | setLast last => exact (Slots.values_blankFrom xs _).trans Set.subset_union_left
  | expectSlots | expectDensity | reserve => exact Set.subset_union_left
  | renew | renewWith | reset | clear => exact Slots.values_nil.subset.trans (Set.empty_subset _)

theorem values_of_leaves {e : Edit} {xs ys : Slots} (h : e.Leaves xs ys) :
    ys.values ⊆ xs.values ∪ e.written.values := by
  cases e with
  | renew | renewWith => exact h ▸ Slots.values_nil.subset.trans (Set.empty_subset _)
  | pushAll zs =>
    obtain ⟨k, -, rfl⟩ := h
    rw [Slots.values_append, List.map_take]
    exact Set.union_subset_union_right _ (Slots.values_mono (List.take_subset k _))
  | _ => exact h ▸ Set.subset_union_left

end Edit

namespace Column

/-- The column stands for slots whose values are all among the given byte strings. -/
def ValuesIn (c : Column t) (G : Set (List UInt8)) : Prop :=
  ∃ xs, c.Encodes xs ∧ xs.values ⊆ G

theorem Encodes.valuesIn {c : Column t} {xs : Slots} (h : c.Encodes xs) : c.ValuesIn xs.values :=
  ⟨xs, h, subset_rfl⟩

end Column

theorem Edit.run_valuesIn {s : Owned t} {e : Edit} (h : s.column.ValuesIn G)
    (hmax : e.Safe ∨ s.column.byteCapacity ≤ t.width.max) :
    (e.run s).Sat (fun _ u => u.column.ValuesIn (G ∪ e.written.values))
      (fun _ u => u.column.ValuesIn (G ∪ e.written.values)) True := by
  obtain ⟨xs, hxs, hG⟩ := h
  have hdone := (e.values_onSlots xs).trans (Set.union_subset_union_left _ hG)
  by_cases hsafe : e.Safe
  · exact (run_sat hxs e hsafe).mono (fun _ _ hu => ⟨_, hu, hdone⟩)
      (fun _ _ ⟨ys, hleaves, hu⟩ =>
        ⟨ys, hu, (values_of_leaves hleaves).trans (Set.union_subset_union_left _ hG)⟩)
      fun _ => trivial
  · cases e with
    | overwrite i x =>
      exact (hxs.putWithin_sat i _ (hmax.resolve_left hsafe)).mono (fun _ _ hu => ⟨_, hu, hdone⟩)
        (fun _ _ hu => ⟨xs, hu, hG.trans Set.subset_union_left⟩) id
    | _ => exact absurd trivial hsafe

/-! ## What each column was given -/

namespace Session

/-- The values in the `length` slots of a place from slot `start` on. -/
def held (s : Session t) (place start length : Nat) : Set (List UInt8) :=
  {v | ∃ c i, s.column? place = some c ∧ start ≤ i ∧ i < start + length ∧
    c.get i = some (.ok (some v))}

end Session

namespace Command

/-- The slots that a command is given from outside. -/
def written : Command → Slots
  | createOfArrow _ _ _ a => a.slots
  | createOfValues _ values => values.map (·.map Blob.toList)
  | edit _ e => e.written
  | _ => []

/-- What each column was given, after a command that is done. New columns start with what they are
made from; with slots that are handed over or copied goes what the source was given. -/
def record (s : Session t) (G : Nat → Set (List UInt8)) (c : Command) :
    Nat → Set (List UInt8) :=
  match c with
  | create place .. | createOfArrow place .. | createOfValues place .. | createCounterpart _ place ..
  | drop place => update G place c.written.values
  | edit place _ => update G place (G place ∪ c.written.values)
  | transfer source dest => update (update G source ∅) dest (G source)
  | copyRange source dest start length => update G dest (G source ∩ s.held source start length)
  | copySlot source dest i _ | copySlotWithin source dest i _ =>
    update G dest (G dest ∪ G source ∩ s.held source i 1)

/-- What each column was given, after a command that is refused. An edit of several slots may have
written some of them by then. -/
def recordSoFar (G : Nat → Set (List UInt8)) (c : Command) : Nat → Set (List UInt8) :=
  match c with
  | edit place _ => update G place (G place ∪ c.written.values)
  | _ => G

variable {T : Set (List UInt8)} {G : Nat → Set (List UInt8)} {c : Command}

theorem update_within {X : Set (List UInt8)} (place : Nat) (hG : ∀ i, G i ⊆ T) (hX : X ⊆ T) :
    ∀ i, update G place X i ⊆ T :=
  (Function.forall_update_iff G fun _ Y => Y ⊆ T).2 ⟨hX, fun i _ => hG i⟩

/-- Among the byte strings given before and those given now are all that are recorded. -/
theorem record_within (s : Session t) (hG : ∀ i, G i ⊆ T) (hc : c.written.values ⊆ T) :
    ∀ i, c.record s G i ⊆ T := by
  cases c with
  | create | createOfArrow | createOfValues | createCounterpart | drop =>
    exact update_within _ hG hc
  | edit place e => exact update_within place hG (Set.union_subset (hG place) hc)
  | transfer source dest =>
    exact update_within dest (update_within source hG (Set.empty_subset T)) (hG source)
  | copyRange source dest => exact update_within dest hG (Set.inter_subset_left.trans (hG source))
  | copySlot source dest | copySlotWithin source dest =>
    exact update_within dest hG
      (Set.union_subset (hG dest) (Set.inter_subset_left.trans (hG source)))

theorem recordSoFar_within (hG : ∀ i, G i ⊆ T) (hc : c.written.values ⊆ T) :
    ∀ i, c.recordSoFar G i ⊆ T := by
  cases c with
  | edit place e => exact update_within place hG (Set.union_subset (hG place) hc)
  | _ => exact hG

end Command

namespace Session

variable {s : Session t} {place : Nat} {G : Nat → Set (List UInt8)}

/-- Every value of every column is one that the column was given. -/
def Records (s : Session t) (G : Nat → Set (List UInt8)) : Prop :=
  s.Each fun i c => c.ValuesIn (G i)

/-- What is recorded of one place says nothing of the others. -/
theorem valuesIn_update {X : Set (List UInt8)} (i : Nat) (c : Column t) (hi : i ≠ place)
    (h : c.ValuesIn (G i)) : c.ValuesIn (update G place X i) := by
  rwa [Function.update_of_ne hi]

theorem createNew_records {make : Call ColumnError Allocator (Column t)} {xs : Slots}
    (hmake : ∀ a, (make a).Sat (fun c _ => c.Encodes xs) (fun _ _ => True) True) (h : s.Records G)
    (place home : Nat) :
    (create place home make s).Sat (fun _ u => u.Records (update G place xs.values))
      (fun _ u => u.Records G) True :=
  create_each h (fun a => (hmake a).mono (fun c _ hc => by
    rw [Function.update_self]
    exact hc.valuesIn) (fun _ _ h => h) id) valuesIn_update

theorem createFresh_records {c : Column t} (hc : c.Encodes []) (h : s.Records G)
    (place home : Nat) :
    (create place home (pure c) s).Sat (fun _ u => u.Records (update G place (Slots.values [])))
      (fun _ u => u.Records G) True :=
  createNew_records (fun _ => Outcome.sat_done.2 hc) h place home

/-- The values of slots copied are among those that the source was given and holds there. -/
theorem values_slice_subset {source start length : Nat} {c : Column t} {ys : Slots}
    (hsource : s.column? source = some c) (hc : c.Encodes ys) (hG : ys.values ⊆ G source) :
    (ys.slice start length).values ⊆ G source ∩ s.held source start length := by
  have hheld : (ys.slice start length).values ⊆ s.held source start length := by
    intro v hv
    obtain ⟨i, hx⟩ := List.mem_iff_getElem?.1 hv
    rw [Slots.slice, List.getElem?_take] at hx
    split at hx
    · rw [List.getElem?_drop] at hx
      exact ⟨c, start + i, hsource, Nat.le_add_right .., by omega, hc.get hx⟩
    · cases hx
  exact Set.subset_inter ((Slots.values_slice ys start length).trans hG) hheld

/-- Copying slot `i` of one place to slot `j` of another, in whatever way. -/
theorem copySlot_records {source dest i j : Nat} {op : Column t → Op t Unit}
    (hop : ∀ (c : Column t) (o : Owned t) (xs ys : Slots), c.Encodes ys →
      s.column? dest = some o.column → o.column.Encodes xs →
        (op c o).Sat (fun _ u => ∃ x, ys[i]? = some x ∧ u.column.Encodes (xs.put j x))
          (fun _ u => u.column.Encodes xs) True) (h : s.Records G) :
    (alterFrom source dest op s).Sat
      (fun _ u => u.Records (update G dest (G dest ∪ G source ∩ s.held source i 1)))
      (fun _ u => u.Records G) True := by
  refine alterFrom_each h (fun c hsource ⟨ys, hys, hG⟩ o ho ⟨xs, hxs, hH⟩ => ?_) valuesIn_update
    fun _ _ _ hc => hc
  rw [Function.update_self]
  refine (hop c o xs ys hys ho hxs).mono (fun _ u ⟨x, hx, hu⟩ => ⟨_, hu, ?_⟩)
    (fun _ _ hu => ⟨xs, hu, hH⟩) id
  have hslice : ys.slice i 1 = [x] := by
    obtain ⟨hi, rfl⟩ := List.getElem?_eq_some_iff.1 hx
    rw [Slots.slice, List.drop_eq_getElem_cons hi, List.take_succ_cons, List.take_zero]
  exact (Slots.values_put xs j x).trans
    (Set.union_subset_union hH (hslice ▸ values_slice_subset hsource hys hG))

theorem run_records {c : Command} (hc : s.SafeAt c) (h : s.Records G) :
    (run c s).Sat (fun _ u => u.Records (c.record s G)) (fun _ u => u.Records (c.recordSoFar G))
      True := by
  cases c with
  | create place home field settings =>
    exact Call.sat_bind.2 (Call.sat_ofExcept.2 ⟨fun c hc =>
      createFresh_records (Column.ofField_encodes hc) h place home, fun _ _ => h⟩)
  | createOfArrow place home name a =>
    exact createNew_records (Column.ofArrow_sat name a) h place home
  | createOfValues place values =>
    exact createNew_records (s := { s with allocators := s.allocators.push .unlimited })
      (Column.ofValues_sat values) h place s.allocators.size
  | createCounterpart source place home name =>
    exact Call.sat_bind.2 (Call.sat_bind.2 (Call.sat_require.2 ⟨fun c _ =>
      createFresh_records (Column.encodes_new ..) h place home, fun _ => trivial⟩))
  | drop place => exact h.vacate valuesIn_update
  | edit place e =>
    refine alter_each h (fun o ho hvalues => ?_) valuesIn_update valuesIn_update
    rw [Command.record, Command.recordSoFar, Function.update_self]
    refine Edit.run_valuesIn hvalues ?_
    by_cases hsafe : e.Safe
    · exact .inl hsafe
    · cases e with
      | overwrite => exact .inr (hc o.column ho)
      | _ => exact absurd trivial hsafe
  | transfer source dest =>
    refine transfer_each h (fun c hne _ => ?_) (fun c d hc _ => ?_) fun i c hsource hdest hc =>
      valuesIn_update i c hdest (valuesIn_update i c hsource hc)
    · rw [Command.record, Function.update_of_ne hne, Function.update_self]
      exact ⟨[], Column.encodes_nil rfl rfl, Slots.values_nil.subset⟩
    · rw [Command.record, Function.update_self]
      obtain ⟨xs, hxs, hG⟩ := hc
      exact ⟨xs, hxs.withSlotsOf, hG⟩
  | copyRange source dest start length =>
    refine alterFrom_each h (fun c hsource ⟨ys, hys, hG⟩ o _ ⟨xs, hxs, hH⟩ => ?_) valuesIn_update
      fun _ _ _ hc => hc
    rw [Command.record, Function.update_self]
    exact (hys.copyRange_slots hxs start length).mono
      (fun _ _ hu => ⟨_, hu, values_slice_subset hsource hys hG⟩) (fun _ _ hu => ⟨xs, hu, hH⟩)
      False.elim
  | copySlot source dest i j =>
    exact copySlot_records (fun _ _ _ _ hys _ hxs => hys.copySlot_slots hxs i j) h
  | copySlotWithin source dest i j =>
    exact copySlot_records
      (fun _ o _ _ hys ho hxs => hys.copySlotWithin_slots hxs i j (hc o.column ho)) h

end Session

/-! ## Histories -/

namespace Workspace

variable {limits : List Nat} {w v : Workspace} {G : ColumnType → Nat → Set (List UInt8)}

/-- A workspace that safe commands lead to, with what each of its columns was given meanwhile. -/
inductive Recorded (limits : List Nat) :
    Workspace → (ColumnType → Nat → Set (List UInt8)) → Prop
  | start (places : Nat) :
      Recorded limits (start (limits.map fun l => { limit := l }) places) fun _ _ => ∅
  | done {w v : Workspace} {G : ColumnType → Nat → Set (List UInt8)} (t : ColumnType)
      (c : Command) : Recorded limits w G → (w.session t).SafeAt c → run t c w = .done () v →
      Recorded limits v (update G t (c.record (w.session t) (G t)))
  | refused {w v : Workspace} {G : ColumnType → Nat → Set (List UInt8)} {e : ColumnError}
      (t : ColumnType) (c : Command) : Recorded limits w G → (w.session t).SafeAt c →
      run t c w = .refused e v → Recorded limits v (update G t (c.recordSoFar (G t)))

theorem records_put {s : Session t} {F : Nat → Set (List UInt8)}
    (h : ∀ t', (w.session t').Records (G t')) (hs : s.Records F) (t' : ColumnType) :
    ((w.put s).session t').Records (update G t F t') := by
  rcases eq_or_ne t' t with rfl | ht
  · rwa [session_put, Function.update_self]
  · rw [Function.update_of_ne ht]
    exact each_put_of_ne ht.symm (h t')

theorem run_records (h : ∀ t', (w.session t').Records (G t')) {c : Command}
    (hc : (w.session t).SafeAt c) :
    (run t c w).Sat
      (fun _ v => ∀ t', (v.session t').Records (update G t (c.record (w.session t) (G t)) t'))
      (fun _ v => ∀ t', (v.session t').Records (update G t (c.recordSoFar (G t)) t')) True :=
  Outcome.sat_lift.2 ((Session.run_records hc (h t)).mono (fun _ _ hs => records_put h hs)
    (fun _ _ hs => records_put h hs) id)

namespace Recorded

theorem reachable (h : Recorded limits w G) : Reachable limits w := by
  induction h with
  | start places => exact .start places
  | done t c _ hc hv ih => exact ih.step t c hc (by rw [hv]; rfl)
  | refused t c _ hc hv ih => exact ih.step t c hc (by rw [hv]; rfl)

theorem records (h : Recorded limits w G) : ∀ t, (w.session t).Records (G t) := by
  induction h with
  | start places =>
    intro t i seat hseat
    rw [session_start, Session.seatAt?_start] at hseat
    cases hseat
  | done t c _ hc hv ih =>
    have hstep := run_records ih hc
    rwa [hv] at hstep
  | refused t c _ hc hv ih =>
    have hstep := run_records ih hc
    rwa [hv] at hstep

/-- Every value of a column is one of those that it was given. -/
theorem mem_of_slots? (h : Recorded limits w G) {place : Nat} {seat : Seat t} {xs : Slots}
    (hseat : (w.places t)[place]? = some (some seat)) (hxs : seat.column.slots? = some xs)
    {x : List UInt8} (hx : some x ∈ xs) : x ∈ G t place := by
  obtain ⟨ys, hys, hG⟩ := h.records t place seat (Session.seatAt?_eq_some.2 hseat)
  rw [hys.slots?] at hxs
  cases hxs
  exact hG hx

/-- A record of one more command. -/
theorem exists_step {T : ColumnType → Set (List UInt8)} (h : Recorded limits w G)
    (hG : ∀ t i, G t i ⊆ T t) {c : Command} (hc : (w.session t).SafeAt c)
    (hwritten : c.written.values ⊆ T t) (hv : (run t c w).state? = some v) :
    ∃ F, Recorded limits v F ∧ ∀ t i, F t i ⊆ T t := by
  have hupdate : ∀ {F : Nat → Set (List UInt8)}, (∀ i, F i ⊆ T t) →
      ∀ t' i, update G t F t' i ⊆ T t' := fun hF =>
    (Function.forall_update_iff G fun t' F => ∀ i, F i ⊆ T t').2 ⟨hF, fun t' _ => hG t'⟩
  cases hr : run t c w with
  | done a u =>
    rw [hr] at hv
    cases hv
    exact ⟨_, h.done t c hc hr, hupdate (Command.record_within _ (hG t) hwritten)⟩
  | refused e u =>
    rw [hr] at hv
    cases hv
    exact ⟨_, h.refused t c hc hr, hupdate (Command.recordSoFar_within (hG t) hwritten)⟩
  | breach =>
    rw [hr] at hv
    cases hv

/-- After a history in which only certain byte strings are given, nothing else is recorded. -/
theorem exists_of_runAll {T : ColumnType → Set (List UInt8)} (h : Recorded limits w G)
    (hG : ∀ t i, G t i ⊆ T t) {cs : List (ColumnType × Command)}
    (hcs : ∀ c ∈ cs, c.2.Safe ∧ c.2.written.values ⊆ T c.1) (hv : runAll w cs = some v) :
    ∃ F, Recorded limits v F ∧ ∀ t i, F t i ⊆ T t := by
  induction cs generalizing w G with
  | nil => cases hv; exact ⟨G, h, hG⟩
  | cons c cs ih =>
    obtain ⟨u, hu, hrest⟩ := Option.bind_eq_some_iff.1 hv
    obtain ⟨hsafe, hwritten⟩ := hcs c List.mem_cons_self
    obtain ⟨F, hF, hFT⟩ := h.exists_step hG (Session.safeAt_of_safe hsafe) hwritten hu
    exact ih hF hFT (fun d hd => hcs d (List.mem_cons_of_mem c hd)) hrest

end Recorded

/-- Every history has its record. -/
theorem Reachable.exists_recorded (h : Reachable limits w) : ∃ G, Recorded limits w G := by
  induction h with
  | start places => exact ⟨_, .start places⟩
  | step t c _ hc hv ih =>
    obtain ⟨G, hG⟩ := ih
    obtain ⟨F, hF, -⟩ := hG.exists_step (T := fun _ => Set.univ) (fun _ _ => Set.subset_univ _) hc
      (Set.subset_univ _) hv
    exact ⟨F, hF⟩

end Workspace

end PackedColumn
