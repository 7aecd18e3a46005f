import PackedColumn.Proofs.Overflow

/-!
# Memory that runs short

An operation that grows several buffers asks for them one after the other, so
the column passes through several sizes on the way to those it asks for. Where
some of them are out of reach, the operation is refused, and the buffers are
left with the last sizes before the first that there is no room for
(`Owned.kept`): which ones is known beforehand, and the account is charged for
nothing else.

* `Op.Asks`: an operation that takes the sizes of a list in turn, with `asks_bind` for sequences.
* `growValues_asks`, `growSlots_asks`, `Encodes.makeRoom_asks`: the steps of growing.
* `Edit.stages`: the sizes that an edit passes through, the last of them being `Edit.sizes`.
* `Edit.run_asks`: an edit that fits is refused exactly if one of its stages is out of reach, and
  `Edit.run_short`: in that case it is refused for want of memory.
-/

namespace PackedColumn

/-! ## Requests that are refused -/

namespace Allocator

variable {b : Block} {n : Nat} {a : Allocator}

/-- The one condition under which a request goes through, if it is not met. -/
theorem reallocate_short (hle : a.allocated ≤ a.limit) (hlimit : a.limit ≤ Size.max)
    (hshort : Size.roundUp n < Block.bound →
      a.limit + b.size < a.allocated + max b.size (Size.roundUp n)) :
    ∃ m, reallocate b n true a = .refused m a := by
  have hsize := b.size_lt_bound
  rw [reallocate_apply_true]
  split
  · exact ⟨_, rfl⟩
  split
  · have := hshort (by omega)
    omega
  split
  · exact ⟨_, rfl⟩
  rename_i hroom
  rw [dif_neg fun hmachine => by have := hshort hmachine; omega,
    discharge_plus (Nat.le_of_not_lt hroom) hlimit]
  exact ⟨_, rfl⟩

end Allocator

namespace Validity

theorem reserve_short {v : Validity} {n : Nat} {a : Allocator} (hle : a.allocated ≤ a.limit)
    (hlimit : a.limit ≤ Size.max)
    (hshort : Size.roundUp (Bits.byteCount n) < Block.bound →
      a.limit + v.block.size < a.allocated + max v.block.size (Size.roundUp (Bits.byteCount n))) :
    ∃ m, v.reserve n a = .refused m a := by
  have hsize := v.block.size_lt_bound
  rw [reserve_eq]
  split
  · rename_i hheld
    have hround := v.block.roundUp_le hheld
    have := hshort (by omega)
    omega
  · obtain ⟨m, hm⟩ := Allocator.reallocate_short hle hlimit hshort
    exact ⟨m, by rw [map_eq_pure_bind, Call.bind_of_refused hm]⟩

end Validity

namespace ValueStore

theorem reserve_short {s : ValueStore} {n : Nat} {a : Allocator} (hle : a.allocated ≤ a.limit)
    (hlimit : a.limit ≤ Size.max)
    (hshort : Sizes.grown s.capacity n < Block.bound →
      a.limit + s.capacity < a.allocated + Sizes.grown s.capacity n) :
    ∃ m, s.reserve n a = .refused m a := by
  have hsize : s.capacity < Block.bound := s.block.size_lt_bound
  rw [reserve_eq]
  unfold Sizes.grown at hshort
  split
  · rename_i hheld
    rw [if_pos hheld] at hshort
    have := hshort hsize
    omega
  · rename_i hheld
    rw [if_neg hheld] at hshort
    have hround := Size.le_roundUp (max n (2 * s.capacity))
    obtain ⟨m, hm⟩ := Allocator.reallocate_short (b := s.block) hle hlimit fun hmachine => by
      have := hshort hmachine
      simp only [capacity] at *
      omega
    exact ⟨m, by rw [map_eq_pure_bind, Call.bind_of_refused hm]⟩

end ValueStore

namespace OffsetTable

variable {w : OffsetWidth}

theorem reserve_short {o : OffsetTable w} (slots committed : Nat) {a : Allocator}
    (hle : a.allocated ≤ a.limit) (hlimit : a.limit ≤ Size.max)
    (hshort : Size.roundUp ((slots + 1) * w.bytes) < Block.bound →
      a.limit + o.block.size <
        a.allocated + max o.block.size (Size.roundUp ((slots + 1) * w.bytes))) :
    ∃ m, o.reserve slots committed a = .refused m a := by
  have hsize := o.block.size_lt_bound
  rw [reserve_eq]
  split
  · rename_i hheld
    have hround :=
      o.block.roundUp_le ((le_slotCapacity_iff (Nat.pos_of_ne_zero hheld.2)).1 hheld.1)
    have := hshort (by omega)
    omega
  split
  · exact ⟨_, rfl⟩
  · obtain ⟨m, hm⟩ := Allocator.reallocate_short hle hlimit hshort
    exact ⟨m, Call.bind_of_refused hm⟩

end OffsetTable

/-! ## Stages -/

namespace Owned

variable {t : ColumnType} {s u : Owned t} {z z' : Sizes} {zs zs' : List Sizes}

/-- The account keeps to its limit, and the limit is a size. -/
structure Solvent (s : Owned t) : Prop where
  le_limit : s.allocator.allocated ≤ s.allocator.limit
  limit_le : s.allocator.limit ≤ Size.max

/-- There is always room for what the column holds. -/
theorem Solvent.hasRoom (h : s.Solvent) : s.HasRoom s.column.sizes :=
  ⟨Nat.add_le_add_right h.le_limit _, s.column.validity.block.size_lt_bound,
    s.column.offsets.block.size_lt_bound, s.column.values.block.size_lt_bound⟩

theorem Takes.hasRoom_iff (h : s.Takes u z) : u.HasRoom z' ↔ s.HasRoom z' := by
  refine ⟨fun hroom => ⟨?_, hroom.flags, hroom.entries, hroom.values⟩, h.hasRoom⟩
  have := hroom.account
  have := h.allocated
  have := h.limit
  omega

theorem Takes.solvent (h : s.Takes u z) (hroom : s.HasRoom z) (hs : s.Solvent) : u.Solvent := by
  have haccount := hroom.account
  have hallocated := h.allocated
  rw [h.footprint_eq] at hallocated
  exact ⟨by rw [h.limit]; omega, by rw [h.limit]; exact hs.limit_le⟩

/-- What is left, beginning with the sizes `z`, of several sizes to be taken in turn: the last ones
before the first that there is no room for. -/
def kept (s : Owned t) (z : Sizes) : List Sizes → Sizes
  | [] => z
  | z' :: zs => if s.HasRoom z' then kept s z' zs else z

theorem kept_hasRoom (hz : s.HasRoom z) (zs : List Sizes) : s.HasRoom (s.kept z zs) := by
  induction zs generalizing z with
  | nil => exact hz
  | cons z' zs ih =>
    rw [kept]
    split
    · exact ih (by assumption)
    · exact hz

theorem kept_congr (h : ∀ z, u.HasRoom z ↔ s.HasRoom z) (z : Sizes) (zs : List Sizes) :
    u.kept z zs = s.kept z zs := by
  induction zs generalizing z with
  | nil => rfl
  | cons z' zs ih => simp only [kept, h, ih]

theorem kept_append_of_room (h : ∀ z ∈ zs, s.HasRoom z) (z : Sizes) (zs' : List Sizes) :
    s.kept z (zs ++ zs') = s.kept (zs.getLastD z) zs' := by
  induction zs generalizing z with
  | nil => rfl
  | cons z' zs ih =>
    rw [List.cons_append, kept, if_pos (h z' List.mem_cons_self), List.getLastD_cons,
      ih fun z hz => h z (List.mem_cons_of_mem z' hz)]

/-- With room for all of them, they are taken. -/
theorem kept_of_room (h : ∀ z ∈ zs, s.HasRoom z) (z : Sizes) : s.kept z zs = zs.getLastD z := by
  have happend := kept_append_of_room h z []
  rwa [List.append_nil] at happend

theorem kept_append_of_short (h : ∃ z ∈ zs, ¬ s.HasRoom z) (z : Sizes) (zs' : List Sizes) :
    s.kept z (zs ++ zs') = s.kept z zs := by
  induction zs generalizing z with
  | nil => simp at h
  | cons z' zs ih =>
    rw [List.cons_append, kept, kept]
    split
    · rename_i hz'
      obtain ⟨y, hy, hshort⟩ := h
      refine ih ⟨y, ?_, hshort⟩ z'
      exact (List.mem_cons.1 hy).resolve_left fun heq => hshort (heq ▸ hz')
    · rfl

end Owned

namespace Op

variable {t : ColumnType} {op next : Op t Unit} {s : Owned t} {z : Sizes} {zs zs' : List Sizes}
  {B : Prop}

/-- The buffers of the column are to take the sizes of a list in turn. They do where there is room
for all of them; otherwise the operation is refused, and leaves the last ones that there was room
for. -/
def Asks (op : Op t Unit) (s : Owned t) (zs : List Sizes) (breach : Prop) : Prop :=
  (op s).Sat (fun _ u => (∀ z ∈ zs, s.HasRoom z) ∧ s.Takes u (s.kept s.column.sizes zs))
    (fun e u => (∃ m, e = .allocation m) ∧ (∃ z ∈ zs, ¬ s.HasRoom z) ∧
      s.Takes u (s.kept s.column.sizes zs)) breach

theorem asks_pure (s : Owned t) (B : Prop) : Asks (pure ()) s [] B := ⟨nofun, .refl s⟩

/-- A single request. -/
theorem asks_one (hdone : s.HasRoom z → ∃ u, op s = .done () u ∧ s.Takes u z)
    (hshort : ¬ s.HasRoom z → ∃ m, op s = .refused (.allocation m) s) : op.Asks s [z] B := by
  unfold Asks
  by_cases hroom : s.HasRoom z
  · obtain ⟨u, hu, htakes⟩ := hdone hroom
    rw [hu, Owned.kept, if_pos hroom]
    exact ⟨fun y hy => List.mem_singleton.1 hy ▸ hroom, htakes⟩
  · obtain ⟨m, hm⟩ := hshort hroom
    rw [hm, Owned.kept, if_neg hroom]
    exact ⟨⟨m, rfl⟩, ⟨z, List.mem_singleton.2 rfl, hroom⟩, .refl s⟩

/-- Several requests, and then more of them on what the first ones left. -/
theorem asks_bind (zs zs' : List Sizes) (hs : s.Solvent) (h : op.Asks s zs B)
    (hnext : ∀ u, s.Takes u (zs.getLastD s.column.sizes) → u.Solvent → next.Asks u zs' B) :
    Op.Asks (op >>= fun _ => next) s (zs ++ zs') B := by
  refine Call.sat_bind.2 (Outcome.Sat.mono h (fun _ u hu => ?_) (fun e u hu => ?_) id)
  · obtain ⟨hroom, htakes⟩ := hu
    have hsolvent := htakes.solvent (Owned.kept_hasRoom hs.hasRoom zs) hs
    rw [Owned.kept_of_room hroom] at htakes
    have hiff : ∀ z, u.HasRoom z ↔ s.HasRoom z := fun _ => htakes.hasRoom_iff
    have hkept : u.kept u.column.sizes zs' = s.kept s.column.sizes (zs ++ zs') := by
      rw [Owned.kept_append_of_room hroom, Owned.kept_congr hiff, htakes.sizes]
    refine Outcome.Sat.mono (hnext u htakes hsolvent) (fun _ v hv => ?_) (fun e v hv => ?_) id
    · obtain ⟨hroom', htakes'⟩ := hv
      rw [hkept] at htakes'
      refine ⟨fun z hz => ?_, htakes.trans htakes'⟩
      exact (List.mem_append.1 hz).elim (hroom z) fun hz => (hiff z).1 (hroom' z hz)
    · obtain ⟨hm, ⟨z, hz, hshort⟩, htakes'⟩ := hv
      rw [hkept] at htakes'
      exact ⟨hm, ⟨z, List.mem_append.2 (.inr hz), fun hroom => hshort ((hiff z).2 hroom)⟩,
        htakes.trans htakes'⟩
  · obtain ⟨hm, ⟨z, hz, hshort⟩, htakes⟩ := hu
    rw [Owned.kept_append_of_short ⟨z, hz, hshort⟩]
    exact ⟨hm, ⟨z, List.mem_append.2 (.inl hz), hshort⟩, htakes⟩

end Op

/-! ## The steps of growing -/

/-- The sizes on the way to room for `slots` slots: the offsets come first. -/
def Sizes.slotStages (z : Sizes) (w : OffsetWidth) (slots : Nat) : List Sizes :=
  [z.withEntries w slots, z.withSlots w slots]

namespace Column

variable {t : ColumnType} {s : Owned t} {xs : Slots} {i length slots needed : Nat}

theorem request_of_refused {α : Type} {part : Column t → Allocator.Request α}
    {place : α → Column t → Column t} {m : MemoryRefusal}
    (h : part s.column s.allocator = .refused m s.allocator) :
    Op.request part place s = .refused (.allocation m) s := by
  simp only [Op.request, h]

theorem growValues_refused (hs : s.Solvent)
    (hshort : ¬ s.HasRoom (s.column.sizes.withValues needed)) :
    ∃ m, growValues needed s = .refused (.allocation m) s := by
  have hroom := hs.hasRoom
  obtain ⟨m, hm⟩ := s.column.values.reserve_short (n := needed) hs.le_limit hs.limit_le
    fun hmachine => Nat.lt_of_not_le fun hle => hshort {
      account := by
        simp only [Sizes.total, Sizes.withValues, footprint, sizes, ValueStore.capacity] at hle ⊢
        omega
      flags := hroom.flags
      entries := hroom.entries
      values := hmachine }
  exact ⟨m, request_of_refused hm⟩

theorem growValues_asks (hs : s.Solvent) (needed : Nat) (B : Prop) :
    (growValues needed).Asks s [s.column.sizes.withValues needed] B :=
  Op.asks_one growValues_done (growValues_refused hs)

theorem growEntries_asks (hs : s.Solvent) (hcount : s.column.offsets.get? s.column.count ≠ none)
    (slots : Nat) (B : Prop) :
    (growEntries slots).Asks s [s.column.sizes.withEntries t.width slots] B := by
  have hroom := hs.hasRoom
  refine Op.asks_one (growEntries_done hcount) fun hshort => ?_
  obtain ⟨m, hm⟩ := s.column.offsets.reserve_short slots s.column.count
    hs.le_limit hs.limit_le fun hmachine => Nat.lt_of_not_le fun hle => hshort {
      account := by
        simp only [Sizes.total, Sizes.withEntries, footprint, sizes]
        omega
      flags := hroom.flags
      entries := Nat.max_lt.2 ⟨hroom.entries, hmachine⟩
      values := hroom.values }
  exact ⟨m, request_of_refused hm⟩

theorem growFlags_asks (hs : s.Solvent) (slots : Nat) (B : Prop) :
    (growFlags slots).Asks s [s.column.sizes.withFlags slots] B := by
  have hroom := hs.hasRoom
  refine Op.asks_one growFlags_done fun hshort => ?_
  obtain ⟨m, hm⟩ := s.column.validity.reserve_short (n := slots) hs.le_limit hs.limit_le
    fun hmachine => Nat.lt_of_not_le fun hle => hshort {
      account := by
        simp only [Sizes.total, Sizes.withFlags, footprint, sizes]
        omega
      flags := Nat.max_lt.2 ⟨hroom.flags, hmachine⟩
      entries := hroom.entries
      values := hroom.values }
  exact ⟨m, request_of_refused hm⟩

theorem growSlots_asks (hs : s.Solvent) (hcount : s.column.offsets.get? s.column.count ≠ none)
    (slots : Nat) (B : Prop) :
    (growSlots slots).Asks s (s.column.sizes.slotStages t.width slots) B := by
  refine Op.asks_bind [_] [_] hs (growEntries_asks hs hcount slots B)
    fun u hu hsolvent => ?_
  have hflags := growFlags_asks hsolvent slots B
  rwa [hu.sizes] at hflags

theorem reserve_asks (hs : s.Solvent) (hcount : s.column.offsets.get? s.column.count ≠ none)
    (slots bytes : Nat) (B : Prop) :
    (reserve slots bytes).Asks s (s.column.sizes.withValues bytes ::
      (s.column.sizes.withValues bytes).slotStages t.width slots) B := by
  refine Op.asks_bind [_] _ hs (growValues_asks hs bytes B) fun u hu hsolvent => ?_
  have hslots := growSlots_asks hsolvent (fun hn => hcount (hu.column.get?_count hn)) slots B
  rwa [hu.sizes] at hslots

/-! ## Room for a write -/

/-- The sizes on the way to room for slot `i`, the values taking `needed` bytes. -/
def roomStages (c : Column t) (i needed : Nat) : List Sizes :=
  c.valueSizes needed :: if c.slotCapacity ≤ i then
    (c.valueSizes needed).slotStages t.width
      (max (i + 1) (if c.slotCapacity = 0 then c.initialSlots else 2 * c.slotCapacity))
  else []

theorem getLastD_roomStages (c : Column t) (i needed : Nat) :
    (c.roomStages i needed).getLastD c.sizes = c.roomSizes i needed := by
  unfold roomStages roomSizes
  rw [List.getLastD_cons]
  by_cases hi : c.slotCapacity ≤ i
  · simp only [if_pos hi]
    rfl
  · simp only [if_neg hi]
    rfl

/-- Growing the values if they do not suffice, before the rest of an operation. -/
theorem growValues_before_asks (hs : s.Solvent) {rest : Op t Unit} {zs : List Sizes} {B : Prop}
    (h : ∀ u, s.Takes u (s.column.sizes.withValues needed) → u.Solvent → rest.Asks u zs B) :
    Op.Asks (if s.column.byteCapacity < needed then growValues needed >>= fun _ => rest else rest) s
      (s.column.sizes.withValues needed :: zs) B := by
  split
  · exact Op.asks_bind [_] _ hs (growValues_asks hs needed B) h
  · rename_i hle
    -- A request for no more than there is would be granted at once.
    have hsame := Sizes.withValues_of_le (z := s.column.sizes) (Nat.le_of_not_lt hle)
    rw [hsame] at h ⊢
    have hpure : (pure () : Op t Unit).Asks s [s.column.sizes] B :=
      Op.asks_one (fun _ => ⟨s, rfl, .refl s⟩) fun hshort => absurd hs.hasRoom hshort
    exact Op.asks_bind [_] zs hs hpure h

/-- The first request is refused before anything has changed. -/
theorem growValues_before_refused (hs : s.Solvent)
    (hshort : ¬ s.HasRoom (s.column.sizes.withValues needed)) (rest : Op t Unit) :
    ∃ m, (if s.column.byteCapacity < needed then growValues needed >>= fun _ => rest else rest) s =
      .refused (.allocation m) s := by
  split
  · obtain ⟨m, hm⟩ := growValues_refused hs hshort
    exact ⟨m, Call.bind_of_refused hm⟩
  · rename_i hle
    rw [Sizes.withValues_of_le (Nat.le_of_not_lt hle)] at hshort
    exact absurd hs.hasRoom hshort

/-- Without room for its value, a write is refused before anything has changed. -/
theorem Encodes.makeRoom_short (h : s.column.Encodes xs) (hs : s.Solvent)
    (hfits : xs.sizeWith i length ≤ t.width.max)
    (hshort : ¬ s.HasRoom (s.column.valueSizes (xs.sizeWith i length))) :
    ∃ m, makeRoom i length s = .refused (.allocation m) s := by
  unfold makeRoom
  rw [Call.bind_of_done (Op.column_apply s),
    Call.bind_of_done (h.neededBytes_done (Slots.addressable_of_sizeWith hfits) s),
    if_neg (Nat.not_lt_of_le hfits)]
  exact growValues_before_refused hs hshort _

/-- Growing the slots if slot `i` does not fit, at the end of an operation. -/
theorem growSlots_after_asks (hs : s.Solvent)
    (hcount : s.column.offsets.get? s.column.count ≠ none) (capacity i wish : Nat) :
    Op.Asks (if capacity ≤ i then do
        let slots ← Call.require (Size.add? i 1)
        growSlots (max slots wish)
      else pure ()) s
      (if capacity ≤ i then s.column.sizes.slotStages t.width (max (i + 1) wish) else [])
      (Size.max ≤ i) := by
  split
  · cases hadd : Size.add? i 1 with
    | none => exact Nat.le_of_lt_succ (Size.add?_eq_none_iff.1 hadd)
    | some slots =>
      obtain ⟨rfl, -⟩ := Size.add?_eq_some_iff.1 hadd
      exact growSlots_asks hs hcount _ _
  · exact Op.asks_pure s _

/-- Room for a write whose values end at an offset. -/
theorem Encodes.makeRoom_asks (h : s.column.Encodes xs) (hs : s.Solvent)
    (hfits : xs.sizeWith i length ≤ t.width.max) :
    (makeRoom i length).Asks s (s.column.roomStages i (xs.sizeWith i length)) (Size.max ≤ i) := by
  unfold Op.Asks makeRoom roomStages valueSizes
  rw [Call.bind_of_done (Op.column_apply s),
    Call.bind_of_done (h.neededBytes_done (Slots.addressable_of_sizeWith hfits) s),
    if_neg (Nat.not_lt_of_le hfits)]
  refine growValues_before_asks hs fun u hu hsolvent => ?_
  rw [← hu.sizes]
  exact growSlots_after_asks hsolvent (h.growsTo hu.column).get?_count_ne_none _ i _

end Column

/-! ## Edits -/

namespace Op

variable {t : ColumnType} {op : Op t Unit} {s : Owned t} {zs : List Sizes} {B : Prop}

/-- An operation is refused exactly if one of several sizes to be taken in turn is out of reach, and
leaves the last ones before it. -/
def RefusedAmong (op : Op t Unit) (s : Owned t) (zs : List Sizes) : Prop :=
  (op s).Sat (fun _ _ => ∀ z ∈ zs, s.HasRoom z)
    (fun e u => (∃ m, e = .allocation m) ∧ (∃ z ∈ zs, ¬ s.HasRoom z) ∧
      s.Takes u (s.kept s.column.sizes zs)) True

theorem Asks.refusedAmong (h : op.Asks s zs B) : op.RefusedAmong s zs :=
  Outcome.Sat.mono h (fun _ _ hu => hu.1) (fun _ _ hu => hu) fun _ => trivial

theorem RefusedAmong.congr {op' : Op t Unit} (h : op s = op' s) (h' : op'.RefusedAmong s zs) :
    op.RefusedAmong s zs := by
  unfold RefusedAmong
  rw [h]
  exact h'

/-- A change of the column is never refused. -/
theorem refusedAmong_change (f : Column t → Option (Column t)) (s : Owned t) :
    (change f).RefusedAmong s [] :=
  (change_sat f s).mono (fun _ _ _ _ => nofun) (fun _ _ => False.elim) id

/-- So nothing is refused after the last request. -/
theorem Asks.change (h : op.Asks s zs B) (f : Column t → Option (Column t)) :
    Op.RefusedAmong (op >>= fun _ => Op.change f) s zs :=
  Call.sat_bind.2 (Outcome.Sat.mono h
    (fun _ u hu => (change_sat f u).mono (fun _ _ _ => hu.1) (fun _ _ => False.elim) id)
    (fun _ _ hu => hu) fun _ => trivial)

end Op

namespace Edit

variable {t : ColumnType} {s : Owned t} {xs : Slots} {e : Edit}

/-- The sizes that the buffers of a column with the given slots pass through when an edit is done. -/
def stages (c : Column t) (xs : Slots) : Edit → List Sizes
  | set i x => c.roomStages i (xs.sizeWith i ((x.map Blob.size).getD 0))
  | setText i text => c.roomStages i (xs.sizeWith i (Blob.ofText text).size)
  | push x => c.roomStages xs.length (xs.sizeWith xs.length ((x.map Blob.size).getD 0))
  | pushText text =>
    c.roomStages xs.length (xs.sizeWith xs.length (((text.map Blob.ofText).map Blob.size).getD 0))
  | setCount n =>
    if c.slotCapacity < n then c.sizes.slotStages t.width (max n (2 * c.slotCapacity)) else []
  | padTo n => if 0 < n then c.roomStages (n - 1) (xs.sizeWith (n - 1) 0) else []
  | reserve slots bytes =>
    c.sizes.withValues bytes :: (c.sizes.withValues bytes).slotStages t.width slots
  | _ => []

/-- The last of them are the sizes that it asks for. -/
theorem getLastD_stages (c : Column t) (xs : Slots) (e : Edit) :
    (e.stages c xs).getLastD c.sizes = e.sizes c xs := by
  cases e with
  | set | setText | push | pushText => exact c.getLastD_roomStages _ _
  | setCount n =>
    simp only [stages, sizes]
    split <;> rfl
  | padTo n =>
    simp only [stages, sizes]
    split
    · exact c.getLastD_roomStages _ _
    · rfl
  | _ => rfl

theorem hasRoom_sizes (hs : s.Solvent) (h : ∀ z ∈ e.stages s.column xs, s.HasRoom z) :
    s.HasRoom (e.sizes s.column xs) := by
  rw [← getLastD_stages]
  rcases List.mem_cons.1 (List.getLastD_mem_cons (l := e.stages s.column xs)
    (a := s.column.sizes)) with heq | hmem
  · rw [heq]
    exact hs.hasRoom
  · exact h _ hmem

/-- In the way of an edit that fits stands nothing but the first of its stages that is out of
reach. -/
theorem run_asks (h : s.column.Encodes xs) (hs : s.Solvent) (hatomic : e.Atomic)
    (hfits : e.Fits t.width xs) : Op.RefusedAmong e.run s (e.stages s.column xs) := by
  have hcount := h.get?_count_ne_none
  have hset : ∀ i x, xs.sizeWith i ((x.map Blob.size).getD 0) ≤ t.width.max →
      Op.RefusedAmong (Column.set i x) s
        (s.column.roomStages i (xs.sizeWith i ((x.map Blob.size).getD 0))) :=
    fun i x hfits => (h.makeRoom_asks hs hfits).change _
  cases e with
  | set i x => exact hset i x hfits
  | setText i text => exact hset i (some (.ofText text)) hfits
  | push x => exact (hset _ x hfits).congr (by rw [run, Column.push, h.count])
  | pushText text =>
    exact (hset _ _ hfits).congr (by rw [run, Column.pushText, Column.push, h.count])
  | setCount n =>
    refine Op.RefusedAmong.congr (Call.bind_of_done (Op.column_apply s)) ?_
    simp only [stages]
    split
    · exact (Column.growSlots_asks hs hcount _ True).change _
    · exact Op.refusedAmong_change _ s
  | padTo n =>
    simp only [run, Column.padTo, stages]
    split
    · exact (h.makeRoom_asks hs (sizeWith_zero_le h _)).change _
    · exact Op.refusedAmong_change _ s
  | setLast last =>
    refine Op.RefusedAmong.congr (Call.bind_of_done (Op.column_apply s)) ?_
    cases last with
    | none => exact Op.refusedAmong_change _ s
    | some i =>
      have hi : i < s.column.count := by rw [h.count]; exact hfits i rfl
      simp only [if_neg (Nat.not_le_of_lt hi)]
      exact Op.refusedAmong_change _ s
  | reserve slots bytes => exact (Column.reserve_asks hs hcount slots bytes True).refusedAmong
  | _ => exact hatomic.elim

/-- If there is no room for the sizes it asks for, then it is refused. -/
theorem run_short (h : s.column.Encodes xs) (hs : s.Solvent) (hatomic : e.Atomic) (hsized : e.Sized)
    (hfits : e.Fits t.width xs) (hshort : ¬ s.HasRoom (e.sizes s.column xs)) :
    ∃ m u, e.run s = .refused (.allocation m) u ∧
      s.Takes u (s.kept s.column.sizes (e.stages s.column xs)) := by
  have hsat := (run_sat h e hatomic.safe).and (run_asks h hs hatomic hfits)
  cases hr : e.run s with
  | done _ u =>
    rw [hr] at hsat
    exact absurd (hasRoom_sizes hs hsat.2) hshort
  | refused err u =>
    rw [hr] at hsat
    obtain ⟨-, ⟨m, rfl⟩, -, htakes⟩ := hsat
    exact ⟨m, u, rfl, htakes⟩
  | breach =>
    rw [hr] at hsat
    exact absurd hsized hsat.1

end Edit

namespace Workspace

variable {t : ColumnType} {w : Workspace} {limits : List Nat} {home : Nat}

/-- Every account of a reachable workspace keeps to its limit, with any of its columns. -/
theorem Reachable.solvent (h : Reachable limits w) (hlimits : ∀ l ∈ limits, l ≤ Size.max)
    {a : Allocator} (ha : w.allocators[home]? = some a) (c : Column t) :
    (Owned.mk a c).Solvent := by
  have haccounts := (h.balanced hlimits).held home a ha
  exact ⟨by rw [haccounts.allocated]; exact haccounts.le_limit, haccounts.limit_le⟩

end Workspace

end PackedColumn
