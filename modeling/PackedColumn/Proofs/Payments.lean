import PackedColumn.Column.Exchange
import PackedColumn.Column.Handover
import PackedColumn.Edit
import PackedColumn.Proofs.Growth
import PackedColumn.Proofs.Writes

/-!
# What operations on one column cost

Every operation leaves the account of a column charged for the memory the
column holds then, and for whatever else it was charged for before
(`Owned.Settles`). This needs no assumption on what the buffers stand for, and
it holds of refused operations as well.

* `Op.settles_bind` and its kin: sequences of operations that settle.
* `Edit.run_settles`: every edit settles.
* `copyRange_settles`, `copySlot_settles`, `copySlotWithin_settles`: so do copies from other columns.
* `build_pays`: a new column is paid for, or given up for nothing.
* `Pair.transfer_sat`: what both accounts hold after a transfer.
-/

namespace PackedColumn

namespace Owned

variable {t : ColumnType} {s u v : Owned t}

/-- From one state to another the account goes on holding what the column holds, beside any number
of bytes it holds for others, under the same limit. -/
def Settles (s u : Owned t) : Prop :=
  ∀ k, s.allocator.Accounts (k + s.column.footprint) →
    u.allocator.Accounts (k + u.column.footprint) ∧ u.allocator.limit = s.allocator.limit

namespace Settles

theorem refl (s : Owned t) : s.Settles s := fun _ h => ⟨h, rfl⟩

theorem trans (h : s.Settles u) (h' : u.Settles v) : s.Settles v := fun k hs => by
  obtain ⟨hu, hl⟩ := h k hs
  obtain ⟨hv, hl'⟩ := h' k hu
  exact ⟨hv, hl'.trans hl⟩

end Settles

theorem GrowsTo.settles (h : s.GrowsTo u) : s.Settles u := fun k hs => by
  have hgrants := h.account hs.limit_le
  have hle := h.column.footprint_le
  have hu := hs.grants hgrants
  rw [Nat.add_assoc, Nat.add_sub_cancel' hle] at hu
  exact ⟨hu, hgrants.limit_eq⟩

theorem settles_of_footprint {c : Column t} (h : c.footprint = s.column.footprint) :
    s.Settles ⟨s.allocator, c⟩ := fun k hs => ⟨by rw [h]; exact hs, rfl⟩

theorem clear_settles (s : Owned t) : s.Settles s.clear := fun k hs => by
  have hv : s.allocator.Accounts (k + s.column.values.block.size + s.column.offsets.block.size +
      s.column.validity.block.size) := by
    rw [show k + s.column.values.block.size + s.column.offsets.block.size +
      s.column.validity.block.size = k + s.column.footprint by simp only [Column.footprint]; omega]
    exact hs
  exact ⟨hv.discharge.discharge.discharge, rfl⟩

end Owned

/-! ## Sequences -/

namespace Op

variable {t : ColumnType} {α β : Type}

/-- An operation that settles however it ends. -/
def Settles (op : Op t α) : Prop :=
  ∀ s, (op s).Sat (fun _ u => s.Settles u) (fun _ u => s.Settles u) True

theorem settles_pure (a : α) : Settles (pure a : Op t α) := fun s => .refl s

theorem settles_refuse (e : ColumnError) : Settles (Call.refuse e : Op t α) := fun s => .refl s

theorem settles_column : Settles (column : Op t (Column t)) := fun s => .refl s

theorem settles_require (x : Option α) : Settles (Call.require x : Op t α) := fun s =>
  Call.sat_require.2 ⟨fun _ _ => .refl s, fun _ => trivial⟩

theorem settles_ofExcept (x : Except ColumnError α) : Settles (Call.ofExcept x : Op t α) := fun s =>
  Call.sat_ofExcept.2 ⟨fun _ _ => .refl s, fun _ _ => .refl s⟩

theorem settles_modify {f : Column t → Column t} (h : ∀ c, (f c).footprint = c.footprint) :
    Settles (modify f) := fun s => Owned.settles_of_footprint (h s.column)

theorem settles_change {f : Column t → Option (Column t)}
    (h : ∀ c d, f c = some d → d.footprint = c.footprint) : Settles (change f) := fun s => by
  cases hf : f s.column with
  | none => rw [change_of_none hf]; trivial
  | some d => rw [change_of_some hf]; exact Owned.settles_of_footprint (h _ d hf)

theorem settles_bind {op : Op t α} {next : α → Op t β} (h : Settles op)
    (hnext : ∀ a, Settles (next a)) : Settles (op >>= next) := fun s =>
  Call.sat_bind.2 ((h s).mono
    (fun a u hu => (hnext a u).mono (fun _ _ hv => hu.trans hv) (fun _ _ hv => hu.trans hv) id)
    (fun _ _ hu => hu) id)

theorem settles_ite {p : Prop} [Decidable p] {op op' : Op t α} (h : Settles op)
    (h' : Settles op') : Settles (if p then op else op') := by
  split
  · exact h
  · exact h'

end Op

/-! ## Edits -/

namespace Column

variable {t : ColumnType}

theorem growSlots_settles (slots : Nat) : Op.Settles (growSlots slots : Op t Unit) := fun s =>
  (growSlots_sat slots s).mono (fun _ _ h => h.1.settles) (fun _ _ h => h.settles) fun _ => trivial

theorem reserve_settles (slots bytes : Nat) : Op.Settles (reserve slots bytes : Op t Unit) :=
  fun s => (reserve_sat slots bytes s).mono (fun _ _ h => h.1.settles) (fun _ _ h => h.settles)
    fun _ => trivial

theorem makeRoom_settles (i length : Nat) : Op.Settles (makeRoom i length : Op t Unit) := fun s =>
  (makeRoom_grows i length s).mono (fun _ _ h => h.settles) (fun _ _ h => h.settles) id

theorem put_settles (i : Nat) (x : Option (List UInt8)) :
    Op.Settles (Op.change fun c : Column t => c.put? i x) :=
  Op.settles_change fun _ _ h => (put?_inPlace h).footprint_eq

theorem set_settles (i : Nat) (x : Option Blob) : Op.Settles (set i x : Op t Unit) :=
  Op.settles_bind (makeRoom_settles _ _) fun _ => put_settles _ _

theorem push_settles (x : Option Blob) : Op.Settles (push x : Op t Unit) := fun s =>
  set_settles s.column.count x s

theorem pushAll_settles (xs : List (Option Blob)) : Op.Settles (pushAll xs : Op t Unit) := by
  induction xs with
  | nil => exact Op.settles_pure ()
  | cons x xs ih => exact Op.settles_bind (push_settles x) fun _ => ih

theorem setFrom_settles (i : Nat) (xs : List (Option (List UInt8))) :
    Op.Settles (setFrom i xs : Op t Unit) := by
  induction xs generalizing i with
  | nil => exact Op.settles_pure ()
  | cons x xs ih => exact Op.settles_bind (set_settles i _) fun _ => ih (i + 1)

theorem setCount_settles (n : Nat) : Op.Settles (setCount n : Op t Unit) := by
  have hchange : Op.Settles (Op.change fun c : Column t => c.follow? (c.extent.planCount? n)) :=
    Op.settles_change fun _ _ h => (follow?_inPlace h).footprint_eq
  exact Op.settles_bind Op.settles_column fun c =>
    Op.settles_ite (Op.settles_bind (growSlots_settles _) fun _ => hchange) hchange

theorem padTo_settles (n : Nat) : Op.Settles (padTo n : Op t Unit) := by
  have hchange : Op.Settles (Op.change fun c : Column t => c.follow? (c.extent.planPad? n)) :=
    Op.settles_change fun _ _ h => (follow?_inPlace h).footprint_eq
  exact Op.settles_ite (Op.settles_bind (makeRoom_settles _ _) fun _ => hchange) hchange

theorem setLast_settles (last : Option Nat) : Op.Settles (setLast last : Op t Unit) := by
  have hchange : Op.Settles (Op.change fun c : Column t =>
      c.blank? ((last.map (· + 1)).getD 0) c.count { c.extent with last }) :=
    Op.settles_change fun _ _ h => (blank?_inPlace h).footprint_eq
  refine Op.settles_bind Op.settles_column fun c => ?_
  cases last with
  | none => exact hchange
  | some i => exact Op.settles_ite (Op.settles_bind (Op.settles_refuse _) fun _ => hchange) hchange

theorem renewWith_settles (bytes slots : Nat) : Op.Settles (renewWith bytes slots : Op t Unit) := by
  intro s
  have hclear := Owned.clear_settles s
  have hreserve := (reserve_settles slots bytes s.clear).mono
    (fun _ u hu => hclear.trans hu) (fun _ u hu => (hclear.trans hu).trans (Owned.clear_settles u)) id
  unfold renewWith
  cases hr : reserve slots bytes s.clear <;> rw [hr] at hreserve <;> exact hreserve

theorem footprint_reset (c : Column t) : c.reset.footprint = c.footprint := by
  simp only [footprint, reset, Validity.clear, OffsetTable.clear, ValueStore.clear, Block.size_fill]

end Column

theorem Edit.run_settles {t : ColumnType} (e : Edit) : Op.Settles (e.run : Op t Unit) := by
  cases e with
  | overwrite i x => exact Column.put_settles i _
  | set i x => exact Column.set_settles i x
  | setText i text => exact Column.set_settles i _
  | push x => exact Column.push_settles x
  | pushText text => exact Column.push_settles _
  | pushAll xs => exact Column.pushAll_settles xs
  | setCount n => exact Column.setCount_settles n
  | padTo n => exact Column.padTo_settles n
  | setLast last => exact Column.setLast_settles last
  | expectSlots slots => exact Op.settles_modify fun _ => rfl
  | expectDensity slots density => exact Op.settles_modify fun _ => rfl
  | renew => exact Op.settles_bind Op.settles_column fun _ => Column.renewWith_settles _ _
  | renewWith bytes slots => exact Column.renewWith_settles bytes slots
  | reserve slots bytes => exact Column.reserve_settles slots bytes
  | reset => exact Op.settles_modify Column.footprint_reset
  | clear => exact Owned.clear_settles

/-! ## Several columns -/

namespace Column

variable {t : ColumnType}

theorem copySlot_settles (source : Column t) (i j : Nat) : Op.Settles (copySlot source i j) :=
  Op.settles_bind (Op.settles_bind (Op.settles_require _) fun _ => Op.settles_ofExcept _)
    fun _ => set_settles _ _

theorem copySlotWithin_settles (source : Column t) (i j : Nat) :
    Op.Settles (copySlotWithin source i j) :=
  Op.settles_bind (Op.settles_bind (Op.settles_require _) fun _ => Op.settles_ofExcept _)
    fun _ => put_settles _ _

theorem rebase?_size {w : OffsetWidth} {source dest out : OffsetTable w} {start i n : Nat}
    {base : Int} (h : rebase? source start base dest i n = some out) :
    out.block.size = dest.block.size := by
  induction n generalizing dest i with
  | zero => cases h; rfl
  | succ n ih =>
    simp only [rebase?, Option.bind_eq_bind, Option.bind_eq_some_iff] at h
    obtain ⟨entry, -, h⟩ := h
    split at h
    · obtain ⟨o, ho, h⟩ := Option.bind_eq_some_iff.1 h
      obtain ⟨-, rfl⟩ := OffsetTable.put?_eq_some_iff.1 ho
      rw [ih h, OffsetTable.size_put]
    · cases h

theorem copyBits?_size {v w : Validity} {src : Bytes} {pos n : Nat}
    (h : v.copyBits? src pos n = some w) : w.block.size = v.block.size := by
  unfold Validity.copyBits? at h
  split at h
  · cases h
  · rename_i bytes hcopy
    cases h
    exact Bits.size_of_copy? hcopy

theorem copiedFrom?_footprint {c source d : Column t} {start length : Nat}
    (h : c.copiedFrom? source start length = some d) : d.footprint = c.footprint := by
  simp only [copiedFrom?, Option.bind_eq_bind, Option.bind_eq_some_iff] at h
  obtain ⟨base, -, ⟨first, bytes⟩, -, offsets, ho, data, -, values, hs, flags, -, validity, hv, h⟩ := h
  cases h
  simp only [footprint, rebase?_size ho, copyBits?_size hv, write?_size hs]

/-- The account is charged for the new buffers beside the former ones, which are given back once the
slots are copied. -/
theorem copyRange_settles (source : Column t) (start length : Nat) :
    Op.Settles (copyRange source start length) := by
  intro s
  unfold copyRange
  split
  · exact .refl s
  split
  · exact Owned.clear_settles s
  split
  · trivial
  rename_i bytes _
  have hreserve := reserve_settles length bytes
    ⟨s.allocator, (new s.column.name s.column.nullable .default : Column t)⟩
  revert hreserve
  cases reserve length bytes ⟨s.allocator, new s.column.name s.column.nullable .default⟩ with
  | breach => exact id
  | refused e fresh =>
    intro hfresh k hs
    obtain ⟨hclear, hl⟩ := (hfresh.trans (Owned.clear_settles fresh)) _ hs
    exact ⟨hclear, hl⟩
  | done _ fresh =>
    intro hfresh
    dsimp only
    split
    · trivial
    · rename_i copy hcopy
      intro k hs
      obtain ⟨hboth, hl⟩ := hfresh (k + s.column.footprint) hs
      rw [Nat.add_right_comm] at hboth
      obtain ⟨hclear, hl'⟩ := Owned.clear_settles ⟨fresh.allocator, s.column⟩ _ hboth
      rw [← copiedFrom?_footprint hcopy] at hclear
      exact ⟨hclear, hl'.trans hl⟩

/-! ## New columns -/

/-- A new column is charged to the account that it is made with, and costs nothing when its making
is refused. -/
def Pays (make : Call ColumnError Allocator (Column t)) : Prop := ∀ a k, a.Accounts k →
  (make a).Sat (fun c b => b.Accounts (k + c.footprint) ∧ b.limit = a.limit)
    (fun _ b => b.Accounts k ∧ b.limit = a.limit) True

theorem pays_pure {c : Column t} (h : c.footprint = 0) :
    Pays (pure c : Call ColumnError Allocator (Column t)) := fun a k ha => by
  rw [Call.pure_apply, Outcome.sat_done, h]
  exact ⟨ha, rfl⟩

theorem build_pays {fresh : Column t} {op : Op t Unit} (h : fresh.footprint = 0)
    (hop : Op.Settles op) : Pays (build fresh op) := by
  intro a k ha
  have hsat := hop ⟨a, fresh⟩
  have hfresh : a.Accounts (k + fresh.footprint) := by rw [h]; exact ha
  unfold build
  cases hr : op ⟨a, fresh⟩ with
  | done _ s => rw [hr] at hsat; exact hsat k hfresh
  | refused e s => rw [hr] at hsat; exact hsat.trans (Owned.clear_settles s) k hfresh
  | breach => trivial

theorem ofArrow_pays (name : String) (a : ArrowArray) : Pays (ofArrow name a (t := t)) :=
  build_pays rfl (Op.settles_bind (renewWith_settles _ _) fun _ => setFrom_settles _ _)

theorem ofValues_pays (values : List (Option Blob)) : Pays (ofValues values (t := t)) :=
  build_pays rfl (Op.settles_bind (renewWith_settles _ _) fun _ => pushAll_settles values)

end Column

/-! ## Transfers -/

namespace Allocator

theorem adoptBlocks_sat (bs : List Block) {a : Allocator} {k : Nat} (h : a.Accounts k) :
    (adoptBlocks bs a).Sat
      (fun _ b => b.Accounts (k + Size.total (bs.map Block.size)) ∧ b.limit = a.limit) (fun _ b => b = a)
      False := by
  induction bs generalizing a k with
  | nil => exact ⟨h, rfl⟩
  | cons b bs ih =>
    simp only [adoptBlocks, adopt, charge_apply]
    split
    · rename_i hle
      have hcharged : (a.plus b.size).Accounts (k + b.size) := h.grants ⟨rfl, fun _ => hle⟩
      have hrest := ih hcharged
      simp only [Outcome.done_bind, List.map_cons, Size.total_cons]
      cases hr : adoptBlocks bs (a.plus b.size) with
      | done _ c =>
        rw [hr] at hrest
        rw [← Nat.add_assoc]
        exact hrest
      | refused e c =>
        rw [hr] at hrest
        cases hrest
        exact discharge_plus hle h.limit_le
      | breach => rw [hr] at hrest; exact hrest
    · rfl

theorem releaseBlocks_accounts (bs : List Block) {a : Allocator} {k : Nat}
    (h : a.Accounts (k + Size.total (bs.map Block.size))) :
    (a.releaseBlocks bs).Accounts k ∧ (a.releaseBlocks bs).limit = a.limit := by
  induction bs generalizing a with
  | nil => exact ⟨h, rfl⟩
  | cons b bs ih =>
    rw [List.map_cons, Size.total_cons, Nat.add_comm b.size, ← Nat.add_assoc] at h
    exact ih h.discharge

end Allocator

namespace Pair

variable {t : ColumnType} {source dest : Column t} {a b : Allocator} {j k : Nat}

/-- Within one account the memory of the source changes hands, and that of the destination is given
back. -/
theorem transfer_shared (h : a.Accounts (k + source.footprint + dest.footprint)) :
    ∃ b, transfer ⟨.shared a, source, dest⟩ =
        .done () ⟨.shared b, source.vacated, dest.withSlotsOf source⟩ ∧
      b.Accounts (k + source.footprint) ∧ b.limit = a.limit :=
  ⟨_, rfl, (Owned.clear_settles ⟨a, dest⟩) _ h⟩

theorem total_blocks (c : Column t) : Size.total (c.blocks.map Block.size) = c.footprint := by
  simp only [Column.blocks, Column.footprint, List.map_cons, List.map_nil, Size.total_cons,
    Size.total_nil]
  omega

/-- Between two accounts the one of the destination takes the memory of the source over, or refuses
and leaves everything as it was. -/
theorem transfer_separate (ha : a.Accounts (j + source.footprint))
    (hb : b.Accounts (k + dest.footprint)) :
    (transfer ⟨.separate a b, source, dest⟩).Sat
      (fun _ p => ∃ a' b', p = ⟨.separate a' b', source.vacated, dest.withSlotsOf source⟩ ∧
        (a'.Accounts j ∧ a'.limit = a.limit) ∧
        b'.Accounts (k + source.footprint) ∧ b'.limit = b.limit)
      (fun _ p => p = ⟨.separate a b, source, dest⟩) False := by
  have hadopt := Allocator.adoptBlocks_sat source.blocks hb
  refine Outcome.sat_bind.2 (Outcome.sat_lift.2 (hadopt.mono (fun _ c ⟨hc, hl⟩ => ?_)
    (fun _ c hc => by rw [hc]) id))
  rw [total_blocks, Nat.add_right_comm] at hc
  obtain ⟨hclear, hl'⟩ := Owned.clear_settles ⟨c, dest⟩ _ hc
  rw [← total_blocks] at ha
  exact ⟨_, _, rfl, Allocator.releaseBlocks_accounts _ ha, hclear, hl'.trans hl⟩

end Pair

end PackedColumn
