import PackedColumn.Proofs.Exchange
import PackedColumn.Proofs.Reserves

/-!
# The sizes of the first allocation

A column keeps how many slots and how many value bytes its first allocation
makes room for, but not the width of a slot that the bytes came from. Sizing
the first allocation for another number of slots divides one by the other to
get the width back (`Settings.resized`). That gives the width that was set,
except that without slots to divide by it gives the usual width, and where the
bytes had stopped at the largest size it gives the width that they still allow.

* `expectSlots_new`: a column resized once is a new one with other settings.
* `Settings.widthAfter`: the width after any number of times, and `widthAfter_eq`: when it is the one
  that was set.
* `renew_after_expectSlots`: what the next allocation asks for and gets.
* `expectSlots_loses_width`: where it is not what the width that was set comes to.
-/

namespace PackedColumn

namespace Settings

variable {s : Settings} {ns : List Nat} {n : Nat}

/-- The width that a size for `slots` slots gives back when it came from a given width. -/
def recovered (width slots : Nat) : Nat :=
  if slots = 0 then default.averageWidth else min width (Size.max / slots)

/-- The settings of a column sized anew for `n` slots. -/
def resized (s : Settings) (n : Nat) : Settings :=
  { s with initialSlots := n, averageWidth := recovered s.averageWidth s.initialSlots }

/-- The width of a slot once a column with the settings was sized for each of some numbers of slots,
and then is for another one. -/
def widthAfter (s : Settings) (ns : List Nat) : Nat :=
  (s.initialSlots :: ns).foldl recovered s.averageWidth

theorem recovered_of_le {width slots : Nat} (hslots : slots ≠ 0) (h : slots * width ≤ Size.max) :
    recovered width slots = width := by
  rw [recovered, if_neg hslots]
  refine Nat.min_eq_left ((Nat.le_div_iff_mul_le (Nat.pos_of_ne_zero hslots)).2 ?_)
  rwa [Nat.mul_comm]

/-- No width is lost as long as there are slots to divide by and no product stops at the largest
size. -/
theorem widthAfter_eq (h : ∀ k ∈ s.initialSlots :: ns, k ≠ 0 ∧ k * s.averageWidth ≤ Size.max) :
    s.widthAfter ns = s.averageWidth := by
  rw [widthAfter]
  generalize s.initialSlots :: ns = ks at h ⊢
  induction ks with
  | nil => rfl
  | cons k ks ih =>
    obtain ⟨hk, hle⟩ := h k List.mem_cons_self
    rw [List.foldl_cons, recovered_of_le hk hle]
    exact ih fun j hj => h j (List.mem_cons_of_mem k hj)

theorem foldl_resized (s : Settings) (ns : List Nat) (n : Nat) :
    (ns ++ [n]).foldl resized s =
      { s with initialSlots := n, averageWidth := s.widthAfter ns } := by
  induction ns generalizing s with
  | nil => rfl
  | cons m ms ih =>
    rw [List.cons_append, List.foldl_cons, ih]
    rfl

end Settings

theorem Size.mulSat_div {slots : Nat} (h : slots ≠ 0) (width : Nat) :
    mulSat slots width / slots = min width (max / slots) := by
  have hpos := Nat.pos_of_ne_zero h
  rw [mulSat]
  rcases Nat.le_total (slots * width) max with hle | hle
  · have hwidth : width ≤ max / slots :=
      (Nat.le_div_iff_mul_le hpos).2 (by rwa [Nat.mul_comm])
    rw [Nat.min_eq_left hle, Nat.min_eq_left hwidth, Nat.mul_div_cancel_left _ hpos]
  · have hwidth : max / slots ≤ width := by
      have := Nat.div_le_div_right (c := slots) hle
      rwa [Nat.mul_div_cancel_left _ hpos] at this
    rw [Nat.min_eq_right hle, Nat.min_eq_right hwidth]

namespace Column

variable {t : ColumnType} {c : Column t} {a : Allocator} {field : Field} {settings : Settings}

/-! ## Sizing the first allocation -/

theorem expectSlots_new (name : String) (nullable : Bool) (s : Settings) (n : Nat) :
    (new name nullable s : Column t).expectSlots n = new name nullable (s.resized n) := by
  have hwidth : (if s.initialSlots = 0 then Settings.default.averageWidth
      else s.initialBytes s.initialSlots / s.initialSlots) =
        Settings.recovered s.averageWidth s.initialSlots := by
    rw [Settings.recovered]
    split
    · rfl
    · rename_i hslots
      exact Size.mulSat_div hslots s.averageWidth
  exact congrArg (fun width =>
    ({ new name nullable s with
      initialSlots := n, initialBytes := Size.mulSat n width } : Column t))
    hwidth

theorem runAll_expectSlots (name : String) (nullable : Bool) (s : Settings) (ns : List Nat)
    (a : Allocator) :
    Edit.runAll ⟨a, (new name nullable s : Column t)⟩ (ns.map .expectSlots) =
      some ⟨a, new name nullable (ns.foldl Settings.resized s)⟩ := by
  induction ns generalizing s with
  | nil => rfl
  | cons n ns ih =>
    have hstep : (Edit.expectSlots n).run ⟨a, (new name nullable s : Column t)⟩ =
        .done () ⟨a, new name nullable (s.resized n)⟩ := by
      rw [← expectSlots_new]
      rfl
    rw [List.map_cons, Edit.runAll_cons, hstep]
    exact ih _

/-! ## The allocation -/

/-- The first allocation of a column asks for room for `slots` slots and `bytes` value bytes, and gets
it where there is such room. -/
structure FirstAsks (c : Column t) (a : Allocator) (bytes slots : Nat) : Prop where
  initialSlots : c.initialSlots = slots
  initialBytes : c.initialBytes = bytes
  asks : renew ⟨a, c⟩ = renewWith bytes slots ⟨a, c⟩
  gets : (Owned.mk a c).HasRoom (((Sizes.mk 0 0 0).withValues bytes).withSlots t.width slots) →
    ∃ u, renew ⟨a, c⟩ = .done () u ∧ u.column.Renewed bytes slots

theorem firstAsks_new (ha : a.limit ≤ Size.max) (name : String) (nullable : Bool) (s : Settings) :
    (new name nullable s : Column t).FirstAsks a (s.initialBytes s.initialSlots) s.initialSlots := by
  refine ⟨rfl, rfl, rfl, fun hroom => ?_⟩
  have hallocated : a.allocated ≤ Size.max := by
    have haccount := hroom.account
    rw [footprint_new] at haccount
    dsimp only at haccount
    omega
  obtain ⟨u, hreserve, -⟩ := reserve_done (s := ⟨a, new name nullable s⟩) (t := t)
    (encodes_new name nullable s).get?_count_ne_none hroom
  rw [← clear_new hallocated] at hreserve
  exact ⟨u, renewWith_eq_done_iff.2 hreserve, renewed_of_done hreserve⟩

/-- A column made with settings, and sized for one number of slots after the other, the last one being
`n`: its first allocation asks for `n` slots of the width that is left of the one that was set. That
is the whole width, whatever the numbers before were, if none of them was 0 and none so large that
the bytes for as many slots exceed the sizes. -/
theorem renew_after_expectSlots (hc : ofField t field settings = .ok c) (ha : a.limit ≤ Size.max)
    (ns : List Nat) (n : Nat) :
    ∃ d : Column t, Edit.runAll ⟨a, c⟩ ((ns ++ [n]).map .expectSlots) = some ⟨a, d⟩ ∧
      d.FirstAsks a (Size.mulSat n (settings.widthAfter ns)) n ∧
      ((∀ k ∈ settings.initialSlots :: ns, k ≠ 0 ∧ k * settings.averageWidth ≤ Size.max) →
        d.FirstAsks a (Size.mulSat n settings.averageWidth) n) := by
  unfold ofField at hc
  split at hc
  · cases hc
    have hrun := runAll_expectSlots (t := t) field.name field.nullable settings (ns ++ [n]) a
    rw [Settings.foldl_resized] at hrun
    have hasks := firstAsks_new (t := t) ha field.name field.nullable
      { settings with initialSlots := n, averageWidth := settings.widthAfter ns }
    refine ⟨_, hrun, hasks, fun hkept => ?_⟩
    rw [← Settings.widthAfter_eq hkept]
    exact hasks
  · cases hc

/-- Sizes asked for and given up again before the allocation. -/
theorem renew_after_expectSlots_of_resized : ∃ (c d : Column ⟨.bytes, .narrow⟩)
    (u : Owned ⟨.bytes, .narrow⟩),
    ofField ⟨.bytes, .narrow⟩ { name := "v", type := ⟨.bytes, .narrow⟩ }
      { initialSlots := 16, averageWidth := 4 } = .ok c ∧
    Edit.runAll ⟨.unlimited, c⟩ [.expectSlots 7, .expectSlots 300, .expectSlots 100] =
      some ⟨.unlimited, d⟩ ∧
    renew ⟨.unlimited, d⟩ = .done () u ∧ u.column.Renewed 400 100 := by
  have hmade : ofField ⟨.bytes, .narrow⟩ { name := "v", type := ⟨.bytes, .narrow⟩ }
      { initialSlots := 16, averageWidth := 4 } =
        .ok (new "v" true { initialSlots := 16, averageWidth := 4 }) := rfl
  obtain ⟨d, hrun, -, hkept⟩ :=
    renew_after_expectSlots hmade (a := .unlimited) (Nat.le_refl _) [7, 300] 100
  have hasks := hkept (by decide)
  have haccount :
      0 + (((Sizes.mk 0 0 0).withValues 400).withSlots .narrow 100).total ≤ Size.max := by decide
  obtain ⟨u, hrenew, hu⟩ := hasks.gets
    ⟨Nat.le_trans haccount (Nat.le_add_right ..), by decide, by decide, by decide⟩
  exact ⟨_, d, u, hmade, hrun, hrenew, hu⟩

/-- Without slots to divide by, and after a size that stopped at the largest one, the first allocation
is not for the width that was set. -/
theorem expectSlots_loses_width :
    (Edit.runAll ⟨.unlimited, (new "v" true { initialSlots := 0, averageWidth := 4 } :
        Column ⟨.bytes, .narrow⟩)⟩ [.expectSlots 100, .renew]).map (·.column.byteCapacity) = some 832 ∧
      (Edit.runAll ⟨.unlimited, (new "v" true { initialSlots := Size.max, averageWidth := 4 } :
        Column ⟨.bytes, .narrow⟩)⟩ [.expectSlots 100, .renew]).map (·.column.byteCapacity) = some 128 ∧
      Size.roundUp (Size.mulSat 100 4) = 448 := by
  decide +kernel

end Column

end PackedColumn
