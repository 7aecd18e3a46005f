import PackedColumn.Memory.Allocator
import PackedColumn.Proofs.Outcomes

/-!
# Memory as it grows

A block that grows keeps its bytes and has zeros behind them
(`Block.GrowsTo`), and the account it is charged to goes up by as much as it
grew (`Allocator.Grants`), or stays as it was when the memory is refused.

* `reallocate_apply`: how a request for memory ends, in every case, and `reallocate_apply_true`:
  where the machine has whatever can be addressed.
* `allocate_eq_reallocate`: a new block is one grown from nothing.
* `reallocate_sat`: what follows for the block and the account.
* `Accounts.discharge`: an account that holds what is given back does not wrap.
-/

namespace PackedColumn

namespace Block

variable {space : Nat}

/-- A block grows to one with the same bytes and zeros behind them. -/
def GrowsTo (b c : Block space) : Prop := ∃ n, c.toList = b.toList ++ List.replicate n 0

namespace GrowsTo

variable {b c d : Block space}

theorem refl (b : Block space) : b.GrowsTo b := ⟨0, by simp⟩

theorem trans (h : b.GrowsTo c) (h' : c.GrowsTo d) : b.GrowsTo d := by
  obtain ⟨m, hm⟩ := h
  obtain ⟨n, hn⟩ := h'
  exact ⟨m + n, by rw [hn, hm, List.append_assoc, List.replicate_append_replicate]⟩

theorem size_le (h : b.GrowsTo c) : b.size ≤ c.size := by
  obtain ⟨n, hn⟩ := h
  have := congrArg List.length hn
  simp only [List.length_append, length_toList] at this
  omega

theorem isPrefix (h : b.GrowsTo c) : b.toList <+: c.toList := by
  obtain ⟨n, hn⟩ := h
  exact ⟨_, hn.symm⟩

/-- Past the end of a block its bytes count as zero, so growing changes none. -/
theorem getD_bytes (h : b.GrowsTo c) (k : Nat) : c.bytes.getD k 0 = b.bytes.getD k 0 := by
  obtain ⟨n, hn⟩ := h
  simp only [Array.getD_eq_getD_getElem?, ← Array.getElem?_toList]
  simp only [toList] at hn
  rw [hn]
  by_cases hk : k < b.bytes.toList.length
  · rw [List.getElem?_append_left hk]
  · rw [List.getElem?_append_right (by omega), List.getElem?_eq_none (Nat.le_of_not_lt hk),
      List.getElem?_replicate]
    split <;> rfl

end GrowsTo

theorem growsTo_grow (b : Block space) (n : Nat) (dvd : 64 ∣ n) (le : n ≤ space) :
    b.GrowsTo (b.grow n dvd le) := ⟨_, toList_grow ..⟩

theorem eq_empty_of_size {b : Block space} (h : b.size = 0) : b = empty :=
  ext_toList (by rw [List.eq_nil_of_length_eq_zero (by simpa using h : b.toList.length = 0)]; rfl)

theorem roundUp_le (b : Block space) {n : Nat} (h : n ≤ b.size) : Size.roundUp n ≤ b.size := by
  obtain ⟨m, hm⟩ := b.size_dvd
  simp only [size] at *
  unfold Size.roundUp
  omega

end Block

namespace Allocator

/-- What the machine has is not too large to be asked for. -/
theorem le_maxRequest {n : Nat} (h : Size.roundUp n < Block.bound) : n ≤ maxRequest := by
  have := Size.le_roundUp n
  simp only [Block.bound, maxRequest, Size.max] at *
  omega

/-- The account with `n` bytes more. -/
def plus (n : Nat) (a : Allocator) : Allocator := { a with allocated := a.allocated + n }

@[simp] theorem plus_zero (a : Allocator) : a.plus 0 = a := rfl

@[simp] theorem limit_plus (n : Nat) (a : Allocator) : (a.plus n).limit = a.limit := rfl

@[simp] theorem allocated_plus (n : Nat) (a : Allocator) :
    (a.plus n).allocated = a.allocated + n := rfl

theorem plus_plus (m n : Nat) (a : Allocator) : (a.plus m).plus n = a.plus (m + n) := by
  simp only [plus, Nat.add_assoc]

theorem charge_apply (n : Nat) (a : Allocator) :
    charge n a = if a.allocated + n ≤ a.limit then .done () (a.plus n)
      else .refused (.limitExceeded n a.allocated a.limit) a := rfl

theorem discharge_plus {n : Nat} {a : Allocator} (h : a.allocated + n ≤ a.limit)
    (hl : a.limit ≤ Size.max) : (a.plus n).discharge n = a :=
  discharge_charge hl (charge_of_le h)

variable {space : Nat}

/-- A request for memory: the four ways to end besides leaving a block that is long enough. -/
theorem reallocate_apply (b : Block space) (n : Nat) (granted : Bool) (a : Allocator) :
    reallocate b n granted a =
      if maxRequest < n then .refused .tooLarge a
      else if Size.roundUp n ≤ b.size then .done b a
      else if a.limit < a.allocated + (Size.roundUp n - b.size) then
        .refused (.limitExceeded (Size.roundUp n - b.size) a.allocated a.limit) a
      else if h : Available space (Size.roundUp n) granted then
        .done (b.grow _ (Size.roundUp_dvd n) h.le) (a.plus (Size.roundUp n - b.size))
      else .refused (machineError (Size.roundUp n))
        ((a.plus (Size.roundUp n - b.size)).discharge (Size.roundUp n - b.size)) := by
  unfold reallocate
  split
  · rfl
  split
  · rfl
  by_cases hl : a.limit < a.allocated + (Size.roundUp n - b.size)
  · rw [if_pos hl, Call.bind_of_refused (charge_of_lt hl)]
  · rw [if_neg hl, Call.bind_of_done (charge_of_le (Nat.le_of_not_lt hl))]
    split <;> rfl

theorem available_true_iff {n : Nat} : Available Block.space n true ↔ n < Block.bound := by
  simp only [Available, Block.space, Block.bound, maxBlock, and_true]
  omega

/-- A request to a machine that has whatever can be addressed. -/
theorem reallocate_apply_true (b : Block) (n : Nat) (a : Allocator) :
    reallocate b n true a =
      if maxRequest < n then .refused .tooLarge a
      else if Size.roundUp n ≤ b.size then .done b a
      else if a.limit < a.allocated + (Size.roundUp n - b.size) then
        .refused (.limitExceeded (Size.roundUp n - b.size) a.allocated a.limit) a
      else if h : Size.roundUp n < Block.bound then
        .done (b.grow _ (Size.roundUp_dvd n) (Nat.le_of_lt_succ h))
          (a.plus (Size.roundUp n - b.size))
      else .refused (machineError (Size.roundUp n))
        ((a.plus (Size.roundUp n - b.size)).discharge (Size.roundUp n - b.size)) := by
  rw [reallocate_apply]
  simp only [available_true_iff]

theorem allocate_eq_reallocate {b : Block space} (h : b.size = 0) {n : Nat} (hn : 0 < n)
    (granted : Bool) : allocate n granted = reallocate b n granted := by
  obtain rfl := Block.eq_empty_of_size h
  funext a
  have hr := Size.le_roundUp n
  rw [reallocate_apply, Block.size_empty, Nat.sub_zero, if_neg (show ¬ Size.roundUp n ≤ 0 by omega)]
  unfold allocate
  split
  · rfl
  by_cases hl : a.limit < a.allocated + Size.roundUp n
  · rw [if_pos hl, Call.bind_of_refused (charge_of_lt hl)]
  · rw [if_neg hl, Call.bind_of_done (charge_of_le (Nat.le_of_not_lt hl))]
    split
    · rename_i hb
      have hg : (Block.zeroed _ (Size.roundUp_dvd n) hb.le : Block space) =
          Block.empty.grow _ (Size.roundUp_dvd n) hb.le := Block.ext_toList (by
        rw [Block.toList_zeroed, Block.toList_grow, Block.size_empty, Nat.sub_zero]; rfl)
      rw [hg]; rfl
    · rfl

/-! ## What an account takes part in -/

/-- An account is charged `n` bytes, for which it has room unless there are none. -/
structure Grants (a : Allocator) (n : Nat) (b : Allocator) : Prop where
  eq : b = a.plus n
  le_limit : n ≠ 0 → a.allocated + n ≤ a.limit

namespace Grants

variable {a b c : Allocator} {m n : Nat}

theorem refl (a : Allocator) : a.Grants 0 a := ⟨rfl, fun h => absurd rfl h⟩

theorem trans (h : a.Grants m b) (h' : b.Grants n c) : a.Grants (m + n) c := by
  obtain ⟨rfl, hm⟩ := h
  obtain ⟨rfl, hn⟩ := h'
  refine ⟨plus_plus .., fun h => ?_⟩
  rw [allocated_plus, limit_plus] at hn
  by_cases h0 : n = 0
  · have := hm (by omega); omega
  · have := hn h0; omega

theorem limit_eq (h : a.Grants n b) : b.limit = a.limit := by rw [h.eq, limit_plus]

end Grants

/-- An account holds exactly `n` bytes, within its limit, and has never wrapped around. -/
structure Accounts (a : Allocator) (n : Nat) : Prop where
  allocated : a.allocated = n
  le_limit : n ≤ a.limit
  limit_le : a.limit ≤ Size.max
  overdrawn : a.overdrawn = false

namespace Accounts

variable {a b : Allocator} {m n : Nat}

theorem grants (h : a.Accounts m) (hg : a.Grants n b) : b.Accounts (m + n) := by
  obtain ⟨rfl, hle⟩ := hg
  refine ⟨by rw [allocated_plus, h.allocated], ?_, h.limit_le, h.overdrawn⟩
  have := h.le_limit
  have := h.allocated
  rw [limit_plus]
  by_cases h0 : n = 0
  · omega
  · have := hle h0; omega

theorem discharge (h : a.Accounts (m + n)) : (a.discharge n).Accounts m := by
  have hm := h.le_limit
  have hl := h.limit_le
  refine ⟨?_, ?_, hl, ?_⟩
  · rw [Allocator.discharge, h.allocated, Size.subWrap_of_le (by omega) (by omega),
      Nat.add_sub_cancel]
  · show m ≤ a.limit; omega
  · simp [Allocator.discharge, h.overdrawn, h.allocated]

theorem eq_of_limit (h : a.Accounts n) (h' : b.Accounts n) (hl : b.limit = a.limit) : b = a := by
  obtain ⟨limit, allocated, overdrawn⟩ := a
  obtain ⟨limit', allocated', overdrawn'⟩ := b
  obtain ⟨rfl, -, -, rfl⟩ := h
  obtain ⟨rfl, -, -, rfl⟩ := h'
  cases hl
  rfl

end Accounts

theorem reallocate_sat (b : Block space) (n : Nat) (granted : Bool) (a : Allocator) :
    (reallocate b n granted a).Sat
      (fun c u => b.GrowsTo c ∧ c.size = max b.size (Size.roundUp n) ∧ a.Grants (c.size - b.size) u)
      (fun _ u => a.limit ≤ Size.max → u = a) False := by
  rw [reallocate_apply]
  split
  · exact fun _ => rfl
  split
  · rename_i hle
    exact ⟨.refl b, by omega, by rw [Nat.sub_self]; exact .refl a⟩
  split
  · exact fun _ => rfl
  split
  · refine ⟨Block.growsTo_grow .., Block.size_grow .., ?_, ?_⟩
    · rw [Block.size_grow]; congr 1; omega
    · rw [Block.size_grow]; omega
  · exact discharge_plus (by omega)

end Allocator

end PackedColumn
