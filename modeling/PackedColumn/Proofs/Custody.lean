import Mathlib.Order.Bounds.Defs
import PackedColumn.Memory.Pool
import PackedColumn.Proofs.Accounts

/-!
# Who accounts for which block

A pool leaves it to its user which allocator accounts for which block. Deeds
are in order (`Custody.Permits`) if a block is adopted only by an allocator that
does not account for it yet, and released, disowned or grown only by one that
does; while another one accounts for it too, in the midst of a hand-over, it is
neither released nor grown.

* `perform_sat`, `weight_of_ne`: what a deed makes of the account of its allocator, and of others.
* `Balanced.done`, `Balanced.eq_of_refused`: one step of a pool; `Reachable.balanced`: histories.
* `answers_of_reallocate`: how a request for memory ends, in every case, whatever the machine says.
* `Reachable.accounts_and_answers`: after any history in order, the accounts, the requests and the
  refusals.
-/

namespace PackedColumn

/-- The least multiple of 64 that is large enough is what a size is rounded up to. -/
theorem Size.isLeast_roundUp (n : Nat) : IsLeast {m | 64 ∣ m ∧ n ≤ m} (Size.roundUp n) := by
  refine ⟨⟨Size.roundUp_dvd n, Size.le_roundUp n⟩, ?_⟩
  rintro m ⟨⟨k, rfl⟩, hle⟩
  unfold Size.roundUp
  omega

namespace Pool

/-- Says of each allocator for which blocks it accounts. -/
def Custody := Nat → Nat → Bool

namespace Custody

/-- An allocator starts or stops accounting for a block. -/
def put (held : Custody) (home block : Nat) (v : Bool) : Custody := fun i k =>
  if i = home ∧ k = block then v else held i k

/-- A deed is in order. A block made in the place of another, or forgotten, must not be one that an
allocator accounts for. -/
def Permits (held : Custody) (home block : Nat) : Deed → Prop
  | .allocate _ _ => ∀ i, held i block = false
  | .reallocate _ _ => ∀ i, held i block = decide (i = home)
  | .release => ∀ i, held i block = decide (i = home)
  | .adopt => held home block = false
  | .disown => held home block = true
  | .drop => ∀ i, held i block = false
  | .zero => True
  | .write _ _ => True

/-- Who accounts for what once a deed is done. -/
def after (held : Custody) (home block : Nat) : Deed → Custody
  | .allocate _ _ => held.put home block true
  | .reallocate _ _ => held
  | .adopt => held.put home block true
  | .release => held.put home block false
  | .disown => held.put home block false
  | .drop => held
  | .zero => held
  | .write _ _ => held

variable {held : Custody} {home block i k : Nat} {deed : Deed} {v : Bool}

theorem put_self : held.put home block v home block = v := if_pos ⟨rfl, rfl⟩

theorem put_of_ne (h : ¬(i = home ∧ k = block)) : held.put home block v i k = held i k := if_neg h

/-- A deed is about the allocator and the block that it names, and about no other. -/
theorem after_of_ne (h : ¬(i = home ∧ k = block)) : held.after home block deed i k = held i k := by
  cases deed <;> first | rfl | exact put_of_ne h

end Custody

variable {space : Nat} {p q : Pool space} {held : Custody} {limits : List Nat} {home block n m : Nat}
  {deed : Deed} {granted : Bool} {a u : Allocator} {b c : Block space}

/-! ## Sums over the blocks -/

/-- What an account holds for one block. -/
def weight (held : Bool) (b : Block space) : Nat := if held then b.size else 0

/-- The bytes of a block for which an allocator accounts. -/
def share (blocks : Array (Block space)) (held : Custody) (home k : Nat) : Nat :=
  weight (held home k) (blocks[k]?.getD .empty)

/-- The bytes of all blocks for which an allocator accounts. -/
def charged (p : Pool space) (held : Custody) (home : Nat) : Nat :=
  Size.total ((List.range p.blocks.size).map (share p.blocks held home))

/-- The pool with another account and another block. -/
def put (p : Pool space) (home : Nat) (a : Allocator) (block : Nat) (b : Block space) : Pool space :=
  ⟨p.allocators.setIfInBounds home a, p.blocks.setIfInBounds block b⟩

theorem total_range_of_ne {f g : Nat → Nat} {k : Nat} (hk : k < n) (h : ∀ j, j ≠ k → f j = g j) :
    Size.total ((List.range n).map f) + g k = Size.total ((List.range n).map g) + f k := by
  have hset : (List.range n).map f = ((List.range n).map g).set k (f k) := by
    apply List.ext_getElem
    · simp
    intro j hj _
    by_cases hjk : j = k
    · subst hjk
      simp
    · simp [h j hjk, Ne.symm hjk]
  have hsum := Session.total_map_set id ((List.range n).map g) (i := k) (by simpa using hk) (f k)
  rw [hset]
  simpa using hsum

/-- A block changes, and with it who accounts for it. -/
theorem charged_put {held' : Custody} {i : Nat} (hb : p.blocks[block]? = some b)
    (hheld : ∀ k, k ≠ block → held' i k = held i k) :
    (p.put home a block c).charged held' i + weight (held i block) b =
      p.charged held i + weight (held' i block) c := by
  have hblock := (Array.getElem?_eq_some_iff.1 hb).1
  have hold : share p.blocks held i block = weight (held i block) b := by
    rw [share, hb, Option.getD_some]
  have hnew : share (p.put home a block c).blocks held' i block = weight (held' i block) c := by
    rw [share, put, Array.getElem?_setIfInBounds, if_pos rfl, if_pos hblock, Option.getD_some]
  rw [← hold, ← hnew, charged, charged, put, Array.size_setIfInBounds]
  apply total_range_of_ne hblock
  intro k hk
  rw [share, share, hheld k hk, Array.getElem?_setIfInBounds, if_neg (Ne.symm hk)]

/-- What the other blocks contribute. -/
theorem charged_empty (home : Nat) (a : Allocator) (hb : p.blocks[block]? = some b)
    (held : Custody) (i : Nat) :
    (p.put home a block .empty).charged held i + weight (held i block) b = p.charged held i := by
  have hnone : weight (held i block) (.empty : Block space) = 0 := by
    rw [weight]
    split <;> rfl
  rw [charged_put hb fun _ _ => rfl, hnone, Nat.add_zero]

theorem getElem?_put (ha : p.allocators[home]? = some a) (i : Nat) :
    (p.put home u block c).allocators[i]? = if i = home then some u else p.allocators[i]? := by
  rw [put, Array.getElem?_setIfInBounds]
  by_cases hi : i = home
  · rw [if_pos hi, if_pos hi.symm, if_pos (Array.getElem?_eq_some_iff.1 ha).1]
  · rw [if_neg hi, if_neg (Ne.symm hi)]

/-! ## One deed -/

/-- A request for a new block is one to grow from nothing. -/
theorem allocate_eq_reallocate_empty (ha : a.Accounts m) :
    Allocator.allocate n granted a =
      Allocator.reallocate (.empty : Block space) n granted a := by
  rcases Nat.eq_zero_or_pos n with rfl | hn
  · -- Nothing is charged for no bytes, for which every account in its limit has room.
    have hcharge : Allocator.charge (Size.roundUp 0) a = .done () a :=
      Allocator.charge_of_le (n := 0) (ha.allocated ▸ ha.le_limit)
    rw [Allocator.allocate, if_neg (by decide), Call.bind_of_done hcharge, dif_pos (.inl rfl)]
    rfl
  · rw [Allocator.allocate_eq_reallocate Block.size_empty hn]

/-- What a deed in order does to the account of its allocator. -/
theorem perform_sat (hpermits : held.Permits home block deed)
    (ha : a.Accounts (m + weight (held home block) b)) :
    (deed.perform b a).Sat
      (fun c u => u.Accounts (m + weight (held.after home block deed home block) c) ∧
        u.limit = a.limit)
      (fun _ _ => True) True := by
  cases deed with
  | allocate n granted =>
    rw [hpermits home] at ha
    show (Allocator.allocate n granted a).Sat _ _ _
    rw [allocate_eq_reallocate_empty ha]
    refine (Allocator.reallocate_sat .empty n granted a).mono ?_ (fun _ _ _ => trivial) nofun
    rintro c u ⟨-, -, hgrants⟩
    rw [Custody.after, Custody.put_self]
    exact ⟨ha.grants hgrants, hgrants.limit_eq⟩
  | reallocate n granted =>
    have hheld : held home block = true := (hpermits home).trans (decide_eq_true rfl)
    refine (Allocator.reallocate_sat b n granted a).mono ?_ (fun _ _ _ => trivial) nofun
    rintro c u ⟨hgrows, -, hgrants⟩
    have hsum : m + b.size + (c.size - b.size) = m + c.size := by
      have := hgrows.size_le
      omega
    rw [Custody.after, hheld]
    rw [hheld] at ha
    exact ⟨hsum ▸ ha.grants hgrants, hgrants.limit_eq⟩
  | release =>
    rw [(hpermits home).trans (decide_eq_true rfl)] at ha
    rw [Custody.after, Custody.put_self]
    exact ⟨ha.discharge, rfl⟩
  | adopt =>
    rw [show held home block = false from hpermits] at ha
    show ((Allocator.charge b.size a).bind fun _ u => .done b u).Sat _ _ _
    rw [Allocator.charge_apply]
    split
    · rename_i hroom
      rw [Custody.after, Custody.put_self]
      exact ⟨ha.grants ⟨rfl, fun _ => hroom⟩, rfl⟩
    · trivial
  | disown =>
    rw [show held home block = true from hpermits] at ha
    rw [Custody.after, Custody.put_self]
    exact ⟨ha.discharge, rfl⟩
  | drop =>
    rw [hpermits home] at ha
    rw [Custody.after, hpermits home]
    exact ⟨ha, rfl⟩
  | zero =>
    refine ⟨?_, rfl⟩
    rw [Custody.after, weight, Block.size_fill]
    exact ha
  | write pos bytes =>
    refine Call.sat_require.2 ⟨fun c hc => ⟨?_, rfl⟩, fun _ => trivial⟩
    obtain ⟨-, rfl⟩ := Block.write?_eq_some_iff.1 hc
    rw [Custody.after, weight, Block.size_write]
    exact ha

/-- Nor does it touch that of another one, as it leaves the size of a block that another one
accounts for. -/
theorem weight_of_ne (hpermits : held.Permits home block deed) {i : Nat} (hi : i ≠ home)
    (hdone : deed.perform b a = .done c u) : weight (held i block) c = weight (held i block) b := by
  have halone : held i block = false → weight (held i block) c = weight (held i block) b := by
    intro h
    rw [h]
    rfl
  have hsize : c.size = b.size → weight (held i block) c = weight (held i block) b := by
    intro h
    rw [weight, weight, h]
  cases deed with
  | allocate n granted => exact halone (hpermits i)
  | reallocate n granted => exact halone ((hpermits i).trans (decide_eq_false hi))
  | release => exact halone ((hpermits i).trans (decide_eq_false hi))
  | drop => exact halone (hpermits i)
  | adopt =>
    obtain ⟨_, _, -, hpure⟩ := Outcome.bind_eq_done_iff.1 hdone
    cases hpure
    exact hsize rfl
  | disown =>
    cases hdone
    exact hsize rfl
  | zero =>
    cases hdone
    exact hsize (Block.size_fill b 0)
  | write pos bytes =>
    rw [Deed.perform] at hdone
    rcases hwrite : b.write? pos bytes with _ | d
    · rw [hwrite] at hdone
      cases hdone
    · obtain ⟨-, rfl⟩ := Block.write?_eq_some_iff.1 hwrite
      rw [hwrite] at hdone
      cases hdone
      exact hsize (Block.size_write ..)

/-- The sums after a deed in order, for its allocator and for another one. -/
theorem charged_done (hpermits : held.Permits home block deed) (hb : p.blocks[block]? = some b)
    (hperform : deed.perform b a = .done c u) (i : Nat) :
    (p.put home u block c).charged (held.after home block deed) i =
      if i = home then (p.put home u block .empty).charged held home +
        weight (held.after home block deed home block) c
      else p.charged held i := by
  have hsum : ∀ i, (p.put home u block c).charged (held.after home block deed) i +
      weight (held i block) b = p.charged held i + weight (held.after home block deed i block) c :=
    fun i => charged_put hb fun k hk => Custody.after_of_ne fun h => hk h.2
  by_cases hi : i = home
  · subst hi
    have hself := hsum i
    have hrest := charged_empty i u hb held i
    rw [if_pos rfl]
    omega
  · have hother := hsum i
    rw [Custody.after_of_ne fun h => hi h.1, weight_of_ne hpermits hi hperform] at hother
    rw [if_neg hi]
    exact Nat.add_right_cancel hother

/-- A refusal leaves an account within its limit as it was, in order or not. -/
theorem perform_refused {e : MemoryRefusal} (ha : a.Accounts m)
    (h : deed.perform b a = .refused e u) : u = a := by
  have hreallocate : ∀ (b : Block space) n granted,
      Allocator.reallocate b n granted a = .refused e u → u = a := by
    intro b n granted h
    have hsat := Allocator.reallocate_sat b n granted a
    rw [h] at hsat
    exact hsat ha.limit_le
  cases deed with
  | allocate n granted =>
    exact hreallocate .empty n granted ((allocate_eq_reallocate_empty ha).symm.trans h)
  | reallocate n granted => exact hreallocate b n granted h
  | adopt =>
    change ((Allocator.charge b.size a).bind fun _ u => .done b u) = _ at h
    rw [Allocator.charge_apply] at h
    split at h
    · cases h
    · cases h
      rfl
  | write pos bytes =>
    rw [Deed.perform] at h
    cases hwrite : b.write? pos bytes <;> rw [hwrite] at h <;> cases h
  | _ => cases h

/-! ## Steps of a pool -/

theorem act_of_done (ha : p.allocators[home]? = some a) (hb : p.blocks[block]? = some b)
    (h : deed.perform b a = .done c u) :
    act home block deed p = .done () (p.put home u block c) := by
  obtain ⟨allocators, blocks⟩ := p
  dsimp only at ha hb
  simp only [act, ha, hb, h]
  rfl

theorem act_of_perform_refused {e : MemoryRefusal} (ha : p.allocators[home]? = some a)
    (hb : p.blocks[block]? = some b) (h : deed.perform b a = .refused e u) :
    act home block deed p = .refused e ⟨p.allocators.setIfInBounds home u, p.blocks⟩ := by
  obtain ⟨allocators, blocks⟩ := p
  dsimp only at ha hb
  simp only [act, ha, hb, h]

theorem act_of_breach (ha : p.allocators[home]? = some a) (hb : p.blocks[block]? = some b)
    (h : deed.perform b a = .breach) : act home block deed p = .breach := by
  obtain ⟨allocators, blocks⟩ := p
  dsimp only at ha hb
  simp only [act, ha, hb, h]

/-- A step that keeps its contract is one of an allocator and a block that the pool has. -/
theorem exists_of_act (h : act home block deed p ≠ .breach) :
    ∃ a b, p.allocators[home]? = some a ∧ p.blocks[block]? = some b := by
  obtain ⟨allocators, blocks⟩ := p
  unfold act at h
  dsimp only at h ⊢
  split at h
  · rename_i a b ha hb
    exact ⟨a, b, ha, hb⟩
  · exact absurd rfl h

theorem exists_of_act_done (h : act home block deed p = .done () q) :
    ∃ a b c u, p.allocators[home]? = some a ∧ p.blocks[block]? = some b ∧
      deed.perform b a = .done c u ∧ q = p.put home u block c := by
  obtain ⟨a, b, ha, hb⟩ := exists_of_act (by rw [h]; exact nofun)
  cases hperform : deed.perform b a with
  | done c u =>
    cases (act_of_done ha hb hperform).symm.trans h
    exact ⟨a, b, c, u, ha, hb, hperform, rfl⟩
  | refused e u => cases (act_of_perform_refused ha hb hperform).symm.trans h
  | breach => cases (act_of_breach ha hb hperform).symm.trans h

theorem exists_of_act_refused {e : MemoryRefusal} (h : act home block deed p = .refused e q) :
    ∃ a b u, p.allocators[home]? = some a ∧ p.blocks[block]? = some b ∧
      deed.perform b a = .refused e u ∧ q = ⟨p.allocators.setIfInBounds home u, p.blocks⟩ := by
  obtain ⟨a, b, ha, hb⟩ := exists_of_act (by rw [h]; exact nofun)
  cases hperform : deed.perform b a with
  | done c u => cases (act_of_done ha hb hperform).symm.trans h
  | refused e u =>
    cases (act_of_perform_refused ha hb hperform).symm.trans h
    exact ⟨a, b, u, ha, hb, hperform, rfl⟩
  | breach => cases (act_of_breach ha hb hperform).symm.trans h

theorem setIfInBounds_self (ha : p.allocators[home]? = some a) :
    p.allocators.setIfInBounds home a = p.allocators := by
  obtain ⟨hhome, rfl⟩ := Array.getElem?_eq_some_iff.1 ha
  rw [Array.setIfInBounds, dif_pos hhome, Array.set_getElem_self]

/-- Every account holds the blocks that its allocator accounts for, within its limit. -/
structure Balanced (p : Pool space) (held : Custody) (limits : List Nat) : Prop where
  accounts : ∀ home (a : Allocator), p.allocators[home]? = some a →
    a.Accounts (p.charged held home)
  limits : ∀ home : Nat, (p.allocators[home]?).map Allocator.limit = limits[home]?

namespace Balanced

theorem start {limits : List Nat} (hlimits : ∀ l ∈ limits, l ≤ Size.max) (blocks : Nat) :
    (Pool.start (limits.map fun limit => { limit }) blocks : Pool space).Balanced
      (fun _ _ => false) limits := by
  refine ⟨fun home a ha => ?_, ?_⟩
  · have hzero : (Pool.start (limits.map fun limit => { limit }) blocks : Pool space).charged
        (fun _ _ => false) home = 0 := by
      apply Size.total_eq_zero
      intro n hn
      obtain ⟨k, -, rfl⟩ := List.mem_map.1 hn
      rfl
    rw [hzero]
    obtain ⟨l, hl, rfl⟩ := List.mem_map.1 (Array.mem_toList_iff.2 (Array.mem_of_getElem? ha))
    exact ⟨rfl, Nat.zero_le _, hlimits l hl, rfl⟩
  · intro home
    show ((limits.map _).toArray[home]?).map _ = _
    rw [List.getElem?_toArray, List.getElem?_map, Option.map_map]
    exact Option.map_id_apply

/-- A step that is done, in order. -/
theorem done (h : p.Balanced held limits) (hpermits : held.Permits home block deed)
    (hdone : act home block deed p = .done () q) :
    q.Balanced (held.after home block deed) limits := by
  obtain ⟨a, b, c, u, ha, hb, hperform, rfl⟩ := exists_of_act_done hdone
  have hrest := charged_empty home u hb held home
  obtain ⟨hu, hlimit⟩ := (perform_sat hpermits (hrest ▸ h.accounts home a ha)).of_done hperform
  refine ⟨fun i v hv => ?_, fun i => ?_⟩
  · rw [getElem?_put ha] at hv
    rw [charged_done hpermits hb hperform]
    by_cases hi : i = home
    · rw [if_pos hi] at hv ⊢
      cases hv
      exact hu
    · rw [if_neg hi] at hv ⊢
      exact h.accounts i v hv
  · rw [← h.limits i, getElem?_put ha]
    by_cases hi : i = home
    · rw [if_pos hi, hi, ha, Option.map_some, Option.map_some, hlimit]
    · rw [if_neg hi]

/-- A step that is refused, in order or not. -/
theorem eq_of_refused {e : MemoryRefusal} (h : p.Balanced held limits)
    (hrefused : act home block deed p = .refused e q) : q = p := by
  obtain ⟨a, b, u, ha, hb, hperform, rfl⟩ := exists_of_act_refused hrefused
  obtain rfl := perform_refused (h.accounts home a ha) hperform
  rw [setIfInBounds_self ha]

end Balanced

/-! ## Requests for memory -/

/-- How a step ends that asks an allocator for at least `n` bytes in place of `held`, which takes
`more` bytes on its account, for a block with a property, when the machine answers `granted`. -/
structure Answers (p : Pool space) (home block : Nat) (deed : Deed) (a : Allocator)
    (n held more : Nat) (granted : Bool) (P : Block space → Prop) : Prop where
  too_large : Allocator.maxRequest < n → act home block deed p = .refused .tooLarge p
  limit_exceeded : n ≤ Allocator.maxRequest → a.limit < a.allocated + more →
    act home block deed p = .refused (.limitExceeded more a.allocated a.limit) p
  done : n ≤ Allocator.maxRequest → a.allocated + more ≤ a.limit →
    Size.roundUp n ≤ held ∨ Allocator.Available space (Size.roundUp n) granted →
      ∃ c, P c ∧ act home block deed p = .done () (p.put home (a.plus more) block c)
  refused : n ≤ Allocator.maxRequest → a.allocated + more ≤ a.limit → held < Size.roundUp n →
    ¬Allocator.Available space (Size.roundUp n) granted →
      act home block deed p = .refused (Allocator.machineError (Size.roundUp n)) p

theorem act_of_refused {e : MemoryRefusal} (ha : p.allocators[home]? = some a)
    (hb : p.blocks[block]? = some b) (h : deed.perform b a = .refused e a) :
    act home block deed p = .refused e p := by
  rw [act_of_perform_refused ha hb h, setIfInBounds_self ha]

theorem answers_of_reallocate {P : Block space → Prop} (ha : p.allocators[home]? = some a)
    (hb : p.blocks[block]? = some b) (haccount : a.Accounts m)
    (hdeed : deed.perform b a = Allocator.reallocate c n granted a)
    (hP : ∀ d, c.GrowsTo d → d.size = max c.size (Size.roundUp n) → P d) :
    p.Answers home block deed a n c.size (Size.roundUp n - c.size) granted P := by
  have htotal := haccount.allocated ▸ haccount.le_limit
  rw [Allocator.reallocate_apply] at hdeed
  refine ⟨fun hn => ?_, fun hn hl => ?_, fun hn hl hhad => ?_, fun hn hl hneeded hnone => ?_⟩
  · rw [if_pos hn] at hdeed
    exact act_of_refused ha hb hdeed
  · rw [if_neg (by omega), if_neg (by omega), if_pos hl] at hdeed
    exact act_of_refused ha hb hdeed
  · rw [if_neg (by omega)] at hdeed
    by_cases hfits : Size.roundUp n ≤ c.size
    · -- The block is long enough, and nothing is charged.
      rw [if_pos hfits] at hdeed
      refine ⟨c, hP c (.refl c) (by omega), ?_⟩
      rw [Nat.sub_eq_zero_of_le hfits, Allocator.plus_zero, act_of_done ha hb hdeed]
    · have havailable := hhad.resolve_left hfits
      rw [if_neg hfits, if_neg (by omega), dif_pos havailable] at hdeed
      exact ⟨_, hP _ (Block.growsTo_grow c _ (Size.roundUp_dvd n) havailable.le)
        (Block.size_grow ..), act_of_done ha hb hdeed⟩
  · rw [if_neg (by omega), if_neg (by omega), if_neg (by omega), dif_neg hnone,
      Allocator.discharge_plus hl haccount.limit_le] at hdeed
    exact act_of_refused ha hb hdeed

/-- A hand-over to an allocator. -/
theorem act_adopt (ha : p.allocators[home]? = some a) (hb : p.blocks[block]? = some b) :
    act home block .adopt p =
      if a.limit < a.allocated + b.size then
        .refused (.limitExceeded b.size a.allocated a.limit) p
      else .done () (p.put home (a.plus b.size) block b) := by
  have hadopt : Deed.adopt.perform b a = (Allocator.charge b.size a).bind fun _ u => .done b u := rfl
  rw [Allocator.charge_apply] at hadopt
  split
  · rename_i hl
    rw [if_neg (Nat.not_le_of_lt hl)] at hadopt
    exact act_of_refused ha hb hadopt
  · rename_i hl
    rw [if_pos (Nat.le_of_not_lt hl)] at hadopt
    exact act_of_done ha hb hadopt

/-- What an allocator makes of the requests for a block. -/
structure Serves (p : Pool space) (home : Nat) (a : Allocator) (block : Nat) (b : Block space) :
    Prop where
  allocate : ∀ n granted, p.Answers home block (.allocate n granted) a n 0 (Size.roundUp n) granted
    fun c => (∀ x ∈ c.toList, x = 0) ∧ IsLeast {m | 64 ∣ m ∧ n ≤ m} c.size
  reallocate : ∀ n granted, p.Answers home block (.reallocate n granted) a n b.size
    (Size.roundUp n - b.size) granted
    fun c => b.size ≤ c.size ∧ (n ≤ b.size → c = b) ∧
      (b.size < n → (∃ k, c.toList = b.toList ++ List.replicate k 0) ∧
        IsLeast {m | 64 ∣ m ∧ n ≤ m} c.size)
  adopt : act home block .adopt p =
    if a.limit < a.allocated + b.size then .refused (.limitExceeded b.size a.allocated a.limit) p
    else .done () (p.put home (a.plus b.size) block b)

/-- Any allocator that keeps its account serves all blocks of the pool so. -/
theorem serves_of_accounts (ha : p.allocators[home]? = some a) (hb : p.blocks[block]? = some b)
    (haccount : a.Accounts m) : p.Serves home a block b := by
  refine ⟨fun n granted => ?_, fun n granted => ?_, act_adopt ha hb⟩
  · have hdeed : (Deed.allocate n granted).perform b a =
        Allocator.reallocate (.empty : Block space) n granted a :=
      allocate_eq_reallocate_empty haccount
    apply answers_of_reallocate ha hb haccount hdeed
    rintro c ⟨k, hk⟩ hsize
    refine ⟨fun x hx => ?_, ?_⟩
    · rw [hk] at hx
      exact List.eq_of_mem_replicate hx
    · rw [hsize, Block.size_empty, Nat.zero_max]
      exact Size.isLeast_roundUp n
  · have hdeed : (Deed.reallocate n granted).perform b a = Allocator.reallocate b n granted a := rfl
    apply answers_of_reallocate ha hb haccount hdeed
    intro c hgrows hsize
    refine ⟨hgrows.size_le, fun hn => ?_, fun hn => ⟨hgrows, ?_⟩⟩
    · have heq : b.toList.length = c.toList.length := by
        have := b.roundUp_le hn
        show b.size = c.size
        omega
      exact (Block.ext_toList (hgrows.isPrefix.eq_of_length heq)).symm
    · have := Size.le_roundUp n
      rw [hsize, Nat.max_eq_right (by omega)]
      exact Size.isLeast_roundUp n

/-! ## Histories -/

/-- The pools that deeds in order lead to, done or refused, with who accounts for what. Each deed has
the answer of the machine to it, so that the machine may refuse at any time what it gave before. -/
inductive Reachable (limits : List Nat) : Pool space → Custody → Prop
  | start (blocks : Nat) :
      Reachable limits (.start (limits.map fun limit => { limit }) blocks) fun _ _ => false
  | done {p q : Pool space} {held : Custody} (home block : Nat) (deed : Deed)
      (hpermits : held.Permits home block deed) (hdone : act home block deed p = .done () q)
      (h : Reachable limits p held) : Reachable limits q (held.after home block deed)
  | refused {p q : Pool space} {held : Custody} {e : MemoryRefusal} (home block : Nat) (deed : Deed)
      (hpermits : held.Permits home block deed) (hrefused : act home block deed p = .refused e q)
      (h : Reachable limits p held) : Reachable limits q held

namespace Reachable

theorem balanced (hlimits : ∀ l ∈ limits, l ≤ Size.max) (h : Reachable limits p held) :
    p.Balanced held limits := by
  induction h with
  | start blocks => exact .start hlimits blocks
  | done _ _ _ hpermits hdone _ ih => exact ih.done hpermits hdone
  | refused _ _ _ _ hrefused _ ih => exact ih.eq_of_refused hrefused ▸ ih

/-- After any history in order, every account holds the sizes of the blocks that its allocator
accounts for, within its limit. A block that is asked for is all zero, and one that grows has zeros
behind the bytes that it had; the size is the least multiple of 64 that is large enough, and no block
shrinks. A request is too large if rounding it up would leave the range of sizes. It exceeds the
limit exactly if the account would with what the block takes more, and else it is done where the
machine gives the memory, or none is needed. Whatever is refused, by the account or by the machine,
the accounts and the blocks are as they were. -/
theorem accounts_and_answers (hlimits : ∀ l ∈ limits, l ≤ Size.max)
    (h : Reachable limits p held) :
    (∀ (home : Nat) (a : Allocator), p.allocators[home]? = some a →
      limits[home]? = some a.limit ∧ a.allocated = p.charged held home ∧ a.allocated ≤ a.limit ∧
      ∀ (block : Nat) (b : Block space), p.blocks[block]? = some b → p.Serves home a block b) ∧
      ∀ (home block : Nat) (deed : Deed) (e : MemoryRefusal) (q : Pool space),
        act home block deed p = .refused e q → q = p := by
  have hbalanced := h.balanced hlimits
  refine ⟨fun home a ha => ?_, fun home block deed e q => hbalanced.eq_of_refused⟩
  have haccount := hbalanced.accounts home a ha
  have hlimit : limits[home]? = some a.limit := by
    rw [← hbalanced.limits home, ha]
    rfl
  exact ⟨hlimit, haccount.allocated, haccount.allocated ▸ haccount.le_limit,
    fun block b hb => serves_of_accounts ha hb haccount⟩

/-- A block of 64 bytes after its hand-over to an allocator with a limit of 100 bytes, which has no
room for another one; in the midst of it, the machine refused a block of the same size. -/
theorem accounts_and_answers_of_handover :
    ∃ (p : Pool) (held : Custody), Reachable [Size.max, 100] p held ∧
      p.charged held 0 = 0 ∧ p.charged held 1 = 64 ∧
      act 1 1 (.allocate 50) p = .refused (.limitExceeded 64 64 100) p ∧
      act 0 1 (.allocate 50 false) p = .refused .exhausted p := by
  have hlimits : ∀ l ∈ [Size.max, 100], l ≤ Size.max := by decide
  have hstart : Reachable [Size.max, 100] (_ : Pool) _ := .start 2
  have hmade := hstart.done (q := ⟨#[⟨Size.max, 64, false⟩, ⟨100, 0, false⟩],
    #[.zeroed 64 (by decide) (by decide), .empty]⟩) 0 0 (.allocate 10) (fun _ => rfl) rfl
  have hadopted := hmade.done (q := ⟨#[⟨Size.max, 64, false⟩, ⟨100, 64, false⟩],
    #[.zeroed 64 (by decide) (by decide), .empty]⟩) 1 0 .adopt (by exact rfl) rfl
  have hrefused := hadopted.refused (e := .exhausted) 0 1 (.allocate 64 false)
    (fun i => by simp [Custody.after, Custody.put]) (act_of_refused rfl rfl (by decide +kernel))
  have hgiven := hrefused.done (q := ⟨#[⟨Size.max, 0, false⟩, ⟨100, 64, false⟩],
    #[.zeroed 64 (by decide) (by decide), .empty]⟩) 0 0 .disown (by exact rfl) rfl
  obtain ⟨haccounts, -⟩ := accounts_and_answers hlimits hgiven
  obtain ⟨-, hgiver, -, hrefusals⟩ := haccounts 0 _ rfl
  obtain ⟨-, htaker, -, hrequests⟩ := haccounts 1 _ rfl
  exact ⟨_, _, hgiven, hgiver.symm, htaker.symm,
    ((hrequests 1 _ rfl).allocate 50 true).limit_exceeded (by decide) (by decide),
    ((hrefusals 1 _ rfl).allocate 50 false).refused (by decide) (by decide) (by decide) (by decide)⟩

end Reachable

end Pool

end PackedColumn
