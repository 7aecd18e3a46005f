import PackedColumn.Proofs.Sessions
import PackedColumn.Workspace

/-!
# Workspaces after every history

A command changes what a workspace shows of one type, and for the columns of
the other types it is as if their memory were in hand meanwhile. So what
commands keep in a session they keep in a workspace.

* `run_balanced`: every command keeps the accounts, and `run_encoded`: every safe one keeps all
  columns standing for slots.
* `runAll_accounts`: the accounts after any history of a workspace.
* `Reachable`: the workspaces that safe commands lead to; `Reachable.runAll` for histories.
* `Reachable.column_wellFormed`: the layout of every column of such a workspace.
-/

namespace PackedColumn

theorem Size.total_map_erase {α : Type} [BEq α] [LawfulBEq α] (f : α → Nat) {xs : List α} {x : α}
    (h : x ∈ xs) : total (xs.map f) = f x + total ((xs.erase x).map f) := by
  induction xs with
  | nil => cases h
  | cons y ys ih =>
    by_cases hxy : y = x
    · subst hxy
      rw [List.erase_cons_head, List.map_cons, total_cons]
    · have := ih (List.mem_of_ne_of_mem (Ne.symm hxy) h)
      rw [List.erase_cons_tail (by simpa using hxy), List.map_cons, List.map_cons, total_cons,
        total_cons]
      omega

namespace Workspace

variable {t t' : ColumnType} {w v : Workspace} {limits : List Nat}

/-! ## Accounts -/

/-- The memory held by the columns of all types but one. -/
def elsewhere (w : Workspace) (t : ColumnType) (home : Nat) : Nat :=
  Size.total ((ColumnType.all.erase t).map fun t' => (w.session t').charged home)

theorem charged_eq (w : Workspace) (t : ColumnType) (home : Nat) :
    w.charged home = (w.session t).charged home + w.elsewhere t home :=
  Size.total_map_erase _ t.mem_all

theorem ne_of_mem_erase (h : t' ∈ ColumnType.all.erase t) : t ≠ t' := by
  rintro rfl
  obtain ⟨element, width⟩ := t
  cases element <;> cases width <;> revert h <;> decide

theorem elsewhere_put (w : Workspace) (s : Session t) : (w.put s).elsewhere t = w.elsewhere t := by
  funext home
  refine congrArg Size.total (List.map_congr_left fun t' ht' => ?_)
  unfold Session.charged
  exact congrArg _ (by rw [show ((w.put s).session t').places = w.places t' from
    places_put_of_ne (ne_of_mem_erase ht') w s]; rfl)

/-- The limits of all accounts. -/
def accountLimits (w : Workspace) : List Nat := w.allocators.toList.map Allocator.limit

theorem getElem?_accountLimits (w : Workspace) (i : Nat) :
    w.accountLimits[i]? = (w.allocators[i]?).map Allocator.limit := by
  rw [accountLimits, List.getElem?_map, Array.getElem?_toList]

/-- Every account holds what its columns hold, within a limit that never changes, and there is one
for every column. -/
structure Balanced (w : Workspace) (limits : List Nat) : Prop where
  held : ∀ home (a : Allocator), w.allocators[home]? = some a → a.Accounts (w.charged home)
  housed : ∀ (t : ColumnType) (i : Nat) (seat : Seat t), (w.places t)[i]? = some (some seat) →
    seat.home < w.allocators.size
  limits : ∀ i l : Nat, limits[i]? = some l → (w.allocators[i]?).map Allocator.limit = some l

namespace Balanced

/-- No column has a home that is still to come. -/
theorem charged_eq_zero (h : w.Balanced limits) {home : Nat} (hhome : w.allocators.size ≤ home)
    (t : ColumnType) : (w.session t).charged home = 0 :=
  Session.charged_eq_zero fun i seat hseat => by
    have := h.housed t i seat (Session.seatAt?_eq_some.1 hseat)
    omega

theorem elsewhere_eq_zero (h : w.Balanced limits) {home : Nat} (hhome : w.allocators.size ≤ home) :
    w.elsewhere t home = 0 := by
  apply Size.total_eq_zero
  intro n hn
  obtain ⟨t', -, rfl⟩ := List.mem_map.1 hn
  exact h.charged_eq_zero hhome t'

theorem session (h : w.Balanced limits) (t : ColumnType) :
    (w.session t).Balanced w.accountLimits (w.elsewhere t) where
  held := fun home a ha => w.charged_eq t home ▸ h.held home a ha
  housed := fun i seat hseat => h.housed t i seat (Session.seatAt?_eq_some.1 hseat)
  limits := fun i l hl => by
    rw [← hl, getElem?_accountLimits]
    rfl

theorem put {s : Session t} (h : w.Balanced limits)
    (hs : s.Balanced w.accountLimits (w.elsewhere t)) : (w.put s).Balanced limits where
  held := fun home a ha => by
    rw [charged_eq _ t, session_put, elsewhere_put]
    exact hs.held home a ha
  housed := fun t' i seat hseat => by
    by_cases ht : t = t'
    · subst ht
      rw [places_put] at hseat
      exact hs.housed i seat (Session.seatAt?_eq_some.2 hseat)
    · rw [places_put_of_ne ht] at hseat
      -- its account is still there, since its limit is
      have hthere := Array.getElem?_eq_getElem (h.housed t' i seat hseat)
      have hlimit := hs.limits seat.home _ (by rw [getElem?_accountLimits, hthere, Option.map_some])
      obtain ⟨a, ha, -⟩ := Option.map_eq_some_iff.1 hlimit
      exact (Array.getElem?_eq_some_iff.1 ha).1
  limits := fun i l hl => hs.limits i l (by rw [getElem?_accountLimits, h.limits i l hl])

end Balanced

theorem run_balanced (h : w.Balanced limits) (t : ColumnType) (c : Command) :
    (run t c w).Sat (fun _ v => v.Balanced limits) (fun _ v => v.Balanced limits) True := by
  have hsession := Session.run_keeps c (w.session t) (h.session t)
    fun _ hhome => h.elsewhere_eq_zero hhome
  exact Outcome.sat_lift.2 (hsession.mono (fun _ _ hs => h.put hs) (fun _ _ hs => h.put hs) id)

theorem runAll_balanced (h : w.Balanced limits) {cs : List (ColumnType × Command)}
    (hv : runAll w cs = some v) : v.Balanced limits := by
  induction cs generalizing w with
  | nil => cases hv; exact h
  | cons c cs ih =>
    obtain ⟨u, hu, hrest⟩ := Option.bind_eq_some_iff.1 hv
    exact ih ((run_balanced h c.1 c.2).of_state? hu) hrest

theorem charged_start (allocators : List Allocator) (places home : Nat) :
    (start allocators places).charged home = 0 := by
  apply Size.total_eq_zero
  intro n hn
  obtain ⟨t, -, rfl⟩ := List.mem_map.1 hn
  exact Session.charged_eq_zero fun i seat hseat => by
    rw [session_start, Session.seatAt?_start] at hseat
    cases hseat

theorem balanced_start (hlimits : ∀ l ∈ limits, l ≤ Size.max) (places : Nat) :
    (start (limits.map fun l => { limit := l }) places).Balanced limits where
  held := fun home a ha => by
    rw [start, List.getElem?_toArray, List.getElem?_map] at ha
    obtain ⟨l, hl, rfl⟩ := Option.map_eq_some_iff.1 ha
    rw [charged_start]
    exact ⟨rfl, Nat.zero_le _, hlimits l (List.mem_of_getElem? hl), rfl⟩
  housed := fun t i seat hseat => by
    have hnone := Session.seatAt?_start (t := t) (limits.map fun l => { limit := l }) places i
    rw [Session.seatAt?_eq_some.2 hseat] at hnone
    cases hnone
  limits := fun i l hl => by
    rw [start, List.getElem?_toArray, List.getElem?_map, hl]
    rfl

/-- After every history each allocator accounts for exactly the memory of its columns, of whatever
types, stays within the limit that it was made with, and has never wrapped around; one without
columns is back at 0. -/
theorem runAll_accounts (limits : List Nat) (hlimits : ∀ l ∈ limits, l ≤ Size.max) (places : Nat)
    (cs : List (ColumnType × Command))
    (hw : runAll (start (limits.map fun l => { limit := l }) places) cs = some w) :
    (∀ (home : Nat) (a : Allocator), w.allocators[home]? = some a →
      a.allocated = w.charged home ∧ a.allocated ≤ a.limit ∧ a.overdrawn = false ∧
      ((∀ (t : ColumnType) (place : Nat) (seat : Seat t),
        (w.places t)[place]? = some (some seat) → seat.home ≠ home) → a.allocated = 0)) ∧
    ∀ i l : Nat, limits[i]? = some l → (w.allocators[i]?).map Allocator.limit = some l := by
  have h := runAll_balanced (balanced_start hlimits places) hw
  refine ⟨fun home a ha => ?_, h.limits⟩
  obtain ⟨hallocated, hle, -, hoverdrawn⟩ := h.held home a ha
  refine ⟨hallocated, by omega, hoverdrawn, fun hnone => ?_⟩
  rw [hallocated]
  apply Size.total_eq_zero
  intro n hn
  obtain ⟨t, -, rfl⟩ := List.mem_map.1 hn
  exact Session.charged_eq_zero fun place seat hseat =>
    hnone t place seat (Session.seatAt?_eq_some.1 hseat)

theorem runAll_accounts_of_refused : ∃ (w : Workspace) (a : Allocator),
    w.allocators[1]? = some a ∧ a.allocated = w.charged 1 ∧ a.allocated ≤ a.limit ∧
      a.overdrawn = false ∧ (w.allocators[0]?).map Allocator.limit = some 300 := by
  -- the second column has got room for its values when the room for its slots is refused
  have hrun : (runAll (start ([300, 200].map fun l => { limit := l }) 2)
      [(⟨.bytes, .narrow⟩, .create 0 0 { name := "a", type := ⟨.bytes, .narrow⟩ }
          { initialSlots := 1 }),
        (⟨.bytes, .narrow⟩, .create 1 1 { name := "b", type := ⟨.bytes, .narrow⟩ }
          { initialSlots := 1 }),
        (⟨.text, .wide⟩, .create 0 1 { name := "c", type := ⟨.text, .wide⟩ } {}),
        (⟨.bytes, .narrow⟩, .edit 0 (.push (some ⟨[1], 2⟩))),
        (⟨.bytes, .narrow⟩, .edit 1 (.reserve 20 100)),
        (⟨.bytes, .narrow⟩, .transfer 0 1), (⟨.bytes, .narrow⟩, .drop 0)]).any
      (fun w => (w.allocators[1]?).isSome) = true := by decide +kernel
  obtain ⟨w, hw, ha⟩ := (Option.any_eq_true _ _).1 hrun
  obtain ⟨a, ha⟩ := Option.isSome_iff_exists.1 ha
  obtain ⟨haccounts, hlimits⟩ := runAll_accounts [300, 200] (by decide) 2 _ hw
  obtain ⟨hallocated, hle, hoverdrawn, -⟩ := haccounts 1 a ha
  exact ⟨w, a, ha, hallocated, hle, hoverdrawn, hlimits 0 300 rfl⟩

/-! ## Columns -/

/-- Every column stands for slots. -/
def Encoded (w : Workspace) : Prop := ∀ t, (w.session t).Encoded

/-- The columns of the other types are as they were. -/
theorem each_put_of_ne {s : Session t} {P : Nat → Column t' → Prop} (ht : t ≠ t')
    (h : (w.session t').Each P) : ((w.put s).session t').Each P := fun i seat hseat => by
  rw [Session.seatAt?_eq_some] at hseat
  refine h i seat (Session.seatAt?_eq_some.2 ?_)
  rw [← hseat]
  exact congrArg (fun places => places[i]?) (places_put_of_ne ht w s).symm

theorem Encoded.put {s : Session t} (h : w.Encoded) (hs : s.Encoded) : (w.put s).Encoded := by
  intro t'
  by_cases ht : t = t'
  · subst ht
    rwa [session_put]
  · exact each_put_of_ne ht (h t').each

theorem run_encoded (h : w.Encoded) {c : Command} (hc : (w.session t).SafeAt c) :
    (run t c w).Sat (fun _ v => v.Encoded) (fun _ v => v.Encoded) True :=
  Outcome.sat_lift.2 ((Session.run_encoded hc (h t)).mono (fun _ _ hs => h.put hs)
    (fun _ _ hs => h.put hs) id)

theorem encoded_start (allocators : List Allocator) (places : Nat) :
    (start allocators places).Encoded := fun t i seat hseat => by
  rw [session_start, Session.seatAt?_start] at hseat
  cases hseat

/-- The workspaces that arise from empty places by safe commands, refused ones included, under
allocators with the given limits. -/
inductive Reachable (limits : List Nat) : Workspace → Prop
  | start (places : Nat) : Reachable limits (start (limits.map fun l => { limit := l }) places)
  | step {w v : Workspace} (t : ColumnType) (c : Command) : Reachable limits w →
      (w.session t).SafeAt c → (run t c w).state? = some v → Reachable limits v

/-- The commands, for columns of one type with a single place, lead to a column that passes a test
together with its account. -/
def Yields (limits : List Nat) (cs : List Command) (test : Seat t → Allocator → Bool) : Bool :=
  (runAll (start (limits.map fun l => { limit := l }) 1) (cs.map fun c => (t, c))).any fun w =>
    ((w.session t).seatAt? 0).any fun seat => (w.allocators[seat.home]?).any (test seat)

namespace Reachable

theorem encoded (h : Reachable limits w) : w.Encoded := by
  induction h with
  | start places => exact encoded_start _ places
  | step t c _ hc hv ih => exact (run_encoded ih hc).of_state? hv

theorem balanced (h : Reachable limits w) (hlimits : ∀ l ∈ limits, l ≤ Size.max) :
    w.Balanced limits := by
  induction h with
  | start places => exact balanced_start hlimits places
  | step t c _ _ hv ih => exact (run_balanced ih t c).of_state? hv

/-- A history of safe commands. -/
theorem runAll (h : Reachable limits w) {cs : List (ColumnType × Command)}
    (hcs : ∀ c ∈ cs, c.2.Safe) (hv : Workspace.runAll w cs = some v) : Reachable limits v := by
  induction cs generalizing w with
  | nil => cases hv; exact h
  | cons c cs ih =>
    obtain ⟨u, hu, hrest⟩ := Option.bind_eq_some_iff.1 hv
    exact ih (h.step c.1 c.2 (Session.safeAt_of_safe (hcs c List.mem_cons_self)) hu)
      (fun d hd => hcs d (List.mem_cons_of_mem c hd)) hrest

/-- What a history of safe commands shows of a column holds of one that can arise. -/
theorem of_yields {cs : List Command} {test : Seat t → Allocator → Bool}
    (h : Yields limits cs test = true) (hcs : ∀ c ∈ cs, c.Safe) :
    ∃ (w : Workspace) (seat : Seat t) (a : Allocator), Reachable limits w ∧
      (w.places t)[0]? = some (some seat) ∧ w.allocators[seat.home]? = some a ∧
      test seat a = true := by
  obtain ⟨w, hw, hend⟩ := (Option.any_eq_true _ _).1 h
  obtain ⟨seat, hseat, hend⟩ := (Option.any_eq_true _ _).1 hend
  obtain ⟨a, ha, htest⟩ := (Option.any_eq_true _ _).1 hend
  have hsafe : ∀ c ∈ cs.map fun c => (t, c), c.2.Safe := fun c hc => by
    obtain ⟨d, hd, rfl⟩ := List.mem_map.1 hc
    exact hcs d hd
  exact ⟨w, seat, a, (start 1).runAll hsafe hw, Session.seatAt?_eq_some.1 hseat, ha, htest⟩

/-- Each column of a reachable workspace is well-formed, and passes the layout check. -/
theorem column_wellFormed (h : Reachable limits w) {place : Nat} {seat : Seat t}
    (hseat : (w.places t)[place]? = some (some seat)) :
    seat.column.WellFormed ∧ seat.column.checkLayout = some (.ok ()) := by
  obtain ⟨xs, hxs⟩ := h.encoded t place seat (Session.seatAt?_eq_some.2 hseat)
  exact ⟨hxs.wellFormed, hxs.checkLayout⟩

end Reachable

theorem column_wellFormed_of_pushed : ∃ (w : Workspace) (seat : Seat ⟨.text, .wide⟩),
    Reachable [256] w ∧ (w.places ⟨.text, .wide⟩)[0]? = some (some seat) ∧
      seat.column.count = 2 ∧ seat.column.WellFormed ∧
      seat.column.checkLayout = some (.ok ()) := by
  have hrun : Yields [256]
      [.create 0 0 { name := "a", type := ⟨.text, .wide⟩ } { initialSlots := 1 },
        .edit 0 (.pushText (some "ab")), .edit 0 (.set 1 none), .edit 0 (.reserve 100 0)]
      (fun (seat : Seat ⟨.text, .wide⟩) _ => seat.column.count = 2) = true := by
    decide +kernel
  obtain ⟨w, seat, _, hreach, hseat, -, hcount⟩ :=
    Reachable.of_yields hrun (by simp [Command.Safe, Edit.Safe])
  exact ⟨w, seat, hreach, hseat, of_decide_eq_true hcount, hreach.column_wellFormed hseat⟩

end Workspace

end PackedColumn
