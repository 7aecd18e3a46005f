import PackedColumn.Proofs.Encoding
import PackedColumn.Proofs.Provision

/-!
# Copying scattered slots

Slots of one column are copied to slots of another in any order, a slot perhaps
several times over. A pair that names a slot the source does not have is
refused and changes nothing; what the others leave is what writing these slots
would leave (`Workspace.copyAll`). Copying the slots of a range to an empty
column one by one, in whatever order, leaves the slots that copying the range
at once leaves.

* `Encodes.copySlot_sat`: one slot; `copyAll_seat`: any number of them.
* `copyAll_done`: all of them, where there is room.
* `putAll_picks_of_range`: the slots of a range, in any order.
* `Reachable.copiesAll`: the above in any workspace that can arise.
-/

namespace PackedColumn

/-! ## What pairs of slot numbers pick -/

namespace Slots

variable {zs : Slots} {ps : List (Nat × Nat)} {start length : Nat}

/-- The slots of a source that pairs pick by their first numbers, for the slots with their second
numbers. -/
def picks (zs : Slots) (ps : List (Nat × Nat)) : List (Nat × Option (List UInt8)) :=
  ps.map fun p => (p.2, (zs[p.1]?).join)

theorem putAll_range (n : Nat) (f : Nat → Option (List UInt8)) :
    putAll [] ((List.range n).map fun k => (k, f k)) = (List.range n).map f := by
  induction n with
  | zero => rfl
  | succ n ih =>
    have hlength : ((List.range n).map f).length = n := by
      rw [List.length_map, List.length_range]
    rw [List.range_succ, List.map_append, putAll_append, ih, List.map_append]
    show put _ n (f n) = _
    rw [put_of_le (Nat.le_of_eq hlength), padTo_of_le (Nat.le_of_eq hlength.symm)]
    rfl

theorem slice_eq_map (h : start + length ≤ zs.length) :
    (List.range length).map (fun k => (zs[start + k]?).join) = zs.slice start length := by
  refine List.ext_getElem (by rw [List.length_map, List.length_range, length_slice h])
    fun k hk hk' => ?_
  rw [List.getElem_map, List.getElem_range]
  rw [length_slice h] at hk'
  have hslice : (zs.slice start length)[k]? = zs[start + k]? := getElem?_slice hk'
  rw [← hslice, List.getElem?_eq_getElem]
  rfl

/-- The slots of a range, put into no slots at all in any order. -/
theorem putAll_picks_of_range (hps : ps.Perm ((List.range length).map fun k => (start + k, k)))
    (hrange : start + length ≤ zs.length) : putAll [] (zs.picks ps) = zs.slice start length := by
  have hpicks : zs.picks ((List.range length).map fun k => (start + k, k)) =
      (List.range length).map fun k => (k, (zs[start + k]?).join) := List.map_map
  have hperm : (zs.picks ps).Perm (zs.picks ((List.range length).map fun k => (start + k, k))) :=
    hps.map _
  have hkeys : ((List.range length).map fun k => (k, (zs[start + k]?).join)).map Prod.fst =
      List.range length := by
    rw [List.map_map]
    exact List.map_id _
  rw [hpicks] at hperm
  rw [← putAll_perm [] hperm.symm (hkeys.symm ▸ List.nodup_range), putAll_range,
    slice_eq_map hrange]

end Slots

/-- Copying the slots that pairs pick, as writes. -/
def Edit.copies (zs : Slots) (ps : List (Nat × Nat)) : List (Nat × Option Blob) :=
  (zs.picks ps).map fun q => (q.1, q.2.map Blob.ofList)

/-! ## One slot -/

/-- Copying one slot ends as writing it does, if the source has it; if not, nothing changes. -/
theorem Column.Encodes.copySlot_sat {t : ColumnType} {source : Column t} {s : Owned t}
    {xs zs : Slots} (hsource : source.Encodes zs) (hs : s.column.Encodes xs) (i j : Nat) :
    (copySlot source i j s).Sat
      (fun _ u => i < zs.length ∧ u.column.Encodes (xs.put j (zs[i]?).join))
      (fun _ u => u.column.Encodes xs) (i < zs.length ∧ Size.max ≤ j) := by
  rcases Nat.lt_or_ge i zs.length with hi | hi
  · rw [hsource.shows.copySlot_of_lt hi]
    refine (hs.set_sat j _).mono (fun _ u hu => ⟨hi, ?_⟩) (fun _ _ hu => hu) fun hbreach => ⟨hi, ?_⟩
    · rw [← Blob.map_toList_ofList (zs[i]?).join]
      exact hu.1
    · exact Nat.le_of_not_lt fun hj => hbreach ⟨hj, hsource.addressable_slot i⟩
  · rw [hsource.shows.copySlot_of_le hi]
    exact hs

/-- What copying a range leaves, if it is done. -/
theorem Column.Encodes.of_copyRange_done {t : ColumnType} {source : Column t} {s u : Owned t}
    {zs : Slots} (h : source.Encodes zs) {start length : Nat}
    (hdone : copyRange source start length s = .done () u) :
    start + length ≤ zs.length ∧ u.column.Encodes (zs.slice start length) := by
  have hrange : start + length ≤ zs.length := by
    refine Nat.le_of_not_lt fun hlt => ?_
    rw [copyRange_of_lt (h.count ▸ hlt)] at hdone
    cases hdone
  refine ⟨hrange, ?_⟩
  rcases Nat.eq_zero_or_pos length with rfl | hpos
  · rw [copyRange_zero (h.count ▸ hrange)] at hdone
    cases hdone
    rw [Slots.slice, List.take_zero]
    exact encodes_clear s
  · exact ((h.copyRange_sat hpos hrange s).of_done hdone).2.1

/-! ## Many slots -/

namespace Workspace

open Column

variable {t : ColumnType} {w u : Workspace} {source dest : Nat} {giver taker : Seat t}
  {a : Allocator} {s : Owned t} {xs zs : Slots} {ps done : List (Nat × Nat)} {limits : List Nat}

/-- Copies slots from one place to another, pair by pair, and passes over those that are refused.
Gives the pairs that are done, and the workspace in the end; there is none if a pair breaks the
contract. -/
def copyAll (t : ColumnType) (source dest : Nat) (w : Workspace) :
    List (Nat × Nat) → Option (List (Nat × Nat) × Workspace)
  | [] => some ([], w)
  | p :: ps =>
    match run t (.copySlot source dest p.1 p.2) w with
    | .done _ u => (copyAll t source dest u ps).map fun r => (p :: r.1, r.2)
    | .refused _ u => copyAll t source dest u ps
    | .breach => none

/-- The workspace is that after the history of these commands. -/
theorem copyAll_map_snd (w : Workspace) (ps : List (Nat × Nat)) :
    (copyAll t source dest w ps).map Prod.snd =
      runAll w (ps.map fun p => (t, .copySlot source dest p.1 p.2)) := by
  induction ps generalizing w with
  | nil => rfl
  | cons p ps ih =>
    rw [copyAll, List.map_cons, runAll]
    cases run t (.copySlot source dest p.1 p.2) w with
    | done _ u =>
      rw [Option.map_map]
      exact ih u
    | refused _ u => exact ih u
    | breach => rfl

section pairs

variable (hne : source ≠ dest) (hgiver : (w.places t)[source]? = some (some giver))
  (htaker : (w.places t)[dest]? = some (some taker)) (ha : w.allocators[taker.home]? = some a)

include hne hgiver htaker ha

theorem run_copySlot (s : Owned t) (i j : Nat) :
    run t (.copySlot source dest i j) (w.seat dest taker.home s) =
      (giver.column.copySlot i j s).lift id (w.seat dest taker.home) := by
  have hleaves := leaves_seat hne hgiver htaker s
  have hhome : (w.seat dest taker.home s).allocators[taker.home]? = some s.allocator :=
    Array.getElem?_setIfInBounds_self_of_lt (Array.getElem?_eq_some_iff.1 ha).1
  have hcopy : Session.run (.copySlot source dest i j) =
      Session.alterFrom source dest fun c : Column t => c.copySlot i j := rfl
  have hrun : run t (.copySlot source dest i j) (w.seat dest taker.home s) =
      (giver.column.copySlot i j s).lift id ((w.seat dest taker.home s).seat dest taker.home) :=
    run_alterFrom hcopy hleaves.source hleaves.dest hhome
  rw [hrun, show (w.seat dest taker.home s).seat dest taker.home = w.seat dest taker.home from
    funext (w.seat_seat dest taker.home s)]

/-- However many pairs are copied, what is left is what writing the slots of those that are done
would leave, and no other pair of the list is done. -/
theorem copyAll_seat (hzs : giver.column.Encodes zs) (hs : s.column.Encodes xs)
    (h : copyAll t source dest (w.seat dest taker.home s) ps = some (done, u)) :
    done.Sublist ps ∧ (∀ p ∈ done, p.1 < zs.length) ∧
      ∃ o : Owned t, u = w.seat dest taker.home o ∧ o.column.Encodes (xs.putAll (zs.picks done)) := by
  induction ps generalizing s xs done with
  | nil =>
    cases h
    exact ⟨.refl [], nofun, s, rfl, hs⟩
  | cons p ps ih =>
    have hstep := hzs.copySlot_sat hs p.1 p.2
    rw [copyAll, run_copySlot hne hgiver htaker ha] at h
    cases hcopy : giver.column.copySlot p.1 p.2 s with
    | breach =>
      rw [hcopy] at h
      cases h
    | refused e o =>
      rw [hcopy] at h hstep
      obtain ⟨hsub, hin, hend⟩ := ih hstep h
      exact ⟨hsub.cons p, hin, hend⟩
    | done _ o =>
      rw [hcopy] at h hstep
      obtain ⟨⟨done', u'⟩, hrest, heq⟩ := Option.map_eq_some_iff.1 h
      cases heq
      obtain ⟨hsub, hin, hend⟩ := ih hstep.2 hrest
      exact ⟨hsub.cons_cons p, List.forall_mem_cons.2 ⟨hstep.1, hin⟩, hend⟩

/-- No pair breaks the contract, if those that the source has are copied to slot numbers below the
largest size. -/
theorem exists_copyAll (hzs : giver.column.Encodes zs) (hs : s.column.Encodes xs)
    (hps : ∀ p ∈ ps, p.1 < zs.length → p.2 < Size.max) :
    ∃ done u, copyAll t source dest (w.seat dest taker.home s) ps = some (done, u) := by
  induction ps generalizing s xs with
  | nil => exact ⟨[], _, rfl⟩
  | cons p ps ih =>
    obtain ⟨hp, hps⟩ := List.forall_mem_cons.1 hps
    have hstep := hzs.copySlot_sat hs p.1 p.2
    rw [copyAll, run_copySlot hne hgiver htaker ha]
    cases hcopy : giver.column.copySlot p.1 p.2 s with
    | breach =>
      rw [hcopy] at hstep
      exact absurd (hp hstep.1) (Nat.not_lt_of_le hstep.2)
    | refused e o =>
      rw [hcopy] at hstep
      exact ih hstep hps
    | done _ o =>
      rw [hcopy] at hstep
      obtain ⟨done, u, hrest⟩ := ih hstep.2 hps
      exact ⟨p :: done, u, Option.map_eq_some_iff.2 ⟨_, hrest, rfl⟩⟩

/-- With room for the slots that the source has, all pairs but the others are done. -/
theorem copyAll_done {z : Sizes} {slots bytes : Nat} (hzs : giver.column.Encodes zs)
    (hs : s.column.Encodes xs) (hz : Provides s slots bytes z)
    (hps : Edit.AllWithin slots (min bytes t.width.max) xs
      (Edit.sets (Edit.copies zs (ps.filter fun p => p.1 < zs.length)))) :
    ∃ u, copyAll t source dest (w.seat dest taker.home s) ps =
      some (ps.filter fun p => p.1 < zs.length, u) := by
  induction ps generalizing s xs with
  | nil => exact ⟨_, rfl⟩
  | cons p ps ih =>
    rw [copyAll, run_copySlot hne hgiver htaker ha]
    by_cases hp : p.1 < zs.length
    · rw [List.filter_cons_of_pos (by simpa using hp)] at hps ⊢
      obtain ⟨o, hset, ho, hz'⟩ := hs.set_ample hz hps.1
      obtain ⟨u, hrest⟩ := ih ho hz' hps.2
      refine ⟨u, ?_⟩
      rw [hzs.shows.copySlot_of_lt hp, hset]
      exact Option.map_eq_some_iff.2 ⟨_, hrest, rfl⟩
    · rw [List.filter_cons_of_neg (by simpa using hp)] at hps ⊢
      rw [hzs.shows.copySlot_of_le (Nat.le_of_not_lt hp)]
      exact ih hs hz hps

end pairs

/-! ## Any workspace -/

/-- How copying slots from one place to another ends, by the slots `xs` of the destination, those of
the source, `zs`, and the account `a` of the destination. -/
structure CopiesAll (w : Workspace) (source dest : Nat) (giver taker : Seat t) (xs zs : Slots)
    (a : Allocator) : Prop where
  /-- Whichever pairs are done, nothing but the destination and its account has changed, and there
  the last slot for each slot number has been put in. -/
  leaves : ∀ ps done u, copyAll t source dest w ps = some (done, u) →
    done.Sublist ps ∧ (∀ p ∈ done, p.1 < giver.column.count) ∧
      xs.Overlays (zs.picks done) (xs.putAll (zs.picks done)) ∧
      ∃ d, w.Leaves u source dest giver taker d ∧ d.Shows (xs.putAll (zs.picks done))
  /-- A pair whose slot the source does not have is refused at any time, and changes nothing. -/
  outside : ∀ ps done u, copyAll t source dest w ps = some (done, u) →
    ∀ i j : Nat, giver.column.count ≤ i → run t (.copySlot source dest i j) u =
      .refused (.indexOutOfBounds i giver.column.count) u
  /-- No pair breaks the contract but for one that would write to the largest slot number. -/
  answered : ∀ ps : List (Nat × Nat), (∀ p ∈ ps, p.1 < giver.column.count → p.2 < Size.max) →
    ∃ done u, copyAll t source dest w ps = some (done, u)
  /-- With room for what they copy, all other pairs are done. -/
  done : ∀ (ps : List (Nat × Nat)) (slots bytes : Nat),
    Edit.AllWithin slots (min bytes t.width.max) xs
        (Edit.sets (Edit.copies zs (ps.filter fun p => p.1 < giver.column.count))) →
      (Owned.mk a taker.column).HasRoom (taker.column.ample slots bytes) →
        ∃ u, copyAll t source dest w ps =
          some (ps.filter fun p => p.1 < giver.column.count, u)
  /-- The slots of a range, copied to an empty column in any order, compare equal to the range copied
  at once, to whatever column. -/
  range : taker.column.count = 0 → ∀ (ps : List (Nat × Nat)) (start length : Nat) (u : Workspace)
    (d : Column t), ps.Perm ((List.range length).map fun k => (start + k, k)) →
      copyAll t source dest w ps = some (ps, u) → w.Leaves u source dest giver taker d →
        ∀ s o : Owned t, copyRange giver.column start length s = .done () o →
          d.sameSlots? o.column = some true ∧ o.column.sameSlots? d = some true

theorem copiesAll_of_encodes (hne : source ≠ dest)
    (hgiver : (w.places t)[source]? = some (some giver))
    (htaker : (w.places t)[dest]? = some (some taker)) (ha : w.allocators[taker.home]? = some a)
    (hzs : giver.column.Encodes zs) (hxs : taker.column.Encodes xs) :
    w.CopiesAll source dest giver taker xs zs a := by
  have hself : w.seat dest taker.home ⟨a, taker.column⟩ = w := seat_self htaker ha
  have hend : ∀ ps done u, copyAll t source dest w ps = some (done, u) →
      done.Sublist ps ∧ (∀ p ∈ done, p.1 < zs.length) ∧
        ∃ o : Owned t, u = w.seat dest taker.home o ∧
          o.column.Encodes (xs.putAll (zs.picks done)) := fun ps done u h =>
    copyAll_seat (s := ⟨a, taker.column⟩) hne hgiver htaker ha hzs hxs (hself.symm ▸ h)
  refine ⟨fun ps done u h => ?_, fun ps done u h i j hi => ?_, fun ps hps => ?_,
    fun ps slots bytes hwithin hroom => ?_, fun hempty ps start length u d hps h hd s o ho => ?_⟩
  · obtain ⟨hsub, hin, o, rfl, ho⟩ := hend ps done u h
    exact ⟨hsub, hzs.count.symm ▸ hin, xs.overlays_putAll _, o.column,
      leaves_seat hne hgiver htaker o, ho.shows⟩
  · obtain ⟨-, -, o, rfl, -⟩ := hend ps done u h
    rw [run_copySlot hne hgiver htaker ha, hzs.shows.copySlot_of_le (hzs.count ▸ hi)]
    rfl
  · rw [hzs.count] at hps
    rw [← hself]
    exact exists_copyAll hne hgiver htaker ha hzs hxs hps
  · rw [hzs.count] at hwithin ⊢
    have hdone := copyAll_done (s := ⟨a, taker.column⟩) hne hgiver htaker ha hzs hxs
      (provides_ample hroom) hwithin
    rwa [hself] at hdone
  · obtain ⟨-, -, o', rfl, ho'⟩ := hend ps ps u h
    -- the column in the place is the one that the copies left
    have hcolumn := hd.dest.symm.trans (leaves_seat hne hgiver htaker o').dest
    cases hcolumn
    obtain ⟨hrange, hslice⟩ := hzs.of_copyRange_done ho
    obtain rfl : xs = [] := List.eq_nil_of_length_eq_zero (hxs.count.symm.trans hempty)
    rw [Slots.putAll_picks_of_range hps hrange] at ho'
    rw [ho'.sameSlots? hslice, hslice.sameSlots? ho', decide_eq_true rfl]
    exact ⟨rfl, rfl⟩

/-- In every reachable workspace, slots can be copied from one column to another in any order, and
slots written several times over: each has in the end what was copied to it last. A pair that names
a slot that the source does not have is refused and changes nothing, the source never changes, and
copying the slots of a range one by one comes to the same as copying the range. -/
theorem Reachable.copiesAll (h : Reachable limits w) (hlimits : ∀ l ∈ limits, l ≤ Size.max)
    (hne : source ≠ dest) (hgiver : (w.places t)[source]? = some (some giver))
    (htaker : (w.places t)[dest]? = some (some taker)) :
    ∃ (xs zs : Slots) (a : Allocator), taker.column.slots? = some xs ∧
      giver.column.slots? = some zs ∧ w.allocators[taker.home]? = some a ∧
      w.CopiesAll source dest giver taker xs zs a := by
  obtain ⟨zs, hzs⟩ := h.encoded t source giver (Session.seatAt?_eq_some.2 hgiver)
  obtain ⟨xs, hxs⟩ := h.encoded t dest taker (Session.seatAt?_eq_some.2 htaker)
  have ha := Array.getElem?_eq_getElem ((h.balanced hlimits).housed t dest taker htaker)
  exact ⟨xs, zs, _, hxs.slots?, hzs.slots?, ha, copiesAll_of_encodes hne hgiver htaker ha hzs hxs⟩

/-- Two slots are written twice, one pair is refused, and one slot is skipped over; and two slots are
copied in descending order. -/
theorem copiesAll_of_repeated : ∃ (w u v : Workspace) (giver taker : Seat ⟨.bytes, .narrow⟩)
    (a : Allocator) (d e : Column ⟨.bytes, .narrow⟩) (o : Owned ⟨.bytes, .narrow⟩),
    Reachable [1024] w ∧ giver.column.slots? = some [some [1, 2], none, some [3]] ∧
      taker.column.slots? = some [] ∧ w.CopiesAll 0 1 giver taker [] [some [1, 2], none, some [3]] a ∧
      copyAll ⟨.bytes, .narrow⟩ 0 1 w [(0, 2), (5, 1), (2, 0), (1, 2), (0, 0)] =
        some ([(0, 2), (2, 0), (1, 2), (0, 0)], u) ∧
      w.Leaves u 0 1 giver taker d ∧ d.Shows [some [1, 2], none, none] ∧
      copyAll ⟨.bytes, .narrow⟩ 0 1 w [(2, 1), (1, 0)] = some ([(2, 1), (1, 0)], v) ∧
      w.Leaves v 0 1 giver taker e ∧
      copyRange giver.column 1 2 ⟨a, taker.column⟩ = .done () o ∧
      e.sameSlots? o.column = some true := by
  have hrun : (runAll (start ([1024].map fun l => { limit := l }) 2)
      ([.create 0 0 { name := "a", type := ⟨.bytes, .narrow⟩ } { initialSlots := 1 },
        .create 1 0 { name := "b", type := ⟨.bytes, .narrow⟩ } { initialSlots := 1 },
        .edit 0 (.pushAll [some ⟨[1, 2], 1⟩, none, some ⟨[3], 1⟩])].map
          fun c => (⟨.bytes, .narrow⟩, c))).any
      (fun w => ((w.session ⟨.bytes, .narrow⟩).seatAt? 0).any fun giver =>
        ((w.session ⟨.bytes, .narrow⟩).seatAt? 1).any fun taker =>
          (w.allocators[taker.home]?).any fun a =>
            giver.column.slots? = some [some [1, 2], none, some [3]] ∧ giver.column.count = 3 ∧
              taker.column.slots? = some [] ∧ taker.column.count = 0 ∧
              (Owned.mk a taker.column).HasRoom (taker.column.ample 3 5) ∧
              a.allocated + rangeFootprint .narrow 2 1 ≤ a.limit) = true := by
    decide +kernel
  obtain ⟨w, hw, hend⟩ := (Option.any_eq_true _ _).1 hrun
  obtain ⟨giver, hgiver, hend⟩ := (Option.any_eq_true _ _).1 hend
  obtain ⟨taker, htaker, hend⟩ := (Option.any_eq_true _ _).1 hend
  obtain ⟨a, ha, hend⟩ := (Option.any_eq_true _ _).1 hend
  obtain ⟨hslots, hcount, hnone, hempty, hroom, hfootprint⟩ := of_decide_eq_true hend
  have hreach := (Reachable.start 2).runAll (by simp [Command.Safe, Edit.Safe]) hw
  obtain ⟨xs, zs, b, hxs, hzs, hb, hcopies⟩ := hreach.copiesAll (by decide)
    (show 0 ≠ 1 by decide) (Session.seatAt?_eq_some.1 hgiver) (Session.seatAt?_eq_some.1 htaker)
  cases hslots.symm.trans hzs
  cases hnone.symm.trans hxs
  cases ha.symm.trans hb
  have hdone := fun ps hps => hcopies.done ps 3 5 hps hroom
  rw [hcount] at hdone
  obtain ⟨u, hu⟩ := hdone [(0, 2), (5, 1), (2, 0), (1, 2), (0, 0)]
    (Edit.allWithin_of_total (by decide) (by decide))
  obtain ⟨v, hv⟩ := hdone [(2, 1), (1, 0)] (Edit.allWithin_of_total (by decide) (by decide))
  obtain ⟨-, -, -, d, hd, hshows⟩ := hcopies.leaves _ _ _ hu
  obtain ⟨-, -, -, e, he, -⟩ := hcopies.leaves _ _ _ hv
  obtain ⟨ys, hys⟩ := hreach.encoded _ 0 giver hgiver
  cases hslots.symm.trans hys.slots?
  obtain ⟨o, ho, -⟩ := hys.copyRange_done (s := ⟨a, taker.column⟩) (show 0 < 2 by decide)
    (show 1 + 2 ≤ 3 by decide) hfootprint
  exact ⟨w, u, v, giver, taker, a, d, e, o, hreach, hslots, hnone, hcopies, hu, hd, hshows, hv, he, ho,
    (hcopies.range hempty _ 1 2 v e (by decide) hv he _ o ho).1⟩

end Workspace

end PackedColumn
