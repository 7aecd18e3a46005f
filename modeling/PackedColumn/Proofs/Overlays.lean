import Mathlib.Data.List.Nodup
import PackedColumn.Proofs.Slots

/-!
# Slots written one after the other

Putting values into a list of slots, in some order and perhaps several into
one slot, leaves in each slot the last value put there (`Slots.Overlays`).
Values for different slots can be put in any order.

* `lt_length_putAll`, `join_putAll_of_ne`, `getElem?_putAll_of_last`: the number of slots, the slots
  that are left alone, and the others.
* `put_right_comm`, and `putAll_perm` for a whole list of values.
-/

namespace PackedColumn

namespace Slots

variable {xs : Slots} {i j : Nat} {x y : Option (List UInt8)}
  {ws ws' : List (Nat × Option (List UInt8))}

/-- The slots with values put in one after the other. -/
def putAll (xs : Slots) (ws : List (Nat × Option (List UInt8))) : Slots :=
  ws.foldl (fun xs p => xs.put p.1 p.2) xs

theorem putAll_append (xs : Slots) (ws ws' : List (Nat × Option (List UInt8))) :
    xs.putAll (ws ++ ws') = (xs.putAll ws).putAll ws' := List.foldl_append

/-- The slots are the others with the last of the values for each slot put in. -/
structure Overlays (xs : Slots) (ws : List (Nat × Option (List UInt8))) (zs : Slots) : Prop where
  /-- There are as many as before, or as the values need. -/
  lt_length_iff : ∀ i, i < zs.length ↔ i < xs.length ∨ ∃ p ∈ ws, i ≤ p.1
  /-- A slot has the last value for it. -/
  last : ∀ before i x after, ws = before ++ (i, x) :: after → (∀ p ∈ after, p.1 ≠ i) →
    zs[i]? = some x
  /-- Without any it is as before. -/
  kept : ∀ i, (∀ p ∈ ws, p.1 ≠ i) → i < xs.length → zs[i]? = xs[i]?
  /-- If it was not there before, then it is null. -/
  skipped : ∀ i, (∀ p ∈ ws, p.1 ≠ i) → xs.length ≤ i → i < zs.length → zs[i]? = some none

/-- Whether a slot left alone was there before does not change what is in it. -/
theorem join_put_of_ne (xs : Slots) (x : Option (List UInt8)) (h : j ≠ i) :
    (xs.put i x)[j]?.join = xs[j]?.join := by
  rw [getElem?_put_of_ne h, getElem?_padTo]
  split
  · rfl
  · rw [List.getElem?_eq_none (by omega)]
    split <;> rfl

theorem join_putAll_of_ne (xs : Slots) (h : ∀ p ∈ ws, p.1 ≠ i) :
    (xs.putAll ws)[i]?.join = xs[i]?.join := by
  induction ws generalizing xs with
  | nil => rfl
  | cons p ws ih =>
    rw [← xs.join_put_of_ne p.2 (Ne.symm (h p List.mem_cons_self))]
    exact ih _ fun q hq => h q (List.mem_cons_of_mem p hq)

theorem lt_length_putAll (xs : Slots) (ws : List (Nat × Option (List UInt8))) :
    i < (xs.putAll ws).length ↔ i < xs.length ∨ ∃ p ∈ ws, i ≤ p.1 := by
  induction ws generalizing xs with
  | nil => simp [putAll]
  | cons p ws ih =>
    have hput : i < (xs.put p.1 p.2).length ↔ i < xs.length ∨ i ≤ p.1 := by
      rw [length_put]
      omega
    rw [List.exists_mem_cons_iff, ← or_assoc, ← hput]
    exact ih _

/-- What is in a slot and how many slots there are say it all. -/
theorem getElem?_of_join {zs : Slots} (hi : i < zs.length) (h : zs[i]?.join = x) :
    zs[i]? = some x := by
  rw [List.getElem?_eq_getElem hi] at h ⊢
  exact congrArg some h

theorem getElem?_putAll_of_last {before after : List (Nat × Option (List UInt8))}
    (h : ∀ p ∈ after, p.1 ≠ i) : (xs.putAll (before ++ (i, x) :: after))[i]? = some x := by
  have hi : i < (xs.putAll (before ++ (i, x) :: after)).length :=
    (lt_length_putAll xs _).2 (.inr ⟨(i, x), by simp, Nat.le_refl i⟩)
  refine getElem?_of_join hi ?_
  rw [putAll_append]
  refine (join_putAll_of_ne ((xs.putAll before).put i x) h).trans ?_
  rw [getElem?_put, if_pos rfl]
  rfl

theorem overlays_putAll (xs : Slots) (ws : List (Nat × Option (List UInt8))) :
    xs.Overlays ws (xs.putAll ws) where
  lt_length_iff := fun _ => lt_length_putAll xs ws
  last := fun before i x after hws hafter => by
    rw [hws]
    exact getElem?_putAll_of_last hafter
  kept := fun i hws hi => by
    have hjoin := join_putAll_of_ne xs hws
    rw [List.getElem?_eq_getElem hi] at hjoin ⊢
    exact getElem?_of_join ((lt_length_putAll xs ws).2 (.inl hi)) hjoin
  skipped := fun i hws hle hi => by
    have hjoin := join_putAll_of_ne xs hws
    rw [List.getElem?_eq_none hle] at hjoin
    exact getElem?_of_join hi hjoin

/-! ## The order -/

theorem put_right_comm (xs : Slots) (x y : Option (List UInt8)) (h : i ≠ j) :
    (xs.put i x).put j y = (xs.put j y).put i x := by
  have hlength : ((xs.put i x).put j y).length = ((xs.put j y).put i x).length := by
    simp only [length_put]
    omega
  refine List.ext_getElem hlength fun k hk hk' => ?_
  suffices hjoin : ((xs.put i x).put j y)[k]?.join = ((xs.put j y).put i x)[k]?.join by
    rwa [List.getElem?_eq_getElem hk, List.getElem?_eq_getElem hk'] at hjoin
  by_cases hki : k = i
  · subst hki
    rw [join_put_of_ne _ y h, getElem?_put, getElem?_put, if_pos rfl, if_pos rfl]
  · rw [join_put_of_ne _ x hki]
    by_cases hkj : k = j
    · subst hkj
      rw [getElem?_put, getElem?_put, if_pos rfl, if_pos rfl]
    · rw [join_put_of_ne _ y hkj, join_put_of_ne _ x hki, join_put_of_ne _ y hkj]

theorem putAll_perm (xs : Slots) (h : ws.Perm ws') (hnodup : (ws.map Prod.fst).Nodup) :
    xs.putAll ws = xs.putAll ws' := by
  refine h.foldl_eq' (fun p hp q hq zs => ?_) xs
  by_cases hpq : p = q
  · rw [hpq]
  · exact put_right_comm zs p.2 q.2 fun heq => hpq (List.inj_on_of_nodup_map hnodup hp hq heq)

end Slots

end PackedColumn
