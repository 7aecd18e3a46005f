import PackedColumn.Outcome

/-!
# Conditions on outcomes

What an operation may end in is stated by one condition for each way to end
(`Outcome.Sat`): on the answer and the state when it is done, on the refusal
and the state when it is refused, and a plain proposition for a breach, which
is `False` where none may happen.

* `sat_bind`: a condition on a sequence is one on its first part.
* `Sat.mono`, `Sat.and`: weakening a condition, and putting two together.
* `Call.sat_require`, `Call.sat_ofExcept`: the steps that may stop a sequence.
-/

namespace PackedColumn

namespace Outcome

variable {ε ε' σ τ α β : Type}

/-- An outcome meets the condition for the way in which it ends. -/
def Sat (o : Outcome ε σ α) (done : α → σ → Prop) (refused : ε → σ → Prop) (breach : Prop) : Prop :=
  match o with
  | .done a s => done a s
  | .refused e s => refused e s
  | .breach => breach

variable {D D' : α → σ → Prop} {R R' : ε → σ → Prop} {B B' : Prop}

@[simp] theorem sat_done {a : α} {s : σ} : (done a s : Outcome ε σ α).Sat D R B ↔ D a s := Iff.rfl

@[simp] theorem sat_refused {e : ε} {s : σ} :
    (refused e s : Outcome ε σ α).Sat D R B ↔ R e s := Iff.rfl

@[simp] theorem sat_breach : (breach : Outcome ε σ α).Sat D R B ↔ B := Iff.rfl

theorem sat_bind {o : Outcome ε σ α} {f : α → σ → Outcome ε σ β} {E : β → σ → Prop} :
    (o.bind f).Sat E R B ↔ o.Sat (fun a s => (f a s).Sat E R B) R B := by
  cases o <;> exact Iff.rfl

theorem Sat.mono {o : Outcome ε σ α} (h : o.Sat D R B) (hD : ∀ a s, D a s → D' a s)
    (hR : ∀ e s, R e s → R' e s) (hB : B → B') : o.Sat D' R' B' := by
  cases o with
  | done a s => exact hD a s h
  | refused e s => exact hR e s h
  | breach => exact hB h

theorem sat_of_forall (o : Outcome ε σ α) (hD : ∀ a s, D a s) (hR : ∀ e s, R e s) (hB : B) :
    o.Sat D R B := by
  cases o with
  | done a s => exact hD a s
  | refused e s => exact hR e s
  | breach => exact hB

theorem Sat.and {o : Outcome ε σ α} (h : o.Sat D R B) (h' : o.Sat D' R' B') :
    o.Sat (fun a s => D a s ∧ D' a s) (fun e s => R e s ∧ R' e s) (B ∧ B') := by
  cases o <;> exact ⟨h, h'⟩

theorem sat_lift {o : Outcome ε σ α} {wrap : ε → ε'} {put : σ → τ} {E : α → τ → Prop}
    {F : ε' → τ → Prop} : (o.lift wrap put).Sat E F B ↔
      o.Sat (fun a s => E a (put s)) (fun e s => F (wrap e) (put s)) B := by
  cases o <;> exact Iff.rfl

theorem Sat.of_done {o : Outcome ε σ α} {a : α} {s : σ} (h : o.Sat D R B) (ho : o = .done a s) :
    D a s := by
  subst ho
  exact h

/-- The state that a kept contract leaves behind. -/
theorem Sat.of_state? {P : σ → Prop} {o : Outcome ε σ α} {s : σ}
    (h : o.Sat (fun _ => P) (fun _ => P) B) (hs : o.state? = some s) : P s := by
  cases o with
  | done a u => cases hs; exact h
  | refused e u => cases hs; exact h
  | breach => cases hs

theorem Sat.exists_state? {P : σ → Prop} {o : Outcome ε σ α}
    (h : o.Sat (fun _ => P) (fun _ => P) False) : ∃ s, o.state? = some s ∧ P s := by
  cases o with
  | done a u => exact ⟨u, rfl, h⟩
  | refused e u => exact ⟨u, rfl, h⟩
  | breach => exact h.elim

/-- Why an operation was refused, if it was. -/
def refusal? : Outcome ε σ α → Option ε
  | .refused e _ => some e
  | _ => none

theorem exists_refused {o : Outcome ε σ α} {e : ε} (h : o.refusal? = some e) :
    ∃ s, o = .refused e s := by
  cases o with
  | refused e' s => cases h; exact ⟨s, rfl⟩
  | _ => cases h

theorem exists_done {o : Outcome ε σ α} (hkept : o.state?.isSome = true)
    (h : o.refusal? = none) : ∃ a s, o = .done a s := by
  cases o with
  | done a s => exact ⟨a, s, rfl⟩
  | refused e s => cases h
  | breach => cases hkept

end Outcome

namespace Call

variable {ε σ α β : Type} {D : α → σ → Prop} {R : ε → σ → Prop} {B : Prop}

theorem bind_of_done {m : Call ε σ α} {f : α → Call ε σ β} {s u : σ} {a : α}
    (h : m s = .done a u) : (m >>= f) s = f a u := by
  rw [bind_apply, h]; rfl

theorem bind_of_refused {m : Call ε σ α} {f : α → Call ε σ β} {s u : σ} {e : ε}
    (h : m s = .refused e u) : (m >>= f) s = .refused e u := by
  rw [bind_apply, h]; rfl

theorem sat_bind {m : Call ε σ α} {f : α → Call ε σ β} {s : σ} {E : β → σ → Prop} :
    ((m >>= f) s).Sat E R B ↔ (m s).Sat (fun a u => (f a u).Sat E R B) R B :=
  Outcome.sat_bind

theorem sat_map {m : Call ε σ α} {f : α → β} {s : σ} {E : β → σ → Prop} :
    ((f <$> m) s).Sat E R B ↔ (m s).Sat (fun a u => E (f a) u) R B := by
  rw [map_eq_pure_bind, sat_bind]; exact Iff.rfl

theorem sat_require {x : Option α} {s : σ} :
    ((require x : Call ε σ α) s).Sat D R B ↔ (∀ a, x = some a → D a s) ∧ (x = none → B) := by
  cases x <;> simp

theorem sat_ofExcept {x : Except ε α} {s : σ} :
    ((ofExcept x : Call ε σ α) s).Sat D R B ↔
      (∀ a, x = .ok a → D a s) ∧ ∀ e, x = .error e → R e s := by
  cases x <;> simp

end Call

end PackedColumn
