/-!
# Outcomes

An operation on a state ends in one of three ways: it is done, it is refused
for a stated reason, or it breaks its contract (an index outside a buffer,
an arithmetic overflow), after which nothing is known. A refusal carries a
state as well, since memory obtained before it may be kept.

`Call ε σ α` is the type of such operations, with the sequencing that stops
at the first refusal or breach. `done_bind`, `refused_bind` and `breach_bind`
compute a sequence, and `Call.instLawfulMonad` states that it obeys the laws.
-/

namespace PackedColumn

/-- How an operation on a state of type `σ` ends. -/
inductive Outcome (ε σ α : Type) where
  | done (value : α) (state : σ)
  | refused (error : ε) (state : σ)
  | breach
  deriving Repr, DecidableEq

namespace Outcome

variable {ε ε' σ τ α β : Type}

/-- Continues with `next` when the operation was done. -/
def bind (o : Outcome ε σ α) (next : α → σ → Outcome ε σ β) : Outcome ε σ β :=
  match o with
  | done a s => next a s
  | refused e s => refused e s
  | breach => breach

/-- The same end, seen with another state and another kind of error. -/
def lift (wrap : ε → ε') (put : σ → τ) : Outcome ε σ α → Outcome ε' τ α
  | done a s => done a (put s)
  | refused e s => refused (wrap e) (put s)
  | breach => breach

/-- The state left behind, if the contract was kept. -/
def state? : Outcome ε σ α → Option σ
  | done _ s => some s
  | refused _ s => some s
  | breach => none

@[simp] theorem done_bind (a : α) (s : σ) (f : α → σ → Outcome ε σ β) :
    (done a s).bind f = f a s := rfl

@[simp] theorem refused_bind (e : ε) (s : σ) (f : α → σ → Outcome ε σ β) :
    (refused e s : Outcome ε σ α).bind f = refused e s := rfl

@[simp] theorem breach_bind (f : α → σ → Outcome ε σ β) :
    (breach : Outcome ε σ α).bind f = breach := rfl

theorem bind_eq_done_iff {o : Outcome ε σ α} {f : α → σ → Outcome ε σ β} {b : β} {t : σ} :
    o.bind f = done b t ↔ ∃ a s, o = done a s ∧ f a s = done b t := by
  cases o with
  | done a s => exact ⟨fun h => ⟨a, s, rfl, h⟩, fun ⟨_, _, h, h'⟩ => by cases h; exact h'⟩
  | refused e s => simp
  | breach => simp

end Outcome

/-- An operation on a state of type `σ` that answers with an `α`. -/
def Call (ε σ α : Type) := σ → Outcome ε σ α

namespace Call

variable {ε σ α β : Type}

instance : Monad (Call ε σ) where
  pure a := fun s => .done a s
  bind m f := fun s => (m s).bind f

/-- The state as it stands. -/
def get : Call ε σ σ := fun s => .done s s

/-- Changes the state. -/
def modify (f : σ → σ) : Call ε σ Unit := fun s => .done () (f s)

/-- Stops with a refusal. -/
def refuse (e : ε) : Call ε σ α := fun s => .refused e s

/-- Goes on with a value that is there unless the contract was broken. -/
def require : Option α → Call ε σ α
  | some a => pure a
  | none => fun _ => .breach

/-- Goes on with the value of a check, or stops with its refusal. -/
def ofExcept : Except ε α → Call ε σ α
  | .ok a => pure a
  | .error e => refuse e

@[simp] theorem pure_apply (a : α) (s : σ) : (pure a : Call ε σ α) s = .done a s := rfl

@[simp] theorem bind_apply (m : Call ε σ α) (f : α → Call ε σ β) (s : σ) :
    (m >>= f) s = (m s).bind f := rfl

@[simp] theorem get_apply (s : σ) : (get : Call ε σ σ) s = .done s s := rfl

@[simp] theorem modify_apply (f : σ → σ) (s : σ) :
    (modify f : Call ε σ Unit) s = .done () (f s) := rfl

@[simp] theorem refuse_apply (e : ε) (s : σ) : (refuse e : Call ε σ α) s = .refused e s := rfl

@[simp] theorem require_some (a : α) (s : σ) : (require (some a) : Call ε σ α) s = .done a s := rfl

@[simp] theorem require_none (s : σ) : (require none : Call ε σ α) s = .breach := rfl

@[simp] theorem ofExcept_ok (a : α) (s : σ) : (ofExcept (.ok a) : Call ε σ α) s = .done a s := rfl

@[simp] theorem ofExcept_error (e : ε) (s : σ) :
    (ofExcept (.error e) : Call ε σ α) s = .refused e s := rfl

@[ext] theorem ext {m n : Call ε σ α} (h : ∀ s, m s = n s) : m = n := funext h

instance instLawfulMonad : LawfulMonad (Call ε σ) := by
  refine LawfulMonad.mk' _ ?_ ?_ ?_
  · intro α m; ext s; show (m s).bind _ = m s; cases m s <;> rfl
  · intro α β a f; rfl
  · intro α β γ m f g; ext s; show ((m s).bind f).bind g = (m s).bind _; cases m s <;> rfl

end Call

end PackedColumn
