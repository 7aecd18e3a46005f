import PackedColumn.Memory.Allocator

/-!
# Paid buffers

One buffer by itself, together with the allocator that accounts for it. It is
changed within its memory, or made anew by a request for more, and a request
that is refused leaves it as it was.

* `change_of_some`, `change_of_none`: a change is done exactly where there is one to make.
-/

namespace PackedColumn

/-- A buffer and the allocator that accounts for it. -/
@[ext] structure Paid (α : Type) where
  allocator : Allocator
  buffer : α
  deriving DecidableEq

namespace Paid

variable {α : Type}

/-- Changes the buffer within its memory, by a step that may break its contract. -/
def change (f : α → Option α) : Call MemoryRefusal (Paid α) Unit := fun ⟨allocator, buffer⟩ =>
  match f buffer with
  | some buffer => .done () ⟨allocator, buffer⟩
  | none => .breach

/-- Makes the buffer anew by a request for memory. -/
def request (f : α → Allocator.Request α) : Call MemoryRefusal (Paid α) Unit :=
  fun ⟨allocator, buffer⟩ =>
    match f buffer allocator with
    | .done buffer allocator => .done () ⟨allocator, buffer⟩
    | .refused e allocator => .refused e ⟨allocator, buffer⟩
    | .breach => .breach

theorem change_of_some {f : α → Option α} {p : Paid α} {b : α} (h : f p.buffer = some b) :
    change f p = .done () { p with buffer := b } := by
  simp [change, h]

theorem change_of_none {f : α → Option α} {p : Paid α} (h : f p.buffer = none) :
    change f p = .breach := by
  simp [change, h]

theorem request_of_done {f : α → Allocator.Request α} {p : Paid α} {b : α} {a : Allocator}
    (h : f p.buffer p.allocator = .done b a) : request f p = .done () ⟨a, b⟩ := by
  simp [request, h]

theorem request_of_refused {f : α → Allocator.Request α} {p : Paid α} {e : MemoryRefusal}
    {a : Allocator} (h : f p.buffer p.allocator = .refused e a) :
    request f p = .refused e { p with allocator := a } := by
  simp [request, h]

end Paid

end PackedColumn
