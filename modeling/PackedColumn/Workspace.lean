import PackedColumn.Session
import PackedColumn.Schema.ColumnType

/-!
# Workspaces

Columns of different types may have the same allocator. A workspace has
allocators, and numbered places for the columns of each type; seen with the
columns of one type it is a session, in which commands for that type are run.

* `session_put`, `places_put_of_ne`: a session put back is seen again, and the columns of every
  other type are as they were.
* `put_session`: putting back a session as it was changes nothing.
* `Workspace.runAll` runs a history of commands, and `Workspace.charged` is what an allocator ought
  to account for.
-/

namespace PackedColumn

/-- Allocators, and columns of every type in numbered places. -/
@[ext] structure Workspace where
  allocators : Array Allocator
  places : (t : ColumnType) → Array (Option (Seat t))

namespace Workspace

variable {t t' : ColumnType}

/-- A workspace with the given allocators and as many empty places of each type as asked for. -/
def start (allocators : List Allocator) (places : Nat) : Workspace where
  allocators := allocators.toArray
  places t := (Session.start allocators places : Session t).places

/-- The workspace seen with the columns of one type. -/
def session (w : Workspace) (t : ColumnType) : Session t where
  allocators := w.allocators
  places := w.places t

/-- The workspace with a session put back for what is seen of one type. -/
def put (w : Workspace) (s : Session t) : Workspace where
  allocators := s.allocators
  places t' := if h : t = t' then h ▸ s.places else w.places t'

/-- Carries out a command for columns of one type. -/
def run (t : ColumnType) (c : Command) : Call ColumnError Workspace Unit := fun w =>
  (Session.run c (w.session t)).lift id w.put

/-- The workspace after a history of commands, each with the type of its columns, refused ones
included; there is none if a command breaks its contract. -/
def runAll (w : Workspace) : List (ColumnType × Command) → Option Workspace
  | [] => some w
  | (t, c) :: cs => do
    let w ← (run t c w).state?
    runAll w cs

/-- The memory held by the columns for which an allocator accounts. -/
def charged (w : Workspace) (home : Nat) : Nat :=
  Size.total (ColumnType.all.map fun t => (w.session t).charged home)

theorem session_start (allocators : List Allocator) (places : Nat) (t : ColumnType) :
    (start allocators places).session t = Session.start allocators places := rfl

@[simp] theorem session_put (w : Workspace) (s : Session t) : (w.put s).session t = s := by
  simp [session, put]

theorem places_put (w : Workspace) (s : Session t) : (w.put s).places t = s.places :=
  congrArg Session.places (session_put w s)

theorem places_put_of_ne (h : t ≠ t') (w : Workspace) (s : Session t) :
    (w.put s).places t' = w.places t' := dif_neg h

@[simp] theorem put_session (w : Workspace) (t : ColumnType) : w.put (w.session t) = w := by
  refine Workspace.ext rfl (funext fun t' => ?_)
  simp only [put, session]
  split
  · rename_i h
    subst h
    rfl
  · rfl

end Workspace

end PackedColumn
