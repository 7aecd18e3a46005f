import PackedColumn.Column.Write

/-!
# Edits

Every change that one column can make on its own, as a value, so that
histories of a column are lists. Edits other than `overwrite` grow the
buffers where they must and can be refused; `overwrite` breaks its contract
instead.

* `runAll_nil`, `runAll_cons`: a history is run step by step, refused steps included.
-/

namespace PackedColumn

/-- A change of one column. -/
inductive Edit where
  /-- Writes a slot within the memory held. -/
  | overwrite (i : Nat) (x : Option Blob)
  /-- Writes a slot. -/
  | set (i : Nat) (x : Option Blob)
  /-- Writes a text to a slot. -/
  | setText (i : Nat) (text : String)
  /-- Writes a slot behind the last one. -/
  | push (x : Option Blob)
  /-- Writes a text or a null behind the last slot. -/
  | pushText (text : Option String)
  /-- Writes slots behind the last one, up to the first that is refused. -/
  | pushAll (xs : List (Option Blob))
  /-- Has exactly `n` slots. -/
  | setCount (n : Nat)
  /-- Makes the unwritten slots below `n` null. -/
  | padTo (n : Nat)
  /-- Takes a slot for the highest one written. -/
  | setLast (last : Option Nat)
  /-- Sizes the first allocation for `slots` slots. -/
  | expectSlots (slots : Nat)
  /-- Sizes the first allocation for `slots` slots of `density` bytes. -/
  | expectDensity (slots : Nat) (density : Float)
  /-- Allocates anew with the initial sizes. -/
  | renew
  /-- Allocates anew with the given sizes. -/
  | renewWith (bytes slots : Nat)
  /-- Makes room. -/
  | reserve (slots bytes : Nat)
  /-- Makes every buffer zero and forgets every slot. -/
  | reset
  /-- Gives all buffers back and forgets every slot. -/
  | clear

namespace Edit

variable {t : ColumnType}

/-- Carries the edit out. -/
def run : Edit → Op t Unit
  | overwrite i x => .change fun c => c.put? i (x.map Blob.toList)
  | set i x => Column.set i x
  | setText i text => Column.setText i text
  | push x => Column.push x
  | pushText text => Column.pushText text
  | pushAll xs => Column.pushAll xs
  | setCount n => Column.setCount n
  | padTo n => Column.padTo n
  | setLast last => Column.setLast last
  | expectSlots slots => .modify (Column.expectSlots slots)
  | expectDensity slots density => .modify (Column.expectDensity slots density)
  | renew => Column.renew
  | renewWith bytes slots => Column.renewWith bytes slots
  | reserve slots bytes => Column.reserve slots bytes
  | reset => .modify Column.reset
  | clear => Call.modify Owned.clear

/-- The column and allocator after a history of edits, refused ones included; there is none if an
edit breaks its contract. -/
def runAll (s : Owned t) : List Edit → Option (Owned t)
  | [] => some s
  | e :: es => do
    let s ← (e.run s).state?
    runAll s es

theorem runAll_nil (s : Owned t) : runAll s [] = some s := rfl

theorem runAll_cons (s : Owned t) (e : Edit) (es : List Edit) :
    runAll s (e :: es) = (e.run s).state?.bind (runAll · es) := rfl

end Edit

end PackedColumn
