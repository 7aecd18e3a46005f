import PackedColumn.Column.Exchange
import PackedColumn.Column.Handover
import PackedColumn.Edit

/-!
# Sessions

A session is a number of allocators and a number of places, each empty or
holding a column that one of the allocators accounts for. Columns are made,
changed, handed over between places, and dropped; a dropped column gives its
memory back.

* `Session.run` carries one command out.
* `Session.charged` is what the columns of a session add to what an allocator accounts for.
-/

namespace PackedColumn

/-- A column and the number of the allocator that accounts for it. -/
structure Seat (t : ColumnType) where
  home : Nat
  column : Column t
  deriving DecidableEq

/-- Allocators, and columns of one type in numbered places. -/
structure Session (t : ColumnType) where
  allocators : Array Allocator
  places : Array (Option (Seat t))
  deriving DecidableEq

/-- A change of a session. Allocators and places are given by their numbers. -/
inductive Command where
  /-- Puts a new column as a field describes it into a place. -/
  | create (place home : Nat) (field : Field) (settings : Settings)
  /-- Puts a new column with the slots of an array into a place. -/
  | createOfArrow (place home : Nat) (name : String) (a : ArrowArray)
  /-- Puts a new column with the given slots and an allocator of its own into a place. -/
  | createOfValues (place : Nat) (values : List (Option Blob))
  /-- Puts a new column to hand slots of a source over to into a place. -/
  | createCounterpart (source place home : Nat) (name : String)
  /-- Drops the column in a place. -/
  | drop (place : Nat)
  /-- Changes the column in a place. -/
  | edit (place : Nat) (e : Edit)
  /-- Moves all slots from one place to another. -/
  | transfer (source dest : Nat)
  /-- Copies a range of slots from one place to another, in place of the slots there. -/
  | copyRange (source dest start length : Nat)
  /-- Copies one slot to a slot of another place. -/
  | copySlot (source dest i j : Nat)
  /-- Copies one slot to a slot of another place within the memory held. -/
  | copySlotWithin (source dest i j : Nat)

namespace Session

variable {t : ColumnType}

/-- A session with the given allocators and as many empty places as asked for. -/
def start (allocators : List Allocator) (places : Nat) : Session t where
  allocators := allocators.toArray
  places := Array.replicate places none

/-- The column in a place, with its allocator. -/
def owned? (s : Session t) (place : Nat) : Option (Owned t) := do
  let seat ← (s.places[place]?).join
  let allocator ← s.allocators[seat.home]?
  return { allocator, column := seat.column }

/-- The column in a place. -/
def column? (s : Session t) (place : Nat) : Option (Column t) :=
  (s.places[place]?).join.map Seat.column

/-- The session with a column and its allocator put back. -/
def seat (s : Session t) (place home : Nat) (o : Owned t) : Session t where
  allocators := s.allocators.setIfInBounds home o.allocator
  places := s.places.setIfInBounds place (some { home, column := o.column })

/-- The session without the column in a place, which gives its memory back. -/
def vacate (s : Session t) (place : Nat) : Session t :=
  match (s.places[place]?).join with
  | none => s
  | some { home, column } =>
    { allocators := s.allocators.modify home fun a => (Owned.mk a column).clear.allocator
      places := s.places.setIfInBounds place none }

/-- Changes the column in a place; there must be one. -/
def alter (place : Nat) (op : Op t Unit) : Call ColumnError (Session t) Unit :=
  fun { allocators, places } =>
    match (places[place]?).join with
    | none => .breach
    | some { home, column } =>
      match allocators[home]? with
      | none => .breach
      | some allocator =>
        let rest : Session t := { allocators, places := places.setIfInBounds place none }
        (op { allocator, column }).lift id (rest.seat place home)

/-- Puts a new column into a place that there must be, for which one of the allocators accounts.
What the place held is dropped once the new column is made. -/
def create (place home : Nat) (make : Call ColumnError Allocator (Column t)) :
    Call ColumnError (Session t) Unit := fun s =>
  if s.places.size ≤ place then .breach else
  match s.allocators[home]? with
  | none => .breach
  | some allocator =>
    match make allocator with
    | .breach => .breach
    | .refused e a => .refused e { s with allocators := s.allocators.setIfInBounds home a }
    | .done column a =>
      let s := { s with allocators := s.allocators.setIfInBounds home a }.vacate place
      .done () { s with places := s.places.setIfInBounds place (some { home, column }) }

/-- Puts a new column with an allocator of its own into a place. -/
def createApart (place : Nat) (make : Call ColumnError Allocator (Column t)) :
    Call ColumnError (Session t) Unit := fun s =>
  create place s.allocators.size make { s with allocators := s.allocators.push .unlimited }

/-- Moves all slots from one place to another, which must not be the same. -/
def transfer (source dest : Nat) : Call ColumnError (Session t) Unit := fun s =>
  if source = dest then .breach else
  match (s.places[source]?).join, (s.places[dest]?).join with
  | some giver, some taker =>
    let homes :=
      if giver.home = taker.home then (s.allocators[giver.home]?).map Homes.shared
      else do return .separate (← s.allocators[giver.home]?) (← s.allocators[taker.home]?)
    match homes with
    | none => .breach
    | some homes =>
      (Pair.transfer { homes, source := giver.column, dest := taker.column }).lift id fun p =>
        (s.seat source giver.home ⟨p.homes.source, p.source⟩).seat dest taker.home
          ⟨p.homes.dest, p.dest⟩
  | _, _ => .breach

/-- Changes the column in one place by an operation that reads the one in another. -/
def alterFrom (source dest : Nat) (op : Column t → Op t Unit) :
    Call ColumnError (Session t) Unit := do
  let s ← .get
  let c ← .require (s.column? source)
  alter dest (op c)

/-- Carries a command out. -/
def run : Command → Call ColumnError (Session t) Unit
  | .create place home field settings => do
    let c ← .ofExcept (Column.ofField t field settings)
    create place home (pure c)
  | .createOfArrow place home name a => create place home (Column.ofArrow name a)
  | .createOfValues place values => createApart place (Column.ofValues values)
  | .createCounterpart source place home name => do
    let s ← .get
    let c ← .require (s.column? source)
    create place home (pure (c.counterpart name))
  | .drop place => .modify (vacate · place)
  | .edit place e => alter place e.run
  | .transfer source dest => transfer source dest
  | .copyRange source dest start length => alterFrom source dest (Column.copyRange · start length)
  | .copySlot source dest i j => alterFrom source dest (Column.copySlot · i j)
  | .copySlotWithin source dest i j => alterFrom source dest (Column.copySlotWithin · i j)

/-- The memory held by the columns for which an allocator accounts. -/
def charged (s : Session t) (home : Nat) : Nat :=
  Size.total (s.places.toList.filterMap fun place =>
    place.bind fun seat => if seat.home = home then some seat.column.footprint else none)

end Session

end PackedColumn
