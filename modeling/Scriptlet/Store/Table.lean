/-!
# Counted tables

A table keeps items for as long as something refers to them. An item's number
is its place, and the place of an item that is gone is never used again, so a
number means one item only.
-/

set_option autoImplicit false

namespace Scriptlet

structure Counted (α : Type) where
  refs : Nat
  item : α

structure Table (α : Type) where
  cells : Array (Option (Counted α))

namespace Table

variable {α : Type}

def empty : Table α := ⟨#[]⟩

/-- How many items there have ever been; the number of the next one. -/
def size (t : Table α) : Nat := t.cells.size

def cell? (t : Table α) (id : Nat) : Option (Counted α) := t.cells[id]?.join

def get? (t : Table α) (id : Nat) : Option α := (t.cell? id).map Counted.item

/-- How often an item is referred to; never, once it is gone. -/
def refs (t : Table α) (id : Nat) : Nat := ((t.cell? id).map Counted.refs).getD 0

/-- A new item, referred to once, at place `t.size`. -/
def add (t : Table α) (item : α) : Table α := ⟨t.cells.push (some ⟨1, item⟩)⟩

def modify (t : Table α) (id : Nat) (f : α → α) : Table α :=
  ⟨t.cells.modify id (Option.map fun c => ⟨c.refs, f c.item⟩)⟩

/-- One more reference. -/
def retain (t : Table α) (id : Nat) : Table α :=
  ⟨t.cells.modify id (Option.map fun c => ⟨c.refs + 1, c.item⟩)⟩

/-- One reference less. The item comes back if it was the last. -/
def release (t : Table α) (id : Nat) : Option α × Table α :=
  match t.cell? id with
  | none => (none, t)
  | some c =>
    if c.refs ≤ 1 then (some c.item, ⟨t.cells.setIfInBounds id none⟩)
    else (none, ⟨t.cells.setIfInBounds id (some ⟨c.refs - 1, c.item⟩)⟩)

end Table

end Scriptlet
