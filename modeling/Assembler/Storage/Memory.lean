import Assembler.Settings.Basic

/-! Memory allocation. The machine never frees memory, so the allocation pointer only moves forward
and a name, once bound, stays bound. -/

namespace Assembler

/-- Names with positions; of two entries for one name the later one, in front, counts. -/
abbrev NameIndex := List (String × Nat)

structure Memory where
  base : Nat
  /-- The first address not yet handed out. -/
  next : Nat
  /-- The element size of allocations that name none. -/
  elementSize : Nat
  registers : Registers
  views : List View
  /-- Where the allocation of a name stands among the views. -/
  index : NameIndex
  deriving DecidableEq, Repr

namespace Memory

def ofSettings (s : Settings) : Memory :=
  ⟨s.memoryBase, s.memoryBase, s.elementSize, s.registers, [], []⟩

def find? (m : Memory) (name : String) : Option View :=
  (m.index.lookup name).bind (m.views[·]?)

def contains (m : Memory) (name : String) : Bool := (m.index.lookup name).isSome

def used (m : Memory) : Nat := m.next - m.base

def slot (m : Memory) (c : Cell) : Except Fault Nat := m.registers.slot c

def fresh (m : Memory) (name : String) (size : Nat) (shape : List Nat) : View :=
  if shape.isEmpty then .cell ⟨name, m.next, size⟩
  else .grid (.contiguous name m.next size shape)

def grow (m : Memory) (name : String) (view : View) (bytes : Nat) : Memory :=
  { m with
    next := m.next + bytes
    views := m.views ++ [view]
    index := (name, m.views.length) :: m.index }

def alloc (m : Memory) (name : String) (size : Nat) (shape : List Nat) :
    Except Fault (View × Memory) :=
  if m.contains name then .error (.alreadyAllocated name)
  else
    let view := m.fresh name size shape
    match view.footprint? with
    | none => .error (.addressOverflow name)
    | some bytes =>
      if m.next + bytes < addressSpace then
        .ok (view, m.grow name view bytes)
      else .error (.addressOverflow name)

def allocCell (m : Memory) (name : String) : Except Fault (Cell × Memory) := do
  let (view, after) ← m.alloc name m.elementSize []
  return (← view.toCell, after)

/-- Allocates a grid. For the empty shape a cell is recorded, and comes back as a grid of one
element. -/
def allocGrid (m : Memory) (name : String) (shape : List Nat) : Except Fault (Grid × Memory) := do
  let (view, after) ← m.alloc name m.elementSize shape
  match view with
  | .grid g => return (g, after)
  | .cell c => return (.contiguous c.name c.addr c.size [1], after)

end Memory

end Assembler
