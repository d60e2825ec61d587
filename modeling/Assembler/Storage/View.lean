import Assembler.Storage.Index
import Assembler.Word

/-! Views of memory: single cells, and strided grids of elements. Indexing a grid gives a view of
the same memory; nothing is copied. -/

namespace Assembler

structure Cell where
  name : String
  addr : Nat
  size : Nat
  deriving DecidableEq, Repr

/-- A strided multi-dimensional array. Strides count elements of `size` bytes. -/
structure Grid where
  name : String
  addr : Nat
  size : Nat
  axes : List Axis
  deriving DecidableEq, Repr

inductive View where
  | cell (cell : Cell)
  | grid (grid : Grid)
  deriving DecidableEq, Repr

def Cell.footprint (c : Cell) : Nat := c.size

/-- The strides that lay a shape out without gaps, the last dimension fastest. -/
def contiguousStrides : List Nat → List Nat
  | [] => []
  | _ :: rest => rest.foldr (· * ·) 1 :: contiguousStrides rest

def multiIndices : List Nat → List (List Nat)
  | [] => [[]]
  | extent :: rest => (List.range extent).flatMap fun i => (multiIndices rest).map (i :: ·)

def dot : List Nat → List Nat → Nat
  | m :: ms, n :: ns => m * n + dot ms ns
  | _, _ => 0

/-- The bytes of elements of `size` bytes in a shape, unless the product leaves the address space on
the way from the first extent to the last. -/
def bytesFrom (size : Nat) (shape : List Nat) : Option Nat :=
  shape.foldlM
    (fun acc extent => if acc * extent < addressSpace then some (acc * extent) else none) size

def indexedName (name : String) (indices : List String) : String :=
  name ++ "[" ++ String.intercalate "," indices ++ "]"

namespace Grid

def contiguous (name : String) (addr size : Nat) (shape : List Nat) : Grid :=
  ⟨name, addr, size, List.zipWith Axis.mk shape (contiguousStrides shape)⟩

def strided (name : String) (addr size : Nat) (shape strides : List Nat) : Except Fault Grid :=
  if strides.length = shape.length then
    .ok ⟨name, addr, size, List.zipWith Axis.mk shape strides⟩
  else .error (.wrongStrideCount name shape.length strides.length)

def shape (g : Grid) : List Nat := g.axes.map Axis.extent

def strides (g : Grid) : List Nat := g.axes.map Axis.stride

def rank (g : Grid) : Nat := g.axes.length

/-- The number of elements, at most the largest address. -/
def len (g : Grid) : Nat :=
  g.shape.foldl (fun acc extent => min (acc * extent) (addressSpace - 1)) 1

def isEmpty (g : Grid) : Bool := g.len == 0

def footprint? (g : Grid) : Option Nat := bytesFrom g.size g.shape

def footprint (g : Grid) : Nat := g.footprint?.getD (addressSpace - 1)

/-- Selects with at most one index for each dimension. An integer for every dimension gives a
cell. -/
def select (g : Grid) (indices : List Index) : Except Fault View :=
  if g.rank < indices.length then .error (.excessIndices g.name indices.length g.rank)
  else do
    let (skipped, axes) ← selectAxes g.name 0 g.axes indices
    let name := indexedName g.name (indices.map Index.text)
    let addr := g.addr + skipped * g.size
    return if axes.isEmpty then .cell ⟨name, addr, g.size⟩ else .grid ⟨name, addr, g.size, axes⟩

def offset (g : Grid) (position : List Nat) : Nat := dot position g.strides

def element (g : Grid) (position : List Nat) : Cell :=
  ⟨indexedName g.name (position.map toString), g.addr + g.offset position * g.size, g.size⟩

def elements (g : Grid) : List Cell :=
  if g.isEmpty then [] else (multiIndices g.shape).map g.element

end Grid

namespace View

def name : View → String
  | .cell c => c.name
  | .grid g => g.name

def addr : View → Nat
  | .cell c => c.addr
  | .grid g => g.addr

def footprint : View → Nat
  | .cell c => c.footprint
  | .grid g => g.footprint

def footprint? : View → Option Nat
  | .cell c => some c.footprint
  | .grid g => g.footprint?

def toCell : View → Except Fault Cell
  | .cell c => .ok c
  | .grid g => .error (.wrongShape g.name g.shape)

def toGrid : View → Except Fault Grid
  | .grid g => .ok g
  | .cell c => .error (.wrongShape c.name [])

def select (v : View) (indices : List Index) : Except Fault View := do
  (← v.toGrid).select indices

def follow (v : View) (path : List (List Index)) : Except Fault View :=
  path.foldlM select v

end View

namespace Grid

def cellAt (g : Grid) (position : List Nat) : Except Fault Cell := do
  (← g.select (position.map .item)).toCell

def get (g : Grid) (i : Nat) : Except Fault View := g.select [.item i]

def slice (g : Grid) (index : Index) : Except Fault Grid := do
  (← g.select [index]).toGrid

end Grid

end Assembler
