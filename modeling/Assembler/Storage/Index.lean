import Assembler.Fault

/-! Indices into one dimension of a grid: a single position, or a slice whose bounds may be left
out or count from the end. -/

namespace Assembler

/-- Addresses and sizes have 64 bits: they are below this number. -/
def addressSpace : Nat := 0x10000000000000000

/-- The signed 64-bit integer with the bits of an unsigned one. -/
def signed64 (n : Nat) : Int64 := Int64.ofNat n

/-- One dimension: how many positions it has, and how many elements apart they lie. -/
structure Axis where
  extent : Nat
  stride : Nat
  deriving DecidableEq, Repr

inductive Index where
  | item (i : Nat)
  | span (start stop step : Option Int64)
  deriving DecidableEq, Repr

namespace Index

def all : Index := .span none none none

/-- Slices from unsigned bounds. A bound keeps its bits, so one of 2^63 or more counts from the
end. -/
def range (start stop : Nat) : Index := .span (some (signed64 start)) (some (signed64 stop)) none
def rangeFrom (start : Nat) : Index := .span (some (signed64 start)) none none
def rangeTo (stop : Nat) : Index := .span none (some (signed64 stop)) none

def boundText (bound : Option Int64) : String := (bound.map toString).getD ""

def text : Index → String
  | .item i => toString i
  | .span start stop none => boundText start ++ ":" ++ boundText stop
  | .span start stop step => boundText start ++ ":" ++ boundText stop ++ ":" ++ boundText step

/-- Where a slice bound falls in `0 .. extent`. The sum with a negative bound has 64 bits and wraps
around. -/
def clamp (bound : Option Int64) (missing extent : Nat) : Nat :=
  match bound with
  | none => missing
  | some b =>
    if b < 0 then (signed64 extent + b).toNatClampNeg else min b.toNatClampNeg extent

def count (start stop step : Nat) : Nat := (stop - start + (step - 1)) / step

/-- What an index does to one axis: the elements it skips, and the axis that remains, if any.
`name` and `dim` say in faults which axis it was. -/
def apply (name : String) (dim : Nat) (axis : Axis) : Index → Except Fault (Nat × Option Axis)
  | .item i =>
    if i < axis.extent then .ok (i * axis.stride, none)
    else .error (.outOfBounds name dim i axis.extent)
  | .span start stop step =>
    let step := step.getD 1
    if step ≤ 0 then .error (.invalidStep name dim step.toInt)
    else
      let first := clamp start 0 axis.extent
      let last := clamp stop axis.extent axis.extent
      let step := step.toNatClampNeg
      .ok (first * axis.stride, some ⟨count first last step, axis.stride * step⟩)

end Index

/-- Applies indices to axes from dimension `dim` on; axes without an index stay whole. The lowest
dimension at fault decides the fault. -/
def selectAxes (name : String) (dim : Nat) :
    List Axis → List Index → Except Fault (Nat × List Axis)
  | [], _ => .ok (0, [])
  | axis :: axes, indices => do
    let (skipped, kept) ← (indices.headD .all).apply name dim axis
    let (more, rest) ← selectAxes name (dim + 1) axes indices.tail
    return (skipped + more, kept.toList ++ rest)

end Assembler
