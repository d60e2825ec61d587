import Assembler.Storage.View

/-! The register file: wide integers side by side in memory, addressed by slot number. -/

namespace Assembler

structure Registers where
  base : Nat
  limbs : Nat
  deriving DecidableEq, Repr

namespace Registers

def width (r : Registers) : Nat := 8 * r.limbs

/-- The slot of a cell, which has to stand on a register boundary at or above the base. -/
def slot (r : Registers) (c : Cell) : Except Fault Nat :=
  if c.addr < r.base then .error (.unalignedSlot c.name c.addr)
  else if r.width = 0 then .error .zeroWidthRegisters
  else if (c.addr - r.base) % r.width = 0 then .ok ((c.addr - r.base) / r.width)
  else .error (.unalignedSlot c.name c.addr)

end Registers

end Assembler
