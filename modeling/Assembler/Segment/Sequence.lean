import Assembler.Instruction.SlotList
import Assembler.Segment.Directive
import Assembler.Segment.SelfSized
import Assembler.Storage.Registers

/-! The code sequences behind directives: memory, jumps, calls and modular arithmetic. -/

namespace Assembler

namespace Emission

def dup (n : Nat) : Emission Unit :=
  if h : 1 ≤ n ∧ n ≤ 16 then opcode (.dup ⟨n - 1, by omega⟩) else fail (.stackDepth "DUP" n)

def swap (n : Nat) : Emission Unit :=
  if h : 1 ≤ n ∧ n ≤ 16 then opcode (.swap ⟨n - 1, by omega⟩) else fail (.stackDepth "SWAP" n)

def address : Option Operand → Emission Unit
  | none => return ()
  | some operand => push operand.address

def load (source : Option Operand) : Emission Unit := do
  address source
  opcode .mload

def singleValue (name : String) : Option ValueTree → Emission (Option Word)
  | none => return none
  | some (.leaf value) => return some value
  | some (.node _) => fail (.wrongShape name [])

def storeAll : List (Cell × Word) → Emission Unit
  | [] => return ()
  | (cell, value) :: rest => do
    push value
    pushNat cell.addr
    opcode .mstore
    storeAll rest

def store : Option Operand → Option ValueTree → Emission Unit
  | some (.place (.grid g)), none => fail (.wrongShape g.name g.shape)
  | some (.place (.grid g)), some values => do
    storeAll (← ofExcept (g.zip values))
  | some (.place (.cell c)), value => do
    operands [← singleValue c.name value]
    pushNat c.addr
    opcode .mstore
  | some (.value addr), value => do
    operands [some addr, ← singleValue addr.hex value]
    opcode .mstore
  | none, value => do
    operands [none, ← singleValue "stack" value]
    opcode .mstore

/-- The operands of a copy of input data. A place supplies its address and, unless a size is given,
its footprint; the offset in the input must then be given. -/
def copyOperands : Option Operand → Option Word → Option Word → Emission Unit
  | some (.place _), none, _ => fail (.operandOrder 1)
  | some (.place view), some offset, size => do
    push (size.getD (.ofNat view.footprint))
    push offset
    pushNat view.addr
  | some (.value addr), offset, size => operands [some addr, offset, size]
  | none, offset, size => operands [none, offset, size]

def copyInput (dest : Option Operand) (offset size : Option Word) : Emission Unit := do
  copyOperands dest offset size
  opcode .callDataCopy

def regionOperands : Option Operand → Option Word → Emission Unit
  | some (.place view), size => do
    push (size.getD (.ofNat view.footprint))
    pushNat view.addr
  | some (.value addr), size => operands [some addr, size]
  | none, size => operands [none, size]

def finish (source : Option Operand) (size : Option Word) : Emission Unit := do
  regionOperands source size
  opcode .returnData

/-- Pushes a jump target, if it is there. A place holds the target, so it is loaded. -/
def target : Option Operand → Emission Unit
  | none => return ()
  | some (.value w) => push w
  | some (.place view) => load (some (.place view))

def jump (dest : Option Operand) : Emission Unit := do
  target dest
  opcode .jump

/-- The operands of a conditional jump. The condition may only be given with the target. -/
def branchOperands : Option Operand → Option Word → Emission Unit
  | some dest, condition => do
    operands [condition]
    target (some dest)
  | none, some _ => fail (.operandOrder 0)
  | none, none => return ()

def jumpIf (dest : Option Operand) (condition : Option Word) : Emission Unit := do
  branchOperands dest condition
  opcode .jumpIf

def pushSize (value : Word) : Nat := 1 + value.size

def jumpSize : Operand → Nat
  | .value w => pushSize w + 1
  | .place view => pushSize (.ofNat view.addr) + 1 + 1

/-- The address right behind the jump of a call that is emitted at `position`: the push of that
address comes first, then the push of the return slot, the store and the jump. -/
def returnAddress (position : Nat) (returnSlot : Cell) (dest : Operand) : SelfSized :=
  .solve (position + 1 + pushSize (.ofNat returnSlot.addr) + 1 + jumpSize dest)

/-- A call emitted at an absolute position. The return address goes to the slot, and a landing
point stands where the callee comes back. One slot serves all calls, so calls must not nest. -/
def call (position : Nat) (returnSlot : Cell) (dest : Operand) : Emission Nat := do
  let back := returnAddress position returnSlot dest
  push back.word
  pushNat returnSlot.addr
  opcode .mstore
  jump (some dest)
  opcode .jumpDest
  return back.value

def setModulus (registers : Registers) (modulus : Cell) : Emission Unit := do
  pushNat registers.limbs
  pushNat modulus.addr
  opcode .setModX

def modular (registers : Registers) (op : ModularOp) (dest x y : Cell) : Emission Unit := do
  let a ← ofExcept (registers.slot dest)
  let b ← ofExcept (registers.slot x)
  let c ← ofExcept (registers.slot y)
  instruction ⟨← ofExcept (Opcode.find op.mnemonic), slotImmediate [a, b, c]⟩

end Emission

end Assembler
