import Assembler.Segment.Sequence

/-! Segments: named runs of instructions that stand together in the program. -/

namespace Assembler

structure Segment where
  name : String
  code : List Instruction
  /-- The absolute position of the first byte, once the segment is placed. -/
  offset : Option Nat
  registers : Registers
  deriving DecidableEq, Repr

def Emission.silent (e : Emission Unit) : Emission (Option Nat) := e.map fun _ => none

namespace Segment

def empty (name : String) (registers : Registers) : Segment := ⟨name, [], none, registers⟩

def size (s : Segment) : Nat := codeSize s.code

def place (s : Segment) (offset : Nat) : Segment := { s with offset := some offset }

/-- What a directive emits at the end of the segment. Only a call has a result, its return
address; it needs the segment placed, because that address is absolute. -/
def emission (s : Segment) : Directive → Emission (Option Nat)
  | .mnemonic name => .silent (.mnemonic name)
  | .instruction i => .silent (.instruction i)
  | .push value => .silent (.push value)
  | .operands values => .silent (.operands values)
  | .pop => .silent (.opcode .pop)
  | .stop => .silent (.opcode .stop)
  | .jumpDest => .silent (.opcode .jumpDest)
  | .dup n => .silent (.dup n)
  | .swap n => .silent (.swap n)
  | .unary op x => do
    .operands [x]
    .silent (.mnemonic op.mnemonic)
  | .binary op x y => do
    .operands [x, y]
    .silent (.mnemonic op.mnemonic)
  | .ternary op x y n => do
    .operands [x, y, n]
    .silent (.mnemonic op.mnemonic)
  | .load source => .silent (.load source)
  | .store dest value => .silent (.store dest value)
  | .copyInput dest offset size => .silent (.copyInput dest offset size)
  | .finish source size => .silent (.finish source size)
  | .jump dest => .silent (.jump dest)
  | .jumpIf dest condition => .silent (.jumpIf dest condition)
  | .call returnSlot target =>
    match s.offset with
    | none => .fail (.unplacedSegment s.name)
    | some offset => (Emission.call (offset + s.size) returnSlot target).map some
  | .jumpBack returnSlot => .silent (.jump (some (.place (.cell returnSlot))))
  | .setModulus modulus => .silent (.setModulus s.registers modulus)
  | .modular op dest x y => .silent (.modular s.registers op dest x y)

/-- Carries out a directive. Instructions emitted before a fault stay. -/
def perform (s : Segment) (d : Directive) : Segment × Except Fault (Option Nat) :=
  let emitted := s.emission d
  ({ s with code := s.code ++ emitted.code }, emitted.outcome)

end Segment

end Assembler
