import Assembler.Instruction.Basic

/-! Disassembly listings: one line for each instruction, with its offset in hexadecimal and a
marker on the points where jumps may land. -/

namespace Assembler.Listing

def marker (i : Instruction) : String :=
  if i.opcode = .jumpDest then "►" else " "

def line (offset : Nat) (i : Instruction) : String :=
  Hex.ofNat 4 offset ++ " " ++ marker i ++ " " ++ i.text

def lines (offset : Nat) : List Instruction → List String
  | [] => []
  | i :: rest => line offset i :: lines (offset + i.size) rest

def render (code : List Instruction) (base : Nat) : String :=
  String.join ((lines base code).map (· ++ "\n"))

end Assembler.Listing
