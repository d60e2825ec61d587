import Assembler.Instruction.Basic

/-! How often each opcode family occurs, sorted by the family's name. -/

namespace Assembler

/-- Names with their counts, by increasing name. -/
abbrev Tally := List (String × Nat)

namespace Tally

def add (name : String) : Tally → Tally
  | [] => [(name, 1)]
  | (other, n) :: rest =>
    if name = other then (other, n + 1) :: rest
    else if name < other then (name, 1) :: (other, n) :: rest
    else (other, n) :: add name rest

def ofCode (code : List Instruction) : Tally :=
  code.foldl (fun tally i => tally.add i.opcode.family) []

end Tally

end Assembler
