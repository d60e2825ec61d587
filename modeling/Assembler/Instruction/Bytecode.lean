import Assembler.Instruction.Basic

/-! The binary form: a byte code followed by exactly as many immediate bytes as the opcode carries,
the most significant first. Nothing stands around or between the instructions. -/

namespace Assembler

def Instruction.encode (i : Instruction) : Except Fault (List UInt8) :=
  if i.Fits then .ok (i.opcode.code :: i.immediate.padded i.opcode.width)
  else .error (.immediateTooWide i.opcode.name i.opcode.width i.immediate.size)

namespace Bytecode

def encode : List Instruction → Except Fault (List UInt8)
  | [] => .ok []
  | i :: rest => do
    let bytes ← i.encode
    let more ← encode rest
    return bytes ++ more

/-- Appends one instruction to a buffer. The buffer comes back with the outcome, since a failing
instruction leaves it as it was. -/
def write (buffer : List UInt8) (i : Instruction) : List UInt8 × Except Fault Unit :=
  match i.encode with
  | .ok bytes => (buffer ++ bytes, .ok ())
  | .error fault => (buffer, .error fault)

def decodeFrom (offset : Nat) : List UInt8 → Except Fault (List Instruction)
  | [] => .ok []
  | code :: rest =>
    match Opcode.ofCode? code with
    | none => .error (.unknownCode code)
    | some op =>
      if rest.length < op.width then .error (.truncated (offset + 1) op.width rest.length)
      else
        (decodeFrom (offset + op.size) (rest.drop op.width)).map
          (⟨op, .ofBytes (rest.take op.width)⟩ :: ·)
termination_by bytes => bytes.length
decreasing_by simp only [List.length_drop, List.length_cons]; omega

def decode (bytes : List UInt8) : Except Fault (List Instruction) :=
  decodeFrom 0 bytes

end Bytecode

end Assembler
