import Assembler.Opcode
import Assembler.Word

/-! Instructions: an opcode with its immediate value. Whether the immediate fits the opcode is
checked when the instruction is encoded, not when it is built. -/

namespace Assembler

structure Instruction where
  opcode : Opcode
  immediate : Word
  deriving DecidableEq, Repr

def maxPushBytes : Nat := 32

namespace Opcode

def find (name : String) : Except Fault Opcode :=
  match ofName? name with
  | some op => .ok op
  | none => .error (.unknownMnemonic name)

def findCode (code : UInt8) : Except Fault Opcode :=
  match ofCode? code with
  | some op => .ok op
  | none => .error (.unknownCode code)

def pushOfWidth (width : Nat) : Except Fault Opcode :=
  if h : width < 33 then .ok (.push ⟨width, h⟩) else .error (.valueTooWide width maxPushBytes)

end Opcode

namespace Instruction

def plain (opcode : Opcode) : Instruction := ⟨opcode, .zero⟩

def ofName (name : String) : Except Fault Instruction :=
  (Opcode.find name).map plain

def push (value : Word) : Except Fault Instruction :=
  (Opcode.pushOfWidth value.size).map fun op => ⟨op, value⟩

def size (i : Instruction) : Nat := i.opcode.size

def Fits (i : Instruction) : Prop := i.immediate.size ≤ i.opcode.width

instance (i : Instruction) : Decidable i.Fits :=
  inferInstanceAs (Decidable (_ ≤ _))

def text (i : Instruction) : String :=
  if i.opcode.width = 0 then i.opcode.name
  else i.opcode.name ++ " 0x" ++ i.immediate.paddedHex i.opcode.width

end Instruction

def codeSize : List Instruction → Nat
  | [] => 0
  | i :: rest => i.size + codeSize rest

def stackChange : List Instruction → Int
  | [] => 0
  | i :: rest => i.opcode.stackChange + stackChange rest

def codeCost : List Instruction → Nat
  | [] => 0
  | i :: rest => i.opcode.cost + codeCost rest

theorem codeSize_append (code more : List Instruction) :
    codeSize (code ++ more) = codeSize code + codeSize more := by
  induction code with
  | nil => simp [codeSize]
  | cons i rest ih => simp [codeSize, ih, Nat.add_assoc]

theorem stackChange_append (code more : List Instruction) :
    stackChange (code ++ more) = stackChange code + stackChange more := by
  induction code with
  | nil => simp [stackChange]
  | cons i rest ih => simp [stackChange, ih, Int.add_assoc]

end Assembler
