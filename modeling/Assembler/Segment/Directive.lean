import Assembler.Segment.Emission
import Assembler.Storage.ValueTree

/-! Directives: what a segment can be asked to emit. Operands that are left out are expected on the
stack. -/

namespace Assembler

inductive Operand where
  | value (w : Word)
  /-- Stands for its address, and as a jump target for the word stored there. -/
  | place (view : View)

def Operand.address : Operand → Word
  | .value w => w
  | .place view => .ofNat view.addr

inductive UnaryOp where
  | isZero | not
  deriving DecidableEq, Repr

inductive BinaryOp where
  | add | mul | sub | div | sdiv | mod | smod | exp | signExtend
  | lt | gt | slt | sgt | eq | and | or | xor | byte | shl | shr | sar
  deriving DecidableEq, Repr

inductive TernaryOp where
  | addMod | mulMod
  deriving DecidableEq, Repr

inductive ModularOp where
  | add | sub | mulMont
  deriving DecidableEq, Repr

def UnaryOp.mnemonic : UnaryOp → String
  | .isZero => "ISZERO"
  | .not => "NOT"

def BinaryOp.mnemonic : BinaryOp → String
  | .add => "ADD"
  | .mul => "MUL"
  | .sub => "SUB"
  | .div => "DIV"
  | .sdiv => "SDIV"
  | .mod => "MOD"
  | .smod => "SMOD"
  | .exp => "EXP"
  | .signExtend => "SIGNEXTEND"
  | .lt => "LT"
  | .gt => "GT"
  | .slt => "SLT"
  | .sgt => "SGT"
  | .eq => "EQ"
  | .and => "AND"
  | .or => "OR"
  | .xor => "XOR"
  | .byte => "BYTE"
  | .shl => "SHL"
  | .shr => "SHR"
  | .sar => "SAR"

def TernaryOp.mnemonic : TernaryOp → String
  | .addMod => "ADDMOD"
  | .mulMod => "MULMOD"

def ModularOp.mnemonic : ModularOp → String
  | .add => "ADDMODX"
  | .sub => "SUBMODX"
  | .mulMont => "MULMONTX"

inductive Directive where
  /-- An opcode by its mnemonic, in any case. -/
  | mnemonic (name : String)
  | instruction (i : Instruction)
  | push (value : Word)
  | operands (values : List (Option Word))
  | pop
  | stop
  | jumpDest
  | dup (n : Nat)
  | swap (n : Nat)
  | unary (op : UnaryOp) (x : Option Word)
  | binary (op : BinaryOp) (x y : Option Word)
  | ternary (op : TernaryOp) (x y n : Option Word)
  | load (source : Option Operand)
  | store (dest : Option Operand) (value : Option ValueTree)
  | copyInput (dest : Option Operand) (offset size : Option Word)
  | finish (source : Option Operand) (size : Option Word)
  | jump (dest : Option Operand)
  | jumpIf (dest : Option Operand) (condition : Option Word)
  | call (returnSlot : Cell) (target : Operand)
  | jumpBack (returnSlot : Cell)
  | setModulus (modulus : Cell)
  | modular (op : ModularOp) (dest x y : Cell)

end Assembler
