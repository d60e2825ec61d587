import Assembler.Text.Quoted
import Assembler.Text.Utf8

/-! Why building, encoding or decoding a program can fail. A fault ends the operation that raised
it; instructions emitted before it stay. -/

namespace Assembler

inductive HexFault where
  | emptyLiteral (text : String)
  | badDigit (digit : UInt8) (text : String)
  | oddLength (bytes : Nat)
  /-- The first pair of bytes that are not both digits, by its number. -/
  | badPair (high low : UInt8) (position : Nat)
  deriving DecidableEq, Repr

def HexFault.message : HexFault → String
  | .emptyLiteral text => "empty literal " ++ Text.quoted text
  | .badDigit digit text =>
    "invalid digit " ++ Text.quotedChar (Char.ofNat digit.toNat) ++ " in " ++ Text.quoted text
  | .oddLength bytes => "odd number of digits (" ++ toString bytes ++ ")"
  | .badPair high low position =>
    "invalid digit pair " ++ Text.quoted (Utf8.decodeLossy [high, low]) ++
      " at byte " ++ toString position

inductive Fault where
  | unknownCode (code : UInt8)
  | unknownMnemonic (name : String)
  /-- The input ends inside an immediate that begins at `offset`. -/
  | truncated (offset needed available : Nat)
  | immediateTooWide (opcode : String) (width len : Nat)
  | valueTooWide (len max : Nat)
  | alreadyAllocated (name : String)
  | outOfBounds (name : String) (dim index extent : Nat)
  | excessIndices (name : String) (given rank : Nat)
  | invalidStep (name : String) (dim : Nat) (step : Int)
  | wrongStrideCount (name : String) (rank strides : Nat)
  | addressOverflow (name : String)
  /-- The operand at `position` is omitted, and one to its right is supplied. -/
  | operandOrder (position : Nat)
  | wrongShape (name : String) (expected : List Nat)
  | stackDepth (family : String) (index : Nat)
  | badHex (fault : HexFault)
  | unalignedSlot (name : String) (addr : Nat)
  | zeroWidthRegisters
  | unplacedSegment (name : String)
  | segmentExists (name : String)
  | noSuchSegment (name : String)
  deriving DecidableEq, Repr

def shapeText (shape : List Nat) : String :=
  "[" ++ String.intercalate ", " (shape.map toString) ++ "]"

def Fault.message : Fault → String
  | .unknownCode code => "unknown opcode 0x" ++ Hex.ofNat 2 code.toNat
  | .unknownMnemonic name => "unknown opcode " ++ name
  | .truncated offset needed available =>
    "truncated input at byte " ++ toString offset ++ ": immediate needs " ++ toString needed ++
      " bytes, " ++ toString available ++ " available"
  | .immediateTooWide opcode width len =>
    "immediate of " ++ opcode ++ " is " ++ toString len ++ " bytes, opcode carries " ++
      toString width
  | .valueTooWide len max =>
    "push value too big: " ++ toString len ++ " bytes, max is " ++ toString max
  | .alreadyAllocated name => "variable " ++ name ++ " is already allocated"
  | .outOfBounds name dim index extent =>
    "index out of bounds for " ++ name ++ " dim " ++ toString dim ++ ": passed " ++
      toString index ++ " for size " ++ toString extent
  | .excessIndices name given rank =>
    "too many indices for array " ++ name ++ ": passed " ++ toString given ++
      ", expected at most " ++ toString rank
  | .invalidStep name dim step =>
    "invalid slice step " ++ toString step ++ " for " ++ name ++ " dim " ++ toString dim
  | .wrongStrideCount name rank strides =>
    "array " ++ name ++ " has " ++ toString rank ++ " dims but " ++ toString strides ++ " strides"
  | .addressOverflow name => "allocating " ++ name ++ " overflows the address space"
  | .operandOrder position =>
    "unordered operands: argument " ++ toString position ++
      " is omitted but a later one is supplied"
  | .wrongShape name expected =>
    "wrong value shape for array " ++ name ++ ": expected " ++ shapeText expected
  | .stackDepth family index =>
    family ++ " index out of bounds: must be 1..16, passed " ++ toString index
  | .badHex fault => "invalid hex: " ++ fault.message
  | .unalignedSlot name addr =>
    "variable " ++ name ++ " at 0x" ++ Hex.ofNat 1 addr ++ " is not aligned to a register slot"
  | .zeroWidthRegisters => "registers have no width"
  | .unplacedSegment name => "segment " ++ name ++ " has no resolved offset"
  | .segmentExists name => "segment " ++ name ++ " already exists"
  | .noSuchSegment name => "no segment named " ++ name

end Assembler
