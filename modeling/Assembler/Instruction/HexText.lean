import Assembler.Instruction.Bytecode

/-! Bytes and bytecode as hexadecimal text without separators, two digits for each byte. -/

namespace Assembler.HexText

def ofBytes (bytes : List UInt8) : String := Hex.ofBytes bytes

def readPairs (position : Nat) : List UInt8 → Except Fault (List UInt8)
  | high :: low :: rest =>
    match Hex.digit? high, Hex.digit? low with
    | some h, some l => (readPairs (position + 1) rest).map (Hex.byteOfDigits h l :: ·)
    | _, _ => .error (.badHex (.badPair high low position))
  | _ => .ok []

def toBytes (text : String) : Except Fault (List UInt8) :=
  let raw := Utf8.encode text
  if raw.length % 2 = 0 then readPairs 0 raw
  else .error (.badHex (.oddLength raw.length))

def encode (code : List Instruction) : Except Fault String :=
  (Bytecode.encode code).map ofBytes

def decode (text : String) : Except Fault (List Instruction) := do
  Bytecode.decode (← toBytes text)

end Assembler.HexText
