/-! Hexadecimal digits: bytes as pairs of lowercase digits, and natural numbers. -/

namespace Assembler.Hex

def digit? (byte : UInt8) : Option (Fin 16) :=
  let n := byte.toNat
  if h : 48 ≤ n ∧ n ≤ 57 then some ⟨n - 48, by omega⟩
  else if h : 97 ≤ n ∧ n ≤ 102 then some ⟨n - 87, by omega⟩
  else if h : 65 ≤ n ∧ n ≤ 70 then some ⟨n - 55, by omega⟩
  else none

def charValue? (c : Char) : Option Nat :=
  if c.toNat < 128 then (digit? (UInt8.ofNat c.toNat)).map Fin.val else none

def byteOfDigits (high low : Fin 16) : UInt8 :=
  UInt8.ofNat (16 * high.val + low.val)

def pairs : List (Fin 16) → List UInt8
  | high :: low :: rest => byteOfDigits high low :: pairs rest
  | _ => []

/-- Bytes of a digit sequence of any length: an odd one counts as if a zero stood in front. -/
def pack (digits : List (Fin 16)) : List UInt8 :=
  if digits.length % 2 = 0 then pairs digits else pairs (0 :: digits)

def charsOfByte (byte : UInt8) : List Char :=
  [Nat.digitChar (byte.toNat / 16), Nat.digitChar (byte.toNat % 16)]

def chars (bytes : List UInt8) : List Char :=
  bytes.flatMap charsOfByte

def ofBytes (bytes : List UInt8) : String :=
  String.ofList (chars bytes)

def ofNat (width n : Nat) : String :=
  String.ofList ((Nat.toDigits 16 n).leftpad width '0')

end Assembler.Hex
