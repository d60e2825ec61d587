/-! UTF-8: the bytes of a text, and the text that bytes stand for when some of them may be
malformed. A malformed stretch becomes one replacement character for each longest run of bytes
that begins a character without finishing it. -/

namespace Assembler.Utf8

def encode (text : String) : List UInt8 :=
  text.toList.flatMap String.utf8EncodeChar

def replacement : Char := Char.ofNat 0xFFFD

/-- A character whose first bytes have been read: the bits so far, how many bytes are still owed,
and the bounds of the next one. -/
structure Pending where
  bits : Nat
  owed : Nat
  low : UInt8
  high : UInt8
  deriving DecidableEq, Repr

inductive Step where
  | char (c : Char)
  | more (pending : Pending)
  deriving DecidableEq, Repr

/-- What the first byte of a character says. The bounds rule out overlong forms, surrogates and
code points past the last one. -/
def first (byte : UInt8) : Step :=
  let n := byte.toNat
  if n < 0x80 then .char (Char.ofNat n)
  else if n < 0xC2 then .char replacement
  else if n < 0xE0 then .more ⟨n % 0x20, 1, 0x80, 0xBF⟩
  else if n = 0xE0 then .more ⟨0, 2, 0xA0, 0xBF⟩
  else if n = 0xED then .more ⟨n % 0x10, 2, 0x80, 0x9F⟩
  else if n < 0xF0 then .more ⟨n % 0x10, 2, 0x80, 0xBF⟩
  else if n = 0xF0 then .more ⟨0, 3, 0x90, 0xBF⟩
  else if n < 0xF4 then .more ⟨n % 0x08, 3, 0x80, 0xBF⟩
  else if n = 0xF4 then .more ⟨4, 3, 0x80, 0x8F⟩
  else .char replacement

def Pending.next? (p : Pending) (byte : UInt8) : Option Step :=
  if p.low ≤ byte && byte ≤ p.high then
    let bits := p.bits * 0x40 + byte.toNat % 0x40
    some <| if p.owed ≤ 1 then .char (Char.ofNat bits) else .more ⟨bits, p.owed - 1, 0x80, 0xBF⟩
  else none

def decodeFrom : Option Pending → List UInt8 → List Char
  | none, [] => []
  | some _, [] => [replacement]
  | none, byte :: rest =>
    match first byte with
    | .char c => c :: decodeFrom none rest
    | .more p => decodeFrom (some p) rest
  | some p, byte :: rest =>
    match p.next? byte with
    | some (.char c) => c :: decodeFrom none rest
    | some (.more q) => decodeFrom (some q) rest
    | none =>
      match first byte with
      | .char c => replacement :: c :: decodeFrom none rest
      | .more q => replacement :: decodeFrom (some q) rest

def decodeLossy (bytes : List UInt8) : String :=
  String.ofList (decodeFrom none bytes)

end Assembler.Utf8
