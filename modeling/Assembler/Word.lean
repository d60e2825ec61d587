import Assembler.Fault

/-! Unsigned integers of any size as the machine carries them: big-endian bytes without leading
zeros, so the number of bytes is the width of the narrowest immediate that holds the value. -/

namespace Assembler

structure Word where
  bytes : List UInt8
  canonical : bytes.head? ≠ some 0
  deriving DecidableEq

namespace Word

theorem head?_dropWhile_zero (bytes : List UInt8) :
    (bytes.dropWhile (· == 0)).head? ≠ some 0 := by
  induction bytes with
  | nil => simp
  | cons b rest ih =>
    by_cases h : b = 0
    · simp [h, ih]
    · simp [h]

/-- The value of big-endian bytes; leading zeros are dropped. -/
def ofBytes (bytes : List UInt8) : Word :=
  ⟨bytes.dropWhile (· == 0), head?_dropWhile_zero bytes⟩

theorem ofBytes_bytes (w : Word) : ofBytes w.bytes = w := by
  obtain ⟨bytes, canonical⟩ := w
  cases bytes with
  | nil => rfl
  | cons b rest =>
    have nonzero : b ≠ 0 := by simpa using canonical
    simp [ofBytes, nonzero]

/-- Zeros in front do not change the value. -/
theorem ofBytes_replicate_append (n : Nat) (bytes : List UInt8) :
    ofBytes (List.replicate n 0 ++ bytes) = ofBytes bytes := by
  induction n with
  | zero => rfl
  | succ n ih =>
    rw [← ih]
    simp [ofBytes, List.replicate_succ]

def zero : Word := ⟨[], by simp⟩

def digits256 (n : Nat) : List UInt8 :=
  go n n []
where
  go : Nat → Nat → List UInt8 → List UInt8
    | 0, _, acc => acc
    | fuel + 1, n, acc => if n = 0 then acc else go fuel (n / 256) (UInt8.ofNat n :: acc)

def ofNat (n : Nat) : Word := ofBytes (digits256 n)

def valueOfBytes (bytes : List UInt8) : Nat :=
  bytes.foldl (fun acc b => 256 * acc + b.toNat) 0

def value (w : Word) : Nat := valueOfBytes w.bytes

def size (w : Word) : Nat := w.bytes.length

def isZero (w : Word) : Bool := w.bytes.isEmpty

def shiftIn (acc : UInt64) (b : UInt8) : UInt64 := acc <<< 8 ||| b.toUInt64

def toUInt64? (w : Word) : Option UInt64 :=
  if w.size ≤ 8 then some (w.bytes.foldl shiftIn 0) else none

/-- At least `width` bytes, zeros in front. -/
def padded (w : Word) (width : Nat) : List UInt8 :=
  w.bytes.leftpad width 0

theorem ofBytes_padded (w : Word) (width : Nat) : ofBytes (w.padded width) = w := by
  rw [padded, List.leftpad, ofBytes_replicate_append, ofBytes_bytes]

theorem length_padded {w : Word} {width : Nat} (fits : w.size ≤ width) :
    (w.padded width).length = width := by
  have bound : w.bytes.length ≤ width := fits
  rw [padded, List.leftpad, List.length_append, List.length_replicate]
  omega

/-- The value with its bytes in reverse order, when it is read as `width` bytes. -/
def byteSwap (w : Word) (width : Nat) : Except Fault Word :=
  if w.size ≤ width then .ok (ofBytes (w.padded width).reverse)
  else .error (.valueTooWide w.size width)

def paddedHex (w : Word) (width : Nat) : String :=
  Hex.ofBytes (w.padded width)

def hex (w : Word) : String := w.paddedHex 1

def tagged (w : Word) : String := "Word(0x" ++ w.hex ++ ")"

instance : Repr Word := ⟨fun w _ => .text w.tagged⟩

def literalDigits : List UInt8 → List UInt8
  | 0x30 :: 0x78 :: rest => rest
  | 0x30 :: 0x58 :: rest => rest
  | bytes => bytes

def readDigits : List UInt8 → Except UInt8 (List (Fin 16))
  | [] => .ok []
  | byte :: rest =>
    match Hex.digit? byte with
    | none => .error byte
    | some d => (readDigits rest).map (d :: ·)

def ofHex (text : String) : Except Fault Word :=
  let digits := literalDigits (Utf8.encode text)
  if digits.isEmpty then .error (.badHex (.emptyLiteral text))
  else
    match readDigits digits with
    | .error byte => .error (.badHex (.badDigit byte text))
    | .ok values => .ok (ofBytes (Hex.pack values))

/-- The narrowest bytes that show the value, at least one. -/
def shownBytes (w : Word) : List UInt8 := w.padded 1

end Word

end Assembler
