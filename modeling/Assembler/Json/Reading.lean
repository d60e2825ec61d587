import Assembler.Text.Hex

/-! Reading JSON text: strings and whole numbers with their values, and any other value only as far
as finding its end. A reader takes the text that is left and gives back what remains behind what it
read. -/

namespace Assembler.Json

def isBlank (c : Char) : Bool := c = ' ' || c = '\t' || c = '\n' || c = '\r'

def skipBlanks (text : List Char) : List Char := text.dropWhile isBlank

def hexQuad? (a b c d : Char) : Option Nat :=
  return 4096 * (← Hex.charValue? a) + 256 * (← Hex.charValue? b) + 16 * (← Hex.charValue? c) +
    (← Hex.charValue? d)

def shortEscape? (c : Char) : Option Char :=
  if c = '\x22' || c = '\\' || c = '/' then some c
  else if c = 'b' then some '\x08'
  else if c = 'f' then some '\x0c'
  else if c = 'n' then some '\n'
  else if c = 'r' then some '\r'
  else if c = 't' then some '\t'
  else none

def isPlain (c : Char) : Bool := 0x20 ≤ c.toNat && c ≠ '\x22' && c ≠ '\\'

def isHighSurrogate (n : Nat) : Bool := 0xD800 ≤ n && n < 0xDC00

def isLowSurrogate (n : Nat) : Bool := 0xDC00 ≤ n && n < 0xE000

/-- The content of a string whose opening quote is read. Surrogates have to come in pairs. -/
def string? : List Char → Option (List Char × List Char)
  | '\x22' :: rest => some ([], rest)
  | '\\' :: 'u' :: a :: b :: c :: d :: '\\' :: 'u' :: e :: f :: g :: h :: rest => do
    let n ← hexQuad? a b c d
    let m ← hexQuad? e f g h
    if isHighSurrogate n then
      if isLowSurrogate m then
        let (content, after) ← string? rest
        return (Char.ofNat (0x10000 + (n - 0xD800) * 0x400 + (m - 0xDC00)) :: content, after)
      else none
    else if isLowSurrogate n then none
    else
      let (content, after) ← string? ('\\' :: 'u' :: e :: f :: g :: h :: rest)
      return (Char.ofNat n :: content, after)
  | '\\' :: 'u' :: a :: b :: c :: d :: rest => do
    let n ← hexQuad? a b c d
    if isHighSurrogate n || isLowSurrogate n then none
    else
      let (content, after) ← string? rest
      return (Char.ofNat n :: content, after)
  | '\\' :: c :: rest => do
    let escaped ← shortEscape? c
    let (content, after) ← string? rest
    return (escaped :: content, after)
  | c :: rest => do
    if isPlain c then
      let (content, after) ← string? rest
      return (c :: content, after)
    else none
  | [] => none

def skipString? : List Char → Option (List Char)
  | '\x22' :: rest => some rest
  | '\\' :: 'u' :: a :: b :: c :: d :: rest =>
    if (hexQuad? a b c d).isSome then skipString? rest else none
  | '\\' :: c :: rest => if (shortEscape? c).isSome then skipString? rest else none
  | c :: rest => if isPlain c then skipString? rest else none
  | [] => none

def skipDigits? : List Char → Option (List Char)
  | c :: rest => if c.isDigit then some (rest.dropWhile Char.isDigit) else none
  | [] => none

def skipFraction? : List Char → Option (List Char)
  | '.' :: rest => skipDigits? rest
  | text => some text

def skipExponent? : List Char → Option (List Char)
  | c :: rest =>
    if c = 'e' || c = 'E' then
      match rest with
      | '+' :: digits => skipDigits? digits
      | '-' :: digits => skipDigits? digits
      | digits => skipDigits? digits
    else some (c :: rest)
  | [] => some []

/-- Skips a number. A leading zero stands alone, so digits behind it are left over. -/
def skipNumber? (text : List Char) : Option (List Char) := do
  let digits := match text with
    | '-' :: rest => rest
    | other => other
  let whole ← match digits with
    | '0' :: rest => some rest
    | other => skipDigits? other
  skipExponent? (← skipFraction? whole)

mutual

def skipValue? : Nat → List Char → Option (List Char)
  | 0, _ => none
  | fuel + 1, text =>
    match text with
    | '\x22' :: rest => skipString? rest
    | '[' :: rest =>
      match skipBlanks rest with
      | ']' :: after => some after
      | items => skipItems? fuel items
    | '\x7b' :: rest =>
      match skipBlanks rest with
      | '\x7d' :: after => some after
      | fields => skipFields? fuel fields
    | 't' :: 'r' :: 'u' :: 'e' :: rest => some rest
    | 'f' :: 'a' :: 'l' :: 's' :: 'e' :: rest => some rest
    | 'n' :: 'u' :: 'l' :: 'l' :: rest => some rest
    | other => skipNumber? other

def skipItems? : Nat → List Char → Option (List Char)
  | 0, _ => none
  | fuel + 1, text => do
    match skipBlanks (← skipValue? fuel text) with
    | ']' :: after => some after
    | ',' :: rest => skipItems? fuel (skipBlanks rest)
    | _ => none

def skipFields? : Nat → List Char → Option (List Char)
  | 0, _ => none
  | fuel + 1, text => do
    match text with
    | '\x22' :: rest =>
      match skipBlanks (← skipString? rest) with
      | ':' :: value =>
        match skipBlanks (← skipValue? fuel (skipBlanks value)) with
        | '\x7d' :: after => some after
        | ',' :: more => skipFields? fuel (skipBlanks more)
        | _ => none
      | _ => none
    | _ => none

end

/-- Enough steps for any value in the text: an opening bracket pays for two. -/
def skip? (text : List Char) : Option (List Char) := skipValue? (2 * text.length + 2) text

/-- A whole number without a sign. Zeros in front are refused: a leading zero stands alone. -/
def natural? (text : List Char) : Option (Nat × List Char) :=
  match text with
  | '0' :: rest => some (0, rest)
  | _ =>
    let digits := text.takeWhile Char.isDigit
    if digits.isEmpty then none
    else some (Nat.ofDigitChars 10 digits 0, text.dropWhile Char.isDigit)

def isNumberTail (c : Char) : Bool := c = '.' || c = 'e' || c = 'E'

/-- Any value; only a whole number without a sign is kept. -/
def value? (text : List Char) : Option (Option Nat × List Char) :=
  match natural? text with
  | some (n, rest) =>
    if rest.head?.any isNumberTail then (skip? text).map (none, ·) else some (some n, rest)
  | none => (skip? text).map (none, ·)

def fields? : Nat → List Char → Option (List (String × Option Nat) × List Char)
  | 0, _ => none
  | fuel + 1, text => do
    match text with
    | '\x22' :: rest =>
      let (key, rest) ← string? rest
      match skipBlanks rest with
      | ':' :: rest =>
        let (value, rest) ← value? (skipBlanks rest)
        match skipBlanks rest with
        | '\x7d' :: after => return ([(String.ofList key, value)], after)
        | ',' :: more =>
          let (entries, after) ← fields? fuel (skipBlanks more)
          return ((String.ofList key, value) :: entries, after)
        | _ => none
      | _ => none
    | _ => none

def items? : Nat → List Char → Option (List (Option Nat) × List Char)
  | 0, _ => none
  | fuel + 1, text => do
    let (value, rest) ← value? text
    match skipBlanks rest with
    | ']' :: after => return ([value], after)
    | ',' :: more =>
      let (values, after) ← items? fuel (skipBlanks more)
      return (value :: values, after)
    | _ => none

end Assembler.Json
