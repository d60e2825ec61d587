import Assembler.Text.Hex
import Assembler.Toml.Item

/-! TOML scalars that are written without quotes: numbers, truth values, dates and times. Each
function judges one whole word of the text. -/

namespace Assembler.Toml

/-- Digits without the underscores that may stand between two of them. -/
def ungroup? (isDigit : Char → Bool) : List Char → Option (List Char)
  | [] => none
  | [c] => if isDigit c then some [c] else none
  | c :: '_' :: rest => if isDigit c then (ungroup? isDigit rest).map (c :: ·) else none
  | c :: d :: rest => if isDigit c then (ungroup? isDigit (d :: rest)).map (c :: ·) else none

def valueInBase (base : Nat) (digits : List Char) : Nat :=
  digits.foldl (fun acc c => base * acc + (Hex.charValue? c).getD 0) 0

def isDigitIn (base : Nat) (c : Char) : Bool :=
  match Hex.charValue? c with
  | some d => d < base
  | none => false

def radix? (base : Nat) (digits : List Char) : Option Nat :=
  (ungroup? (isDigitIn base) digits).map (valueInBase base)

def decimalDigits? (text : List Char) : Option (List Char) :=
  match text with
  | ['0'] => some ['0']
  | '0' :: _ => none
  | _ => ungroup? Char.isDigit text

def splitSign : List Char → Bool × List Char
  | '+' :: rest => (false, rest)
  | '-' :: rest => (true, rest)
  | text => (false, text)

def integer? (text : List Char) : Option Int :=
  match text with
  | '0' :: 'x' :: digits => (radix? 16 digits).map Int.ofNat
  | '0' :: 'o' :: digits => (radix? 8 digits).map Int.ofNat
  | '0' :: 'b' :: digits => (radix? 2 digits).map Int.ofNat
  | _ =>
    let (negative, digits) := splitSign text
    (decimalDigits? digits).map fun digits =>
      let n : Int := Nat.ofDigitChars 10 digits 0
      if negative then -n else n

/-- Whole numbers beyond 128 bits are refused, also where nothing uses them. -/
def inRange (n : Int) : Bool :=
  if n < 0 then n.natAbs ≤ Nat.pow 2 127 else n.natAbs < Nat.pow 2 128

/-- Whether `m * 10 ^ e` rounds to no finite binary64 number. -/
def overflowsFloat (m : Nat) (e : Int) : Bool :=
  let magnitude : Int := (Nat.toDigits 10 m).length + e
  let limit := Nat.pow 2 1024 - Nat.pow 2 970
  if m = 0 || magnitude < 309 then false
  else if 310 < magnitude then true
  else if 0 ≤ e then limit ≤ m * Nat.pow 10 e.toNat
  else limit * Nat.pow 10 (-e).toNat ≤ m

def exponent? (text : List Char) : Option Int :=
  let (negative, digits) := splitSign text
  (ungroup? Char.isDigit digits).map fun digits =>
    let n : Int := Nat.ofDigitChars 10 digits 0
    if negative then -n else n

def isFloat (text : List Char) : Bool :=
  let body := (splitSign text).2
  body = ['i', 'n', 'f'] || body = ['n', 'a', 'n'] ||
    let mantissa := body.takeWhile fun c => c ≠ 'e' && c ≠ 'E'
    let exponent := body.drop mantissa.length
    let whole := mantissa.takeWhile (· ≠ '.')
    let fraction := mantissa.drop whole.length
    match decimalDigits? whole,
      (if fraction.isEmpty then some [] else ungroup? Char.isDigit fraction.tail),
      (if exponent.isEmpty then some 0 else exponent? exponent.tail) with
    | some w, some f, some e =>
      !(fraction.isEmpty && exponent.isEmpty) &&
        !overflowsFloat (Nat.ofDigitChars 10 (w ++ f) 0) (e - f.length)
    | _, _, _ => false

def twoDigits? (a b : Char) : Option Nat :=
  if a.isDigit && b.isDigit then some (Nat.ofDigitChars 10 [a, b] 0) else none

def isLeapYear (year : Nat) : Bool :=
  (year % 4 == 0 && year % 100 != 0) || year % 400 == 0

def daysInMonth (year month : Nat) : Nat :=
  if month = 2 then (if isLeapYear year then 29 else 28)
  else if month = 4 || month = 6 || month = 9 || month = 11 then 30
  else 31

def date? : List Char → Option (List Char)
  | y1 :: y2 :: y3 :: y4 :: '-' :: m1 :: m2 :: '-' :: d1 :: d2 :: rest => do
    let century ← twoDigits? y1 y2
    let year ← twoDigits? y3 y4
    let month ← twoDigits? m1 m2
    let day ← twoDigits? d1 d2
    if 1 ≤ month && month ≤ 12 && 1 ≤ day && day ≤ daysInMonth (100 * century + year) month then
      some rest
    else none
  | _ => none

def seconds? : List Char → Option (List Char)
  | ':' :: a :: b :: rest => do
    let second ← twoDigits? a b
    if second ≤ 60 then
      match rest with
      | '.' :: c :: digits => if c.isDigit then some (digits.dropWhile Char.isDigit) else none
      | _ => some rest
    else none
  | text => some text

def clock? : List Char → Option (List Char)
  | h1 :: h2 :: ':' :: m1 :: m2 :: rest => do
    let hour ← twoDigits? h1 h2
    let minute ← twoDigits? m1 m2
    if hour ≤ 23 && minute ≤ 59 then some rest else none
  | _ => none

def time? (text : List Char) : Option (List Char) := (clock? text).bind seconds?

def isOffset : List Char → Bool
  | [] => true
  | ['Z'] => true
  | ['z'] => true
  | sign :: rest => (sign = '+' || sign = '-') && clock? rest = some []

def isDate (text : List Char) : Bool := date? text = some []

def isTime (text : List Char) : Bool := time? text = some []

def isDateTime (text : List Char) : Bool :=
  match date? text with
  | some (c :: rest) =>
    (c = 'T' || c = 't' || c = ' ') &&
      match time? rest with
      | some offset => isOffset offset
      | none => false
  | _ => false

def scalar? (word : List Char) : Option Item :=
  match integer? word with
  | some n => if inRange n then some (.integer n) else none
  | none =>
    if word = ['t', 'r', 'u', 'e'] || word = ['f', 'a', 'l', 's', 'e'] || isFloat word ||
        isDate word || isTime word || isDateTime word then some .closed
    else none

end Assembler.Toml
