import Assembler.Text.Hex

/-! TOML keys, quoted strings, blanks and comments. A reader takes the text that is left and gives
back what remains behind what it read. -/

namespace Assembler.Toml

def isBlank (c : Char) : Bool := c = ' ' || c = '\t'

def skipBlanks (text : List Char) : List Char := text.dropWhile isBlank

def isPrintable (c : Char) : Bool := c = '\t' || (0x20 ≤ c.toNat && c.toNat ≠ 0x7F)

def lineEnd? (inComment : Bool) : List Char → Option (List Char)
  | [] => some []
  | '\n' :: rest => some rest
  | '\r' :: '\n' :: rest => some rest
  | c :: rest =>
    if inComment then (if isPrintable c then lineEnd? true rest else none)
    else if isBlank c then lineEnd? false rest
    else if c = '#' then lineEnd? true rest
    else none

def skipGap? (inComment : Bool) : List Char → Option (List Char)
  | [] => some []
  | '\n' :: rest => skipGap? false rest
  | '\r' :: '\n' :: rest => skipGap? false rest
  | c :: rest =>
    if inComment then (if isPrintable c then skipGap? true rest else none)
    else if isBlank c then skipGap? false rest
    else if c = '#' then skipGap? true rest
    else some (c :: rest)

def codePoint? (digits : List Char) : Option Char := do
  let values ← digits.mapM Hex.charValue?
  let n := values.foldl (fun acc d => 16 * acc + d) 0
  if n < 0xD800 || (0xE000 ≤ n && n < 0x110000) then some (Char.ofNat n) else none

def shortEscape? (c : Char) : Option Char :=
  if c = '\x22' || c = '\\' then some c
  else if c = 'b' then some '\x08'
  else if c = 't' then some '\t'
  else if c = 'n' then some '\n'
  else if c = 'f' then some '\x0c'
  else if c = 'r' then some '\r'
  else if c = 'e' then some '\x1b'
  else none

def basicString? : List Char → Option (List Char × List Char)
  | '\x22' :: rest => some ([], rest)
  | '\\' :: 'x' :: a :: b :: rest => do
    let c ← codePoint? [a, b]
    let (content, after) ← basicString? rest
    return (c :: content, after)
  | '\\' :: 'u' :: a :: b :: c :: d :: rest => do
    let c ← codePoint? [a, b, c, d]
    let (content, after) ← basicString? rest
    return (c :: content, after)
  | '\\' :: 'U' :: a :: b :: c :: d :: e :: f :: g :: h :: rest => do
    let c ← codePoint? [a, b, c, d, e, f, g, h]
    let (content, after) ← basicString? rest
    return (c :: content, after)
  | '\\' :: c :: rest => do
    let escaped ← shortEscape? c
    let (content, after) ← basicString? rest
    return (escaped :: content, after)
  | c :: rest => do
    if isPrintable c && c ≠ '\\' then
      let (content, after) ← basicString? rest
      return (c :: content, after)
    else none
  | [] => none

def literalString? : List Char → Option (List Char × List Char)
  | '\x27' :: rest => some ([], rest)
  | c :: rest => do
    if isPrintable c then
      let (content, after) ← literalString? rest
      return (c :: content, after)
    else none
  | [] => none

def endsLine (text : List Char) : Bool :=
  match skipBlanks text with
  | '\n' :: _ => true
  | '\r' :: '\n' :: _ => true
  | _ => false

/-- Finds the end of a string in three double quotes. Up to two more quotes belong to its content.
A backslash at the end of a line takes blanks and line ends with it, which are content anyway. -/
def skipLongBasic? : List Char → Option (List Char)
  | '\x22' :: '\x22' :: '\x22' :: '\x22' :: '\x22' :: rest => some rest
  | '\x22' :: '\x22' :: '\x22' :: '\x22' :: rest => some rest
  | '\x22' :: '\x22' :: '\x22' :: rest => some rest
  | '\\' :: 'x' :: a :: b :: rest =>
    if (codePoint? [a, b]).isSome then skipLongBasic? rest else none
  | '\\' :: 'u' :: a :: b :: c :: d :: rest =>
    if (codePoint? [a, b, c, d]).isSome then skipLongBasic? rest else none
  | '\\' :: 'U' :: a :: b :: c :: d :: e :: f :: g :: h :: rest =>
    if (codePoint? [a, b, c, d, e, f, g, h]).isSome then skipLongBasic? rest else none
  | '\\' :: '\\' :: rest => skipLongBasic? rest
  | '\\' :: '\x22' :: rest => skipLongBasic? rest
  | '\\' :: rest =>
    if endsLine rest then skipLongBasic? rest
    else
      match rest with
      | c :: more => if (shortEscape? c).isSome then skipLongBasic? more else none
      | [] => none
  | '\n' :: rest => skipLongBasic? rest
  | '\r' :: '\n' :: rest => skipLongBasic? rest
  | c :: rest => if isPrintable c then skipLongBasic? rest else none
  | [] => none

def skipLongLiteral? : List Char → Option (List Char)
  | '\x27' :: '\x27' :: '\x27' :: '\x27' :: '\x27' :: rest => some rest
  | '\x27' :: '\x27' :: '\x27' :: '\x27' :: rest => some rest
  | '\x27' :: '\x27' :: '\x27' :: rest => some rest
  | '\n' :: rest => skipLongLiteral? rest
  | '\r' :: '\n' :: rest => skipLongLiteral? rest
  | c :: rest => if isPrintable c then skipLongLiteral? rest else none
  | [] => none

def isBare (c : Char) : Bool := c.isAlphanum || c = '_' || c = '-'

def keyPart? (text : List Char) : Option (String × List Char) :=
  match text with
  | '\x22' :: rest => (basicString? rest).map fun (content, after) => (String.ofList content, after)
  | '\x27' :: rest =>
    (literalString? rest).map fun (content, after) => (String.ofList content, after)
  | _ =>
    let part := text.takeWhile isBare
    if part.isEmpty then none else some (String.ofList part, text.dropWhile isBare)

def maxKeyParts : Nat := 80

def keyPath? : Nat → List Char → Option (List String × String × List Char)
  | 0, _ => none
  | more + 1, text => do
    let (part, rest) ← keyPart? text
    match skipBlanks rest with
    | '.' :: next =>
      let (path, last, after) ← keyPath? more (skipBlanks next)
      return (part :: path, last, after)
    | after => return ([], part, after)

def key? (text : List Char) : Option (List String × String × List Char) :=
  keyPath? maxKeyParts text

end Assembler.Toml
