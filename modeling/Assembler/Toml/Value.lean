import Assembler.Toml.Scalar
import Assembler.Toml.Text

/-! TOML values. Arrays and inline tables may nest at most 80 deep. -/

namespace Assembler.Toml

def maxDepth : Nat := 80

def isWordChar (c : Char) : Bool :=
  c.isAlphanum || c = '+' || c = '-' || c = '_' || c = '.' || c = ':'

/-- A word. A date may have its time behind a blank. -/
def word (text : List Char) : List Char × List Char :=
  let first := text.takeWhile isWordChar
  let rest := text.dropWhile isWordChar
  match rest with
  | ' ' :: c :: more =>
    if isDate first && c.isDigit then
      (first ++ [' '] ++ (c :: more).takeWhile isWordChar, (c :: more).dropWhile isWordChar)
    else (first, rest)
  | _ => (first, rest)

mutual

def valueAt? (depth : Nat) : Nat → List Char → Option (Item × List Char)
  | 0, _ => none
  | fuel + 1, text =>
    match text with
    | '\x22' :: '\x22' :: '\x22' :: rest => (skipLongBasic? rest).map (Item.closed, ·)
    | '\x27' :: '\x27' :: '\x27' :: rest => (skipLongLiteral? rest).map (Item.closed, ·)
    | '\x22' :: rest => (basicString? rest).map fun (_, after) => (Item.closed, after)
    | '\x27' :: rest => (literalString? rest).map fun (_, after) => (Item.closed, after)
    | '[' :: rest => if depth < maxDepth then arrayRest? (depth + 1) fuel rest else none
    | '\x7b' :: rest =>
      if depth < maxDepth then inlineRest? (depth + 1) [] fuel rest else none
    | _ =>
      let (w, rest) := word text
      (scalar? w).map (·, rest)

def arrayRest? (depth : Nat) : Nat → List Char → Option (Item × List Char)
  | 0, _ => none
  | fuel + 1, text => do
    match ← skipGap? false text with
    | ']' :: after => return (.closed, after)
    | start =>
      let (_, rest) ← valueAt? depth fuel start
      match ← skipGap? false rest with
      | ']' :: after => return (.closed, after)
      | ',' :: more => arrayRest? depth fuel more
      | _ => none

def inlineRest? (depth : Nat) (table : Table) : Nat → List Char → Option (Item × List Char)
  | 0, _ => none
  | fuel + 1, text => do
    match ← skipGap? false text with
    | '\x7d' :: after => return (.closed, after)
    | start =>
      let (path, key, rest) ← key? start
      match ← skipGap? false rest with
      | '=' :: value =>
        let (item, rest) ← valueAt? depth fuel (← skipGap? false value)
        let table ← table.assign true path key item
        match ← skipGap? false rest with
        | '\x7d' :: after => return (.closed, after)
        | ',' :: more => inlineRest? depth table fuel more
        | _ => none
      | _ => none

end

/-- An opening bracket pays for two steps. -/
def value? (text : List Char) : Option (Item × List Char) :=
  valueAt? 0 (2 * text.length + 2) text

end Assembler.Toml
