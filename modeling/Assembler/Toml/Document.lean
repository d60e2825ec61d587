import Assembler.Toml.Value

/-! TOML documents: lines that assign values, under headers that name tables. -/

namespace Assembler.Toml

/-- A header names a table, or one more table of an array of tables, by its key and the path to its
parent. -/
structure Header where
  isSeries : Bool
  path : List String
  key : String
  deriving DecidableEq, Repr

inductive Line where
  | blank
  | assignment (a : Assignment)
  | header (h : Header)

def line? (text : List Char) : Option (Line × List Char) := do
  match skipBlanks text with
  | [] => return (.blank, [])
  | '\n' :: rest => return (.blank, rest)
  | '\r' :: '\n' :: rest => return (.blank, rest)
  | '#' :: rest => return (.blank, ← lineEnd? true rest)
  | '[' :: '[' :: rest =>
    let (path, key, rest) ← key? (skipBlanks rest)
    match rest with
    | ']' :: ']' :: rest => return (.header ⟨true, path, key⟩, ← lineEnd? false rest)
    | _ => none
  | '[' :: rest =>
    let (path, key, rest) ← key? (skipBlanks rest)
    match rest with
    | ']' :: rest => return (.header ⟨false, path, key⟩, ← lineEnd? false rest)
    | _ => none
  | start =>
    let (path, key, rest) ← key? start
    match rest with
    | '=' :: value =>
      let (item, rest) ← value? (skipBlanks value)
      return (.assignment (path, key, item), ← lineEnd? false rest)
    | _ => none

/-- Reads lines to the end of the text. Every line takes at least one character. -/
def lines? : Nat → List Char → Option (List Line)
  | _, [] => some []
  | 0, _ :: _ => none
  | fuel + 1, text => do
    let (line, rest) ← line? text
    return line :: (← lines? fuel rest)

def sections : List Line → List Assignment × List (Header × List Assignment)
  | [] => ([], [])
  | line :: rest =>
    let (assignments, later) := sections rest
    match line with
    | .blank => (assignments, later)
    | .assignment a => (a :: assignments, later)
    | .header h => ([], (h, assignments) :: later)

def Header.fill (h : Header) (assignments : List Assignment) (root : Table) : Option Table :=
  if h.isSeries then root.modify (·.openSeries h.key assignments) h.path
  else root.modify (·.openTable h.key assignments) h.path

def build (lines : List Line) : Option Table := do
  let (assignments, later) := sections lines
  later.foldlM (fun root (header, under) => header.fill under root)
    (← Table.assignAll [] assignments)

/-- The table that a document describes; a byte order mark may come first. -/
def read? (text : String) : Option Table := do
  let chars := match text.toList with
    | '\ufeff' :: rest => rest
    | chars => chars
  build (← lines? chars.length chars)

end Assembler.Toml
