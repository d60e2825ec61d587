import Assembler.Json.Reading
import Assembler.Settings.Text
import Assembler.Toml.Document

/-! A library for the texts of settings, made of the readers for TOML and JSON. -/

namespace Assembler

def number64? (n : Nat) : Option Nat := if n < addressSpace then some n else none

namespace Toml

def Item.number? : Item → Option Nat
  | .integer n => if 0 ≤ n then number64? n.toNat else none
  | _ => none

def document? (text : String) : Option Document := do
  return .fields ((← read? text).map fun entry => (entry.1, entry.2.number?))

def writeLines (pairs : List (String × Nat)) : String :=
  String.join (pairs.map fun pair => pair.1 ++ " = " ++ toString pair.2 ++ "\n")

end Toml

namespace Json

def body? (text : List Char) : Option (Document × List Char) :=
  match skipBlanks text with
  | '\x7b' :: rest =>
    match skipBlanks rest with
    | '\x7d' :: after => some (.fields [], after)
    | fields => do
      let (entries, after) ← fields? fields.length fields
      return (.fields (entries.map fun entry => (entry.1, entry.2.bind number64?)), after)
  | '[' :: rest =>
    match skipBlanks rest with
    | ']' :: after => some (.items [], after)
    | items => do
      let (values, after) ← items? items.length items
      return (.items (values.map (·.bind number64?)), after)
  | _ => none

def document? (text : String) : Option Document := do
  let (document, rest) ← body? text.toList
  if (skipBlanks rest).isEmpty then return document else none

end Json

def TextLibrary.reference : TextLibrary where
  readToml := Toml.document?
  readJson := Json.document?
  writeToml pairs := some (Toml.writeLines pairs)

end Assembler
