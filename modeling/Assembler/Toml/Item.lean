/-! The tree of a TOML document, as far as reading flat settings needs it: whole numbers keep their
value, other values only show that a key is taken. Tables remember how they came about, because
that decides whether they can be extended. -/

namespace Assembler.Toml

inductive Origin where
  | implied
  | dotted
  | header
  deriving DecidableEq, Repr

inductive Item where
  | integer (n : Int)
  /-- A value that is no whole number. It cannot be extended. -/
  | closed
  | table (origin : Origin) (entries : List (String × Item))
  /-- An array of tables; only the last of them can be extended. -/
  | series (last : List (String × Item))

abbrev Table := List (String × Item)

/-- One assignment: the parts of its key before the last dot, the last part, and the value. -/
abbrev Assignment := List String × String × Item

namespace Table

def put (key : String) (item : Item) : Table → Table
  | [] => [(key, item)]
  | (other, old) :: rest =>
    if other == key then (other, item) :: rest else (other, old) :: put key item rest

/-- Adds a value under a dotted key whose last part is `key`. Parts before it name tables that
dotted keys made, or pass through tables that other headers implied; the last such table has to be
one that dotted keys made, unless it is the table itself. -/
def assign (extendable : Bool) : List String → String → Item → Table → Option Table
  | [], key, item, table =>
    if extendable && (table.lookup key).isNone then some (table.put key item) else none
  | part :: path, key, item, table =>
    match table.lookup part with
    | none => (assign true path key item []).map fun inner => table.put part (.table .dotted inner)
    | some (.table .dotted inner) =>
      (assign true path key item inner).map fun inner => table.put part (.table .dotted inner)
    | some (.table .implied inner) =>
      (assign false path key item inner).map fun inner => table.put part (.table .implied inner)
    | some (.series last) =>
      (assign false path key item last).map fun last => table.put part (.series last)
    | some _ => none

def modify (f : Table → Option Table) : List String → Table → Option Table
  | [], table => f table
  | part :: path, table =>
    match table.lookup part with
    | none => (modify f path []).map fun inner => table.put part (.table .implied inner)
    | some (.table origin inner) =>
      (modify f path inner).map fun inner => table.put part (.table origin inner)
    | some (.series last) => (modify f path last).map fun last => table.put part (.series last)
    | some _ => none

def assignAll (table : Table) (entries : List Assignment) : Option Table :=
  entries.foldlM (fun table (path, key, item) => table.assign true path key item) table

/-- Fills the table under a header. It may have been implied before, but not opened. -/
def openTable (key : String) (entries : List Assignment) (parent : Table) :
    Option Table := do
  let before ← match parent.lookup key with
    | none => some []
    | some (.table .implied inner) => some inner
    | some _ => none
  return parent.put key (.table .header (← assignAll before entries))

def openSeries (key : String) (entries : List Assignment) (parent : Table) :
    Option Table := do
  match parent.lookup key with
  | none => pure ()
  | some (.series _) => pure ()
  | some _ => none
  return parent.put key (.series (← assignAll [] entries))

end Table

end Assembler.Toml
