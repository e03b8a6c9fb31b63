import GenHeap.Toml.Value

/-!
TOML documents: definitions of keys, headers of tables and of arrays of tables, line by line. The
table of a document is built by its statements one after the other.
-/

namespace GenHeap.Toml

inductive Statement where
  /-- a key below dotted keys gets a value -/
  | definition (path : List String) (key : String) (v : Value)
  /-- what follows goes to the table of a path -/
  | header (path : List String) (key : String)
  /-- what follows goes to a new table in the array of a path -/
  | arrayHeader (path : List String) (key : String)

namespace Statement

def scanHeaderKey : Scan (List String × String) := do
  let keys ← scanKey
  let some key := keys.getLast? | failure
  return (keys.dropLast, key)

def scanArrayHeader : Scan Statement := do
  Scan.literal "[["
  let (path, key) ← scanHeaderKey
  Scan.literal "]]"
  scanLineEnd
  return arrayHeader path key

def scanHeader : Scan Statement := do
  Scan.char '['
  let (path, key) ← scanHeaderKey
  Scan.char ']'
  scanLineEnd
  return header path key

def scanLine : Scan Statement := do
  let (path, key, v) ← scanDefinition scanValue
  scanLineEnd
  return definition path key v

/-- Skips what holds no statement, then reads a statement. -/
def scan : Scan Statement := do
  scanFiller
  scanArrayHeader <|> scanHeader <|> scanLine

end Statement

/-- The table of a document so far, and the path of the table that definitions go to. -/
structure Document where
  entries : Entries := []
  current : List String := []

namespace Document

/-- Opens the table of a key, which must not be there yet unless longer headers imply it. -/
def openTable (key : String) (entries : Entries) : Option Entries :=
  match entries.lookup key with
  | none => some (entries.put key (.table .header []))
  | some (.table .implied inner) => some (entries.put key (.table .header inner))
  | some _ => none

/-- Adds a table to the array of a key. -/
def openElement (key : String) (entries : Entries) : Option Entries :=
  match entries.lookup key with
  | none => some (entries.put key (.tables [] []))
  | some (.tables latest earlier) => some (entries.put key (.tables [] (latest :: earlier)))
  | some _ => none

def step (d : Document) : Statement → Option Document
  | .definition path key v => do
    let entries ← Entries.within .implied (Entries.define path key v) d.current .header d.entries
    return { d with entries }
  | .header path key => do
    let entries ← Entries.within .implied (fun _ => openTable key) path .header d.entries
    return { entries, current := path ++ [key] }
  | .arrayHeader path key => do
    let entries ← Entries.within .implied (fun _ => openElement key) path .header d.entries
    return { entries, current := path ++ [key] }

/-- The mark that a text may begin with. -/
def byteOrderMark : Char := '\uFEFF'

def scan : Scan (List Statement) := do
  let _ ← Scan.optional (Scan.char byteOrderMark)
  let statements ← Scan.many Statement.scan
  scanFiller
  return statements

/-- The entries of the table that a text holds. -/
def ofText? (s : String) : Option (List (String × Value)) := do
  let d ← (← Scan.whole? scan s).foldlM step {}
  return Item.finish d.entries

end Document

end GenHeap.Toml
