import LambdaScript.Number.Binary64

/-! # TOML documents

A document is a table. While it is read, each table remembers where it came from, because that
decides which later lines may add to it: a header opens its table once, dotted keys may extend only
tables that dotted keys made, and tables in braces are closed.
-/

namespace LambdaScript

/-- A TOML value. Of dates and times only the text is kept. -/
inductive Toml where
  | string (s : String)
  | integer (n : Int64)
  | float (x : Binary64)
  | boolean (b : Bool)
  | moment (text : String)
  | array (items : List Toml)
  | table (entries : List (String × Toml))

namespace Toml

/-- Where a table came from. -/
inductive Origin where
  /-- Its own header. -/
  | header
  /-- The header of a table inside it. -/
  | parent
  /-- A dotted key. -/
  | dotted
deriving DecidableEq

/-- A part of a document that is being read. -/
inductive Node where
  | value (v : Toml)
  | table (origin : Origin) (entries : List (String × Node))
  | tables (earlier : List (List (String × Node))) (last : List (String × Node))

abbrev Entries := List (String × Node)

mutual

def Node.finish : Node → Toml
  | .value v => v
  | .table _ entries => .table (finishEntries entries)
  | .tables earlier last => .array (finishTables earlier ++ [.table (finishEntries last)])

def finishEntries : List (String × Node) → List (String × Toml)
  | [] => []
  | (k, n) :: entries => (k, n.finish) :: finishEntries entries

def finishTables : List (List (String × Node)) → List Toml
  | [] => []
  | entries :: rest => .table (finishEntries entries) :: finishTables rest

end

namespace Entries

def replace (entries : Entries) (key : String) (node : Node) : Entries :=
  entries.map fun (k, n) => if k = key then (k, node) else (k, n)

/-- Adds an entry whose key is new. -/
def add (entries : Entries) (key : String) (node : Node) : Option Entries :=
  match entries.lookup key with
  | none => some (entries ++ [(key, node)])
  | some _ => none

def ofPath (key : String) (v : Toml) : List String → Entries
  | [] => [(key, .value v)]
  | p :: path => [(p, .table .dotted (ofPath key v path))]

/-- Adds a value under a dotted key: `path` leads to the table of the last part, `key`. -/
def addUnder (key : String) (v : Toml) : List String → Entries → Option Entries
  | [], entries => entries.add key (.value v)
  | p :: path, entries =>
    match entries.lookup p with
    | none => some (entries ++ [(p, .table .dotted (ofPath key v path))])
    | some (.table .header _) => none
    | some (.table .parent inner) =>
      if path.isEmpty then none
      else (addUnder key v path inner).map fun e => entries.replace p (.table .parent e)
    | some (.table .dotted inner) =>
      (addUnder key v path inner).map fun e => entries.replace p (.table .dotted e)
    | some (.tables earlier last) =>
      if path.isEmpty then none
      else (addUnder key v path last).map fun e => entries.replace p (.tables earlier e)
    | some (.value _) => none

/-- Follows a path into tables and the last ones of arrays of tables, making tables that are not
there yet, and changes the entries at its end. -/
def openPath (change : Entries → Option Entries) : List String → Entries → Option Entries
  | [], entries => change entries
  | p :: path, entries =>
    match entries.lookup p with
    | none => (openPath change path []).map fun e => entries ++ [(p, .table .parent e)]
    | some (.table origin inner) =>
      (openPath change path inner).map fun e => entries.replace p (.table origin e)
    | some (.tables earlier last) =>
      (openPath change path last).map fun e => entries.replace p (.tables earlier e)
    | some (.value _) => none

/-- Opens the table of a header; the last part of its key is `key`. -/
def openTable (key : String) (entries : Entries) : Option Entries :=
  match entries.lookup key with
  | none => some (entries ++ [(key, .table .header [])])
  | some (.table .parent inner) => some (entries.replace key (.table .header inner))
  | some _ => none

def openTables (key : String) (entries : Entries) : Option Entries :=
  match entries.lookup key with
  | none => some (entries ++ [(key, .tables [] [])])
  | some (.tables earlier last) => some (entries.replace key (.tables (earlier ++ [last]) []))
  | some _ => none

end Entries
end Toml
end LambdaScript
