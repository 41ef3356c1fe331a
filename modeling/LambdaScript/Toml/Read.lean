import LambdaScript.Toml.Lexeme

/-! # Reading TOML

A document is read line by line: headers choose the table that the lines after them add to. A key
that is already there, a table that is opened twice, and values that are nested too deeply refuse
the document. The length of the text bounds the number of steps, `depth` the levels that may still
be opened.
-/

namespace LambdaScript.Toml

mutual

def value? : Nat → Nat → List Char → Option (Toml × List Char)
  | 0, _, _ => none
  | fuel + 1, depth, cs =>
    match depth, cs with
    | _, '"' :: _ => (string? cs).map fun (s, cs) => (.string s, cs)
    | _, '\'' :: _ => (string? cs).map fun (s, cs) => (.string s, cs)
    | 0, '[' :: _ => none
    | 0, '\x7b' :: _ => none
    | depth + 1, '[' :: cs => (items? fuel depth cs).map fun (items, cs) => (.array items, cs)
    | depth + 1, '\x7b' :: cs =>
      match skipSpace cs with
      | '\x7d' :: cs => some (.table [], cs)
      | cs =>
        (pairs? fuel depth [] cs).map fun (entries, cs) => (.table (finishEntries entries), cs)
    | _, cs => word? cs

/-- Reads the items of an array up to its end. Line breaks and comments may stand between them, and
a comma may follow the last one. -/
def items? : Nat → Nat → List Char → Option (List Toml × List Char)
  | 0, _, _ => none
  | fuel + 1, depth, cs =>
    match skipLines cs.length cs with
    | ']' :: cs => some ([], cs)
    | cs => do
      let (v, cs) ← value? fuel depth cs
      match skipLines cs.length cs with
      | ',' :: cs => (items? fuel depth cs).map fun (vs, cs) => (v :: vs, cs)
      | ']' :: cs => some ([v], cs)
      | _ => none

/-- Reads the entries of a table in braces up to its end; `done` holds the entries so far. -/
def pairs? : Nat → Nat → Entries → List Char → Option (Entries × List Char)
  | 0, _, _, _ => none
  | fuel + 1, depth, done, cs => do
    let ((path, key), cs) ← key? cs
    match cs with
    | '=' :: cs => do
      let (v, cs) ← value? fuel depth (skipSpace cs)
      let done ← done.addUnder key v path
      match skipSpace cs with
      | ',' :: cs => pairs? fuel depth done cs
      | '\x7d' :: cs => some (done, cs)
      | _ => none
    | _ => none

end

/-- A document that is being read: its root table, and the path of the table that lines add to. -/
structure Draft where
  root : Entries := []
  path : List String := []

def Draft.add (d : Draft) (path : List String) (key : String) (v : Toml) : Option Draft :=
  (d.root.openPath (·.addUnder key v path) d.path).map fun root => { d with root }

/-- Opens the table of a header, to which the lines after it add. -/
def Draft.enter (d : Draft) (change : String → Entries → Option Entries) (path : List String)
    (key : String) : Option Draft :=
  (d.root.openPath (change key) path).map fun root => ⟨root, path ++ [key]⟩

/-- Reads a line with a header in the given closing brackets. -/
def header? (d : Draft) (change : String → Entries → Option Entries) (closing cs : List Char) :
    Option (Draft × List Char) := do
  let ((path, key), cs) ← key? cs
  if cs.take closing.length = closing then
    let cs ← lineEnd? (cs.drop closing.length)
    return (← d.enter change path key, cs)
  else none

def keyValue? (d : Draft) (cs : List Char) : Option (Draft × List Char) := do
  let ((path, key), cs) ← key? cs
  match cs with
  | '=' :: cs => do
    let (v, cs) ← value? (2 * cs.length + 2) maxDepth (skipSpace cs)
    let cs ← lineEnd? cs
    return (← d.add path key v, cs)
  | _ => none

def line? (d : Draft) (cs : List Char) : Option (Draft × List Char) :=
  match skipSpace cs with
  | '[' :: '[' :: cs => header? d Entries.openTables [']', ']'] cs
  | '[' :: cs => header? d Entries.openTable [']'] cs
  | cs => match lineEnd? cs with
    | some cs => some (d, cs)
    | none => keyValue? d cs

def lines? : Nat → Draft → List Char → Option Draft
  | _, d, [] => some d
  | 0, _, _ => none
  | fuel + 1, d, cs => do
    let (d, cs) ← line? d cs
    lines? fuel d cs

/-- Reads the text of a document, which may begin with a byte order mark. -/
def read? (s : String) : Option Toml :=
  let cs := match s.toList with
    | '\uFEFF' :: cs => cs
    | cs => cs
  (lines? (cs.length + 1) {} cs).map fun d => .table (finishEntries d.root)

end LambdaScript.Toml
