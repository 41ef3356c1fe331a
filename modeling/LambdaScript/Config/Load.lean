import LambdaScript.Codec.Config
import LambdaScript.Toml.Read

/-! # Loading configurations

Configurations are written in TOML. Keys that mean nothing are ignored. A scope is its name, or a
table with the name as its only key and nothing in it. A table of annotations may also be an array
of its parts.
-/

namespace LambdaScript

/-- Whether a value is a table or an array without content. -/
def Toml.isEmptyContainer : Toml → Bool
  | table [] => true
  | array [] => true
  | _ => false

def Scope.ofToml? : Toml → Option Scope
  | .string name => ofName? name
  | .table [(name, v)] => if v.isEmptyContainer then ofName? name else none
  | _ => none

def ScopeMap.ofToml? : Toml → Option ScopeMap
  | .table entries => entries.mapM fun e => (Scope.ofToml? e.2).map (e.1, ·)
  | _ => none

def ScopeMap.ofEntries? (entries : List (String × Toml)) (key : String) : Option ScopeMap :=
  match entries.lookup key with
  | none => some []
  | some v => ScopeMap.ofToml? v

/-- The parts of a table of annotations. A date has none that mean anything. -/
def Annotations.entries? : Toml → Option (List (String × Toml))
  | .table entries => some entries
  | .array items => some (["types", "members", "methods"].zip items)
  | .moment _ => some []
  | _ => none

def Annotations.ofToml? (v : Toml) : Option Annotations := do
  let entries ← entries? v
  let types ← ScopeMap.ofEntries? entries "types"
  let members ← ScopeMap.ofEntries? entries "members"
  let methods ← ScopeMap.ofEntries? entries "methods"
  return ⟨types, members, methods⟩

namespace Config

def inlineOf? : Option Toml → Option Bool
  | none => some false
  | some (.boolean b) => some b
  | some _ => none

def ofToml? : Toml → Option Config
  | .table entries => do
    let inline ← inlineOf? (entries.lookup "inline")
    let annotations ← match entries.lookup "annotations" with
      | none => some {}
      | some v => Annotations.ofToml? v
    return ⟨inline, annotations⟩
  | _ => none

/-- Why a configuration cannot be loaded. -/
inductive LoadFailure where
  /-- There is no such file. -/
  | notFound
  /-- The file is not UTF-8 text. -/
  | notText
  /-- The text is not the TOML of a configuration. -/
  | malformed
deriving DecidableEq

def parse (source : String) : Except LoadFailure Config :=
  match (Toml.read? source).bind ofToml? with
  | some c => .ok c
  | none => .error .malformed

/-- The configuration in a file with the given content; a file that does not exist has none. -/
def load : Option ByteArray → Except LoadFailure Config
  | none => .error .notFound
  | some bytes => match String.fromUTF8? bytes with
    | some source => parse source
    | none => .error .notText

end Config
end LambdaScript
