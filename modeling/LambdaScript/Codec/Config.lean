import LambdaScript.Script
import LambdaScript.Json.Decode

/-! # JSON forms of annotations and configurations -/

namespace LambdaScript

def Scope.name : Scope → String
  | global => "global"
  | this => "this"
  | onThis => "on-this"

def Scope.ofName? : String → Option Scope
  | "global" => some global
  | "this" => some this
  | "on-this" => some onThis
  | _ => none

def Scope.encode (s : Scope) : Json := .str s.name

def Scope.decode? (j : Json) : Option Scope := do
  let (name, p) ← j.case?
  let scope ← ofName? name
  Json.plain p scope

def ScopeMap.encode (map : ScopeMap) : Json := .obj (map.map fun e => (e.1, e.2.encode))

def ScopeMap.decode? (j : Json) : Option ScopeMap := j.asMap? Scope.decode?

def Annotations.encode (a : Annotations) : Json :=
  .obj [("types", a.types.encode), ("members", a.members.encode), ("methods", a.methods.encode)]

/-- Decodes a table of annotations; missing parts are empty. -/
def Annotations.decode? (j : Json) : Option Annotations := do
  let fs ← j.fields? ["types", "members", "methods"]
  let types ← Json.withDefault fs "types" [] ScopeMap.decode?
  let members ← Json.withDefault fs "members" [] ScopeMap.decode?
  let methods ← Json.withDefault fs "methods" [] ScopeMap.decode?
  return ⟨types, members, methods⟩

def Config.encode (c : Config) : Json :=
  .obj [("inline", .bool c.inline), ("annotations", c.annotations.encode)]

/-- Decodes a configuration; missing parts have their defaults. -/
def Config.decode? (j : Json) : Option Config := do
  let fs ← j.fields? ["inline", "annotations"]
  let inline ← Json.withDefault fs "inline" false Json.asBool?
  let annotations ← Json.withDefault fs "annotations" {} Annotations.decode?
  return ⟨inline, annotations⟩

end LambdaScript
