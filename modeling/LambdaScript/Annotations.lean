import LambdaScript.Reference

/-! # Annotation tables

Annotations by name: types by their own name, members and methods by their qualified name. A later
annotation of the same name takes the place of the earlier one.
-/

namespace LambdaScript

abbrev ScopeMap := List (String × Scope)

def ScopeMap.insert (map : ScopeMap) (key : String) (scope : Scope) : ScopeMap :=
  match map with
  | [] => [(key, scope)]
  | (k, s) :: rest =>
    if k = key then (k, scope) :: rest else (k, s) :: ScopeMap.insert rest key scope

def ScopeMap.get? (map : ScopeMap) (key : String) : Option Scope := map.lookup key

structure Annotations where
  types : ScopeMap := []
  members : ScopeMap := []
  methods : ScopeMap := []
deriving DecidableEq

namespace Annotations

def empty : Annotations := {}

def markType (a : Annotations) (t : TypeName) (scope : Scope) : Annotations :=
  { a with types := a.types.insert t.text scope }

def markMember (a : Annotations) (m : Member) (scope : Scope) : Annotations :=
  { a with members := a.members.insert m.qualifiedName scope }

def markMethod (a : Annotations) (m : Method) (scope : Scope) : Annotations :=
  { a with methods := a.methods.insert m.qualifiedName scope }

def isEmpty (a : Annotations) : Bool := a.types.isEmpty && a.members.isEmpty && a.methods.isEmpty

def size (a : Annotations) : Nat := a.types.length + a.members.length + a.methods.length

def toLookup (a : Annotations) : Lookup where
  type t := a.types.get? t.text
  member m := a.members.get? m.qualifiedName
  method m := a.methods.get? m.qualifiedName

end Annotations
end LambdaScript
