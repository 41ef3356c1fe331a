import LambdaScript.Declaration

/-! # References to captured things

An annotated declaration is found in a scope of the script: among the globals, or on `this`. A
lookup tells the scope of every type, member and method, and with it how a member of a captured
value, or a method, is written.
-/

namespace LambdaScript

/-- Where the script finds an annotated declaration. -/
inductive Scope where
  /-- A bare global name. -/
  | global
  /-- On a type: every member of its values is found on `this`. -/
  | this
  /-- On a member or method: found on `this`. -/
  | onThis
deriving DecidableEq

/-- The annotations of all declarations. -/
structure Lookup where
  type : TypeName → Option Scope
  member : Member → Option Scope
  method : Method → Option Scope

def Lookup.empty : Lookup := ⟨fun _ => none, fun _ => none, fun _ => none⟩

/-- How something captured is written. -/
inductive Reference where
  /-- `this.label`. -/
  | onThis
  /-- The label alone. -/
  | bare
  /-- The value itself. -/
  | literal
deriving DecidableEq

/-- A label and how it is used. -/
structure Resolution where
  label : String
  reference : Reference
deriving DecidableEq

/-- What members are called in the script: a chosen label, which may depend on whether the member is
the whole of an inline expression, or the declared name. -/
abbrev Naming := Option (Member → Bool → String)

def Naming.label (naming : Naming) (m : Member) (simple : Bool) : String :=
  match naming with
  | some choose => choose m simple
  | none => m.name

/-- How a member of a captured value of a type is written. Globals keep their declared names. -/
def Lookup.resolveMember (lookup : Lookup) (naming : Naming) (m : Member) (type : TypeName)
    (simple : Bool) : Resolution :=
  let label := naming.label m simple
  if lookup.type type = some .this then ⟨label, .onThis⟩ else
    match lookup.member m with
    | some .onThis => ⟨label, .onThis⟩
    | some _ => ⟨m.name, .bare⟩
    | none => ⟨label, .literal⟩

/-- How a method of a captured value is written; `none` if it is not annotated. -/
def Lookup.resolveMethod (lookup : Lookup) (m : Method) (type : Option TypeName) :
    Option Reference :=
  if type.bind lookup.type = some .this then some .onThis else
    (lookup.method m).map fun
      | .onThis => .onThis
      | _ => .bare

end LambdaScript
