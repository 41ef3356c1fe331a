import LambdaScript.Operator
import LambdaScript.Text.Join
import LambdaScript.Text.Quoted

/-! # Dumps of declarations, conversion targets and operators

A dump shows a tree with the names of its nodes. This module has the three shapes that all dumps are
made of: a name with named parts, a name with one part in parentheses, and a list.
-/

namespace LambdaScript
namespace Dump

/-- Texts in brackets. -/
def list (items : List String) : String := "[" ++ Text.joinWith ", " items ++ "]"

/-- A name with one part. -/
def wrap (name part : String) : String := name ++ "(" ++ part ++ ")"

/-- A name with named parts. -/
def node (name : String) (parts : List (String × String)) : String :=
  name ++ " \x7b " ++ Text.joinWith ", " (parts.map fun (k, v) => k ++ ": " ++ v) ++ " \x7d"

def option : Option String → String
  | none => "None"
  | some s => wrap "Some" s

def bool (b : Bool) : String := if b then "true" else "false"

/-- Texts in quotes, in brackets. -/
def strings (items : List String) : String := list (items.map Text.quoted)

end Dump

def TypeName.dump (t : TypeName) : String := Dump.node "TypeRef" [("name", Text.quoted t.text)]

def MemberKind.dump : MemberKind → String
  | field => "Field"
  | property => "Property"

def Member.dump (m : Member) : String :=
  Dump.node "MemberRef"
    [("declaring_type", m.owner.dump), ("name", Text.quoted m.name), ("kind", m.kind.dump)]

def Method.dump (m : Method) : String :=
  Dump.node "MethodRef" [("declaring_type", m.owner.dump), ("name", Text.quoted m.name)]

def CastType.dump : CastType → String
  | string => "String"
  | char => "Char"
  | boolean => "Boolean"
  | integer => "Integer"
  | float => "Float"
  | instant => "Instant"
  | duration => "Duration"
  | guid => "Guid"
  | enumeration t => Dump.wrap "Enum" t.dump
  | nullable t => Dump.wrap "Nullable" t.dump
  | array t => Dump.wrap "Array" t.dump
  | object t => Dump.wrap "Object" t.dump

def BinaryOp.dump (op : BinaryOp) : String := Text.title op.name

def UnaryOp.dump (op : UnaryOp) : String :=
  let name := Text.title op.name
  match op with
  | convert t => Dump.wrap name t.dump
  | convertChecked t => Dump.wrap name t.dump
  | typeAs t => Dump.wrap name t.dump
  | unbox t => Dump.wrap name t.dump
  | _ => name

end LambdaScript
