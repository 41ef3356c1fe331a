/-! # Declarations

Types, members and methods of the host, identified by name. A type name may carry the number of its
type parameters after a backtick, which its displayed form leaves out. The targets of conversions
are built-in types, declared ones, and types composed of others.
-/

namespace LambdaScript

structure TypeName where
  text : String
deriving DecidableEq

/-- The name up to the first backtick. -/
def TypeName.display (t : TypeName) : String :=
  String.ofList (t.text.toList.takeWhile (· ≠ '\x60'))

inductive MemberKind where
  | field
  | property
deriving DecidableEq

structure Member where
  owner : TypeName
  name : String
  kind : MemberKind := .property
deriving DecidableEq

structure Method where
  owner : TypeName
  name : String
deriving DecidableEq

/-- The name of something that a type declares. -/
def TypeName.qualify (owner : TypeName) (name : String) : String := owner.text ++ "." ++ name

/-- `Type.name`. -/
def Member.qualifiedName (m : Member) : String := m.owner.qualify m.name

@[inherit_doc Member.qualifiedName]
def Method.qualifiedName (m : Method) : String := m.owner.qualify m.name

/-- A type that a conversion names as its target. -/
inductive CastType where
  | string | char | boolean | integer | float | instant | duration | guid
  | enumeration (type : TypeName)
  | nullable (inner : CastType)
  | array (item : CastType)
  | object (type : TypeName)
deriving DecidableEq

namespace CastType

/-- Whether a type is neither nullable nor composed of others. -/
def isScalar : CastType → Bool
  | nullable _ | array _ | object _ => false
  | _ => true

/-- Whether constants converted to a type can be written as literals: a scalar type, or a nullable
one directly around it. -/
def isSimple : CastType → Bool
  | nullable inner => inner.isScalar
  | t => t.isScalar

end CastType
end LambdaScript
