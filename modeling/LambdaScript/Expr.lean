import LambdaScript.Operator
import LambdaScript.Value.Basic

/-! # Expression trees

The body of a host lambda. Some nodes have no form in the script; they are part of the tree so that
they can be refused by name.
-/

namespace LambdaScript

/-- Construction of an object. Member names, if there are any, go with the arguments in order. -/
structure Construction (α : Type) where
  type : TypeName
  members : List String := []
  args : List α := []

/-- A member and the value that an object initializer gives it. -/
structure Binding (α : Type) where
  member : Member
  value : α

/-- An expression. A call without a target is a call of a static method. -/
inductive Expr where
  | parameter (name : String)
  | member (target : Expr) (member : Member)
  | index (target : Expr) (args : List Expr)
  | new (base : Construction Expr)
  | memberInit (base : Construction Expr) (bindings : List (Binding Expr))
  | newArray (items : List Expr)
  | constant (value : Value)
  | binary (op : BinaryOp) (left right : Expr)
  | unary (op : UnaryOp) (operand : Expr)
  | call (target : Option Expr) (method : Method) (args : List Expr)
  | conditional (test ifTrue : Expr) (ifFalse : Option Expr)
  | lambda (params : List String) (body : Expr)
  | invoke (target : Expr) (args : List Expr)
  | typeIs (operand : Expr) (type : TypeName)

structure Lambda where
  params : List String
  body : Expr

inductive ExprKind where
  | parameter | member | index | new | memberInit | newArray | constant | binary | unary | call
  | conditional | lambda | invoke | typeIs
deriving DecidableEq

/-- The word for a kind in messages. -/
def ExprKind.name : ExprKind → String
  | .parameter => "parameter"
  | .member => "member"
  | .index => "index"
  | .new => "new"
  | .memberInit => "member_init"
  | .newArray => "new_array"
  | .constant => "constant"
  | .binary => "binary"
  | .unary => "unary"
  | .call => "call"
  | .conditional => "conditional"
  | .lambda => "lambda"
  | .invoke => "invoke"
  | .typeIs => "type_is"

namespace Expr

def kind : Expr → ExprKind
  | parameter _ => .parameter
  | member _ _ => .member
  | index _ _ => .index
  | new _ => .new
  | memberInit _ _ => .memberInit
  | newArray _ => .newArray
  | constant _ => .constant
  | binary _ _ _ => .binary
  | unary _ _ => .unary
  | call _ _ _ => .call
  | conditional _ _ _ => .conditional
  | lambda _ _ => .lambda
  | invoke _ _ => .invoke
  | typeIs _ _ => .typeIs

def isParameter : Expr → Bool
  | parameter _ => true
  | _ => false

/-- Whether an expression is a member access, or a conversion directly around one. -/
def isSimpleMember : Expr → Bool
  | member _ _ => true
  | unary (.convert _) (member _ _) => true
  | _ => false

def property (target : Expr) (owner : TypeName) (name : String) : Expr :=
  member target ⟨owner, name, .property⟩

def field (target : Expr) (owner : TypeName) (name : String) : Expr :=
  member target ⟨owner, name, .field⟩

end Expr
end LambdaScript
