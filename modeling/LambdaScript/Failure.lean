import LambdaScript.Dump.Declaration
import LambdaScript.Expr
import LambdaScript.Text.Digits

/-! # Failures

Why an expression has no script, or a value no conversion, with the message for each cause.
-/

namespace LambdaScript

/-- The places where two counts have to agree. -/
inductive ArityPlace where
  | inlineParameters
  | objectInitializer
deriving DecidableEq

def ArityPlace.text : ArityPlace → String
  | inlineParameters => "inline expression parameters"
  | objectInitializer => "object initializer"

inductive Failure where
  /-- A node of this kind has no script. -/
  | unsupportedExpr (kind : ExprKind)
  /-- An operator with two operands has no script. -/
  | unsupportedBinary (op : BinaryOp)
  /-- An operator with one operand has no script. -/
  | unsupportedUnary (op : UnaryOp)
  /-- A constant cannot be converted to a type. -/
  | conversion (source : ValueKind) (target : CastType)
  /-- Two counts differ. -/
  | arity (place : ArityPlace) (expected got : Nat)
  /-- An expression of this kind is not known before the script runs. -/
  | notConstant (kind : ExprKind)
  /-- A value of this type has no readable member of this name. -/
  | unreadable (type : TypeName) (member : String)
  /-- A value of this kind has no literal. -/
  | noLiteral (kind : ValueKind)
  /-- A method exists only in the host. -/
  | hostMethod (method : Method)
deriving DecidableEq

def Failure.message : Failure → String
  | unsupportedExpr kind => "expression kind `" ++ kind.name ++ "` is not supported"
  | unsupportedBinary op => "operator `" ++ op.dump ++ "` is not supported"
  | unsupportedUnary op => "operator `" ++ op.dump ++ "` is not supported"
  | conversion source target =>
    "cannot convert " ++ source.name ++ " constant to " ++ target.dump
  | arity place expected got =>
    "arity mismatch in " ++ place.text ++ ": expected " ++ Text.natText expected ++ ", got " ++
      Text.natText got
  | notConstant kind => kind.name ++ " expression is not a compile-time constant"
  | unreadable type member => "member `" ++ member ++ "` of `" ++ type.text ++ "` cannot be read"
  | noLiteral kind => kind.name ++ " value cannot be rendered as a literal here"
  | hostMethod method =>
    "runtime method `" ++ method.qualifiedName ++ "` cannot be called from generated code"

end LambdaScript
