import LambdaScript.Declaration

/-! # Operators

Operators of the host's trees, among them some that have no form in the script and are refused.
-/

namespace LambdaScript

inductive BinaryOp where
  | add | addAssign | addChecked | and | andAlso | andAssign | arrayIndex | assign | coalesce
  | divide | divideAssign | equal | exclusiveOr | exclusiveOrAssign | greaterThan
  | greaterThanOrEqual | leftShift | leftShiftAssign | lessThan | lessThanOrEqual | modulo
  | moduloAssign | multiply | multiplyAssign | multiplyChecked | notEqual | or | orAssign | orElse
  | power | powerAssign | rightShift | rightShiftAssign | subtract | subtractAssign
  | subtractChecked
deriving DecidableEq

/-- How the texts of two operands are put together. -/
inductive BinaryForm where
  | between (symbol : String)
  | element
  | fallback
deriving DecidableEq

/-- The text of an operation: a symbol between the operands, the right one as an index of the left,
or the right one where the left has no value. -/
def BinaryForm.render : BinaryForm → String → String → String
  | between symbol, l, r => l ++ symbol ++ r
  | element, l, r => l ++ "[" ++ r ++ "]"
  | fallback, l, r => "(!(" ++ l ++ "))?(" ++ r ++ "):(" ++ l ++ ")"

namespace BinaryOp

/-- The symbol written between the operands. Powers share the caret with exclusive or. -/
def symbol? : BinaryOp → Option String
  | add => some "+"
  | addAssign => some "+="
  | and => some "&"
  | andAlso => some "&&"
  | andAssign => some "&="
  | assign => some "="
  | divide => some "/"
  | divideAssign => some "/="
  | equal => some "=="
  | exclusiveOr => some "^"
  | exclusiveOrAssign => some "^="
  | greaterThan => some ">"
  | greaterThanOrEqual => some ">="
  | lessThan => some "<"
  | lessThanOrEqual => some "<="
  | modulo => some "%"
  | moduloAssign => some "%="
  | multiply => some "*"
  | multiplyAssign => some "*="
  | notEqual => some "!="
  | or => some "|"
  | orAssign => some "|="
  | orElse => some "||"
  | power => some "^"
  | powerAssign => some "^="
  | subtract => some "-"
  | subtractAssign => some "-="
  | addChecked | arrayIndex | coalesce | leftShift | leftShiftAssign | multiplyChecked
  | rightShift | rightShiftAssign | subtractChecked => none

/-- The form of an operator in the script; shifts and checked arithmetic have none. -/
def form? : BinaryOp → Option BinaryForm
  | coalesce => some .fallback
  | arrayIndex => some .element
  | op => op.symbol?.map .between

def all : List BinaryOp :=
  [add, addAssign, addChecked, and, andAlso, andAssign, arrayIndex, assign, coalesce, divide,
    divideAssign, equal, exclusiveOr, exclusiveOrAssign, greaterThan, greaterThanOrEqual,
    leftShift, leftShiftAssign, lessThan, lessThanOrEqual, modulo, moduloAssign, multiply,
    multiplyAssign, multiplyChecked, notEqual, or, orAssign, orElse, power, powerAssign,
    rightShift, rightShiftAssign, subtract, subtractAssign, subtractChecked]

/-- The name of an operator, in words joined by underscores. -/
def name : BinaryOp → String
  | add => "add"
  | addAssign => "add_assign"
  | addChecked => "add_checked"
  | and => "and"
  | andAlso => "and_also"
  | andAssign => "and_assign"
  | arrayIndex => "array_index"
  | assign => "assign"
  | coalesce => "coalesce"
  | divide => "divide"
  | divideAssign => "divide_assign"
  | equal => "equal"
  | exclusiveOr => "exclusive_or"
  | exclusiveOrAssign => "exclusive_or_assign"
  | greaterThan => "greater_than"
  | greaterThanOrEqual => "greater_than_or_equal"
  | leftShift => "left_shift"
  | leftShiftAssign => "left_shift_assign"
  | lessThan => "less_than"
  | lessThanOrEqual => "less_than_or_equal"
  | modulo => "modulo"
  | moduloAssign => "modulo_assign"
  | multiply => "multiply"
  | multiplyAssign => "multiply_assign"
  | multiplyChecked => "multiply_checked"
  | notEqual => "not_equal"
  | or => "or"
  | orAssign => "or_assign"
  | orElse => "or_else"
  | power => "power"
  | powerAssign => "power_assign"
  | rightShift => "right_shift"
  | rightShiftAssign => "right_shift_assign"
  | subtract => "subtract"
  | subtractAssign => "subtract_assign"
  | subtractChecked => "subtract_checked"

end BinaryOp

inductive UnaryOp where
  | arrayLength
  | convert (target : CastType)
  | convertChecked (target : CastType)
  | decrement | increment | negate | negateChecked | not | onesComplement
  | postDecrementAssign | postIncrementAssign | preDecrementAssign | preIncrementAssign
  | quote | throw
  | typeAs (target : TypeName)
  | unaryPlus
  | unbox (target : TypeName)
deriving DecidableEq

namespace UnaryOp

/-- The texts that stand before and after the operand. -/
def affixes? : UnaryOp → Option (String × String)
  | arrayLength => some ("", ".length")
  | preIncrementAssign => some ("++", "")
  | preDecrementAssign => some ("--", "")
  | postIncrementAssign => some ("", "++")
  | postDecrementAssign => some ("", "--")
  | _ => none

/-- All operators that consist of their name alone. -/
def plain : List UnaryOp :=
  [arrayLength, decrement, increment, negate, negateChecked, not, onesComplement,
    postDecrementAssign, postIncrementAssign, preDecrementAssign, preIncrementAssign, quote, throw,
    unaryPlus]

/-- The name of an operator, in words joined by underscores. -/
def name : UnaryOp → String
  | arrayLength => "array_length"
  | convert _ => "convert"
  | convertChecked _ => "convert_checked"
  | decrement => "decrement"
  | increment => "increment"
  | negate => "negate"
  | negateChecked => "negate_checked"
  | not => "not"
  | onesComplement => "ones_complement"
  | postDecrementAssign => "post_decrement_assign"
  | postIncrementAssign => "post_increment_assign"
  | preDecrementAssign => "pre_decrement_assign"
  | preIncrementAssign => "pre_increment_assign"
  | quote => "quote"
  | throw => "throw"
  | typeAs _ => "type_as"
  | unaryPlus => "unary_plus"
  | unbox _ => "unbox"

end UnaryOp
end LambdaScript
