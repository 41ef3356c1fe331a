import LambdaScript.Reference
import LambdaScript.Text.Join
import LambdaScript.Value.Convert
import LambdaScript.Value.Literal

/-! # Script text of expressions

An expression is written node by node, operands before the text around them. Inline, the lambda's
parameter has no text, which only changes how the node above it is written. A captured value is
written as its annotations say, or as a literal.

The state is a hint that the next member access is the whole expression; the first member access
that is reached takes it, whether or not the writing succeeds.
-/

namespace LambdaScript

/-- The value of an expression that is a constant under member accesses and conversions. -/
def Expr.evaluate : Expr → Except Failure Value
  | constant v => .ok v
  | member target m => do (← evaluate target).read m
  | unary (.convert t) operand => do (← evaluate operand).convert t
  | e => .error (.notConstant e.kind)

/-- What the text of an expression depends on besides the expression. -/
structure Context where
  inline : Bool := false
  lookup : Lookup := .empty
  naming : Naming := none
  evaluate : Expr → Except Failure Value := Expr.evaluate

/-- Writing: it may fail, and it keeps the hint also then. -/
abbrev Emit (α : Type) := EStateM Failure Bool α

namespace Emit

/-- Takes the hint, which is unarmed afterwards. -/
def takeHint : Emit Bool := fun hint => .ok hint false

/-- A result that does not depend on the hint. -/
def ofExcept {α : Type} : Except Failure α → Emit α
  | .ok a => pure a
  | .error f => throw f

end Emit

namespace Context

/-- The value of an expression, if it does not depend on the lambda's parameters. -/
def captured (ctx : Context) (e : Expr) : Except Failure (Option Value) :=
  match ctx.evaluate e with
  | .ok v => .ok (some v)
  | .error (.notConstant _) => .ok none
  | .error f => .error f

def label (ctx : Context) (m : Member) (simple : Bool) : String := ctx.naming.label m simple

end Context

def Value.literalOrFail (records : Bool) (v : Value) : Except Failure String :=
  match v.literal records with
  | some t => .ok t
  | none => .error (.noLiteral v.kind)

/-- The literal of a constant that is converted to a simple type. -/
def Value.convertedLiteral (v : Value) (t : CastType) : Except Failure String :=
  if t.isSimple then v.convert t >>= literalOrFail false else .error (.conversion v.kind t)

def Context.capturedMember (ctx : Context) (owner : Value) (m : Member) (simple : Bool) :
    Except Failure String :=
  let r := ctx.lookup.resolveMember ctx.naming m owner.type simple
  match r.reference with
  | .onThis => .ok ("this." ++ r.label)
  | .bare => .ok r.label
  | .literal => owner.read m >>= Value.literalOrFail false

def callText (function : String) (args : List String) : String :=
  function ++ "(" ++ Text.commas args ++ ")"

/-- The function that an annotated method is called by. -/
def Reference.function (r : Reference) (m : Method) : String :=
  match r with
  | .onThis => "this." ++ m.name
  | _ => m.name

def objectText (pairs : List String) : String := "\x7b" ++ Text.commas pairs ++ "\x7d"

def pairText (name text : String) : String := name ++ ":" ++ text

/-- A member access on an object, or the label alone if the object has no text. -/
def pathText (object : Option String) (label : String) : String :=
  match object with
  | some t => t ++ "." ++ label
  | none => label

/-- A construction: an object if every argument has a member name, else a call of the type. -/
def constructionText (type : TypeName) (members args : List String) : String :=
  if members.length = args.length then objectText (List.zipWith pairText members args)
  else "new " ++ callText type.display args

/-- A conditional; without an alternative it ends after the first branch. -/
def conditionalText (test ifTrue : String) (ifFalse : Option String) : String :=
  "((" ++ test ++ ")?(" ++ ifTrue ++ ")" ++
    match ifFalse with
    | some t => ":(" ++ t ++ "))"
    | none => ")"

namespace Expr
variable (ctx : Context)

mutual

/-- Writes an expression. There is no text for the parameter of an inline expression. -/
def emit : Expr → Emit (Option String)
  | parameter name => pure (if ctx.inline then none else some name)
  | member target m => do
    let simple ← Emit.takeHint
    if ctx.inline && target.isParameter then
      return some (ctx.label m simple)
    else
      match ← Emit.ofExcept (ctx.captured target) with
      | some owner => return some (← Emit.ofExcept (ctx.capturedMember owner m simple))
      | none => return some (pathText (← emit target) (ctx.label m simple))
  | index target args => do
    let t := (← emit target).getD ""
    return some (t ++ "[" ++ Text.commas (← emitAll args) ++ "]")
  | new ⟨type, members, args⟩ => do
    return some (constructionText type members (← emitAll args))
  | memberInit ⟨type, members, args⟩ bindings =>
    if bindings.isEmpty then do
      return some (constructionText type members (← emitAll args))
    else do
      let pairs ← emitBindings bindings
      if args.isEmpty then
        return some (objectText pairs)
      else if members.length = args.length then
        return some (objectText (pairs ++ List.zipWith pairText members (← emitAll args)))
      else
        throw (.arity .objectInitializer members.length args.length)
  | newArray items => do
    return some ("[" ++ Text.commas (← emitAll items) ++ "]")
  | constant v => do
    return some (← Emit.ofExcept (v.literalOrFail true))
  | binary op left right =>
    match op.form? with
    | some form => do
      let l := (← emit left).getD ""
      let r := (← emit right).getD ""
      return some (form.render l r)
    | none => throw (.unsupportedBinary op)
  | unary (.convert t) (constant v) => do
    return some (← Emit.ofExcept (v.convertedLiteral t))
  | unary (.convert _) operand => emit operand
  | unary op operand =>
    match op.affixes? with
    | some (before, after) => do
      return some (before ++ (← emit operand).getD "" ++ after)
    | none => throw (.unsupportedUnary op)
  | call none m args =>
    match ctx.lookup.resolveMethod m none with
    | some r => do return some (callText (r.function m) (← emitAll args))
    | none => throw (.hostMethod m)
  | call (some target) m args => do
    let owner ← Emit.ofExcept (ctx.captured target)
    match ctx.lookup.resolveMethod m (owner.map Value.type) with
    | some r => return some (callText (r.function m) (← emitAll args))
    | none =>
      match ← emit target with
      | some object =>
        return some (callText ("(" ++ object ++ ")." ++ m.name) (← emitAll args))
      | none => throw (.hostMethod m)
  | conditional test ifTrue none => do
    let c := (← emit test).getD ""
    let a := (← emit ifTrue).getD ""
    return some (conditionalText c a none)
  | conditional test ifTrue (some ifFalse) => do
    let c := (← emit test).getD ""
    let a := (← emit ifTrue).getD ""
    let b := (← emit ifFalse).getD ""
    return some (conditionalText c a (some b))
  | lambda _ _ => throw (.unsupportedExpr .lambda)
  | invoke _ _ => throw (.unsupportedExpr .invoke)
  | typeIs _ _ => throw (.unsupportedExpr .typeIs)
termination_by structural e => e

def emitAll : List Expr → Emit (List String)
  | [] => pure []
  | e :: es => do
    let t := (← emit e).getD ""
    return t :: (← emitAll es)
termination_by structural es => es

def emitBindings : List (Binding Expr) → Emit (List String)
  | [] => pure []
  | ⟨m, e⟩ :: bindings => do
    let t := (← emit e).getD ""
    return pairText m.name t :: (← emitBindings bindings)
termination_by structural bindings => bindings

end

/-- Writes an expression; the textless parameter is the empty text. -/
def emitText (e : Expr) : Emit String := do
  return (← emit ctx e).getD ""

end Expr
end LambdaScript
