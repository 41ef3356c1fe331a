import LambdaScript.Codec.Value
import LambdaScript.Expr

/-! # JSON forms of expressions -/

namespace LambdaScript

/-- Encodes a construction whose arguments are encoded already. -/
def Construction.encode (c : Construction Json) : Json :=
  .obj [("ty", c.type.encode), ("members", .strings c.members), ("args", .arr c.args)]

def Construction.decodeWith {α : Type} (decode : Json → Option α) (j : Json) :
    Option (Construction α) := do
  let fs ← j.fields? ["ty", "members", "args"]
  let type ← Json.required fs "ty" TypeName.decode?
  let members ← Json.withDefault fs "members" [] (Json.asList? Json.asString?)
  let args ← Json.withDefault fs "args" [] (Json.asList? decode)
  return ⟨type, members, args⟩

def Binding.encode (b : Binding Json) : Json :=
  .obj [("member", b.member.encode), ("value", b.value)]

def Binding.decodeWith {α : Type} (decode : Json → Option α) (j : Json) :
    Option (Binding α) := do
  let fs ← j.fields? ["member", "value"]
  let member ← Json.required fs "member" Member.decode?
  let value ← Json.required fs "value" decode
  return ⟨member, value⟩

/-- Encodes a lambda whose body is encoded already. -/
def Lambda.encodeParts (params : List String) (body : Json) : Json :=
  .obj [("params", .strings params), ("body", body)]

def Lambda.decodeParts {α : Type} (decode : Json → Option α) (j : Json) :
    Option (List String × α) := do
  let fs ← j.fields? ["params", "body"]
  let params ← Json.required fs "params" (Json.asList? Json.asString?)
  let body ← Json.required fs "body" decode
  return (params, body)

namespace Expr

mutual

def encode : Expr → Option Json
  | parameter name => some (.tag "parameter" (.str name))
  | member target m => do
    return .tag "member" (.obj [("target", ← encode target), ("member", m.encode)])
  | index target args => do
    return .tag "index" (.obj [("target", ← encode target), ("args", .arr (← encodeAll args))])
  | new ⟨type, members, args⟩ => do
    return .tag "new" (Construction.encode ⟨type, members, ← encodeAll args⟩)
  | memberInit ⟨type, members, args⟩ bindings => do
    let base := Construction.encode ⟨type, members, ← encodeAll args⟩
    let bindings ← encodeBindings bindings
    return .tag "member_init" (.obj [("new", base), ("bindings", .arr bindings)])
  | newArray items => do
    return .tag "new_array" (.arr (← encodeAll items))
  | constant v => v.encode.map (.tag "constant")
  | binary op left right => do
    return .tag "binary"
      (.obj [("op", op.encode), ("left", ← encode left), ("right", ← encode right)])
  | unary op operand => do
    return .tag "unary" (.obj [("op", op.encode), ("operand", ← encode operand)])
  | call target m args => do
    let target ← encodeOption target
    return .tag "call"
      (.obj [("target", target), ("method", m.encode), ("args", .arr (← encodeAll args))])
  | conditional test ifTrue ifFalse => do
    return .tag "conditional"
      (.obj [("test", ← encode test), ("if_true", ← encode ifTrue),
        ("if_false", ← encodeOption ifFalse)])
  | lambda params body => do
    return .tag "lambda" (Lambda.encodeParts params (← encode body))
  | invoke target args => do
    return .tag "invoke" (.obj [("target", ← encode target), ("args", .arr (← encodeAll args))])
  | typeIs operand t => do
    return .tag "type_is" (.obj [("operand", ← encode operand), ("ty", t.encode)])

def encodeAll : List Expr → Option (List Json)
  | [] => some []
  | e :: es => do return (← encode e) :: (← encodeAll es)

def encodeOption : Option Expr → Option Json
  | none => some .null
  | some e => encode e

def encodeBindings : List (Binding Expr) → Option (List Json)
  | [] => some []
  | ⟨m, e⟩ :: bindings => do
    return Binding.encode ⟨m, ← encode e⟩ :: (← encodeBindings bindings)

end

/-- Decodes the payload of a case; `decode` decodes the expressions inside it. -/
def decodeCase (decode : Json → Option Expr) : String → Json → Option Expr
  | "parameter", p => p.asString?.map parameter
  | "member", p => do
    let fs ← p.objectFields?
    let target ← Json.required fs "target" decode
    let m ← Json.required fs "member" Member.decode?
    return member target m
  | "index", p => do
    let fs ← p.objectFields?
    let target ← Json.required fs "target" decode
    let args ← Json.required fs "args" (Json.asList? decode)
    return index target args
  | "new", p => (Construction.decodeWith decode p).map new
  | "member_init", p => do
    let fs ← p.objectFields?
    let base ← Json.required fs "new" (Construction.decodeWith decode)
    let bindings ← Json.required fs "bindings" (Json.asList? (Binding.decodeWith decode))
    return memberInit base bindings
  | "new_array", p => (p.asList? decode).map newArray
  | "constant", p => (Value.decode? p).map constant
  | "binary", p => do
    let fs ← p.objectFields?
    let op ← Json.required fs "op" BinaryOp.decode?
    let left ← Json.required fs "left" decode
    let right ← Json.required fs "right" decode
    return binary op left right
  | "unary", p => do
    let fs ← p.objectFields?
    let op ← Json.required fs "op" UnaryOp.decode?
    let operand ← Json.required fs "operand" decode
    return unary op operand
  | "call", p => do
    let fs ← p.objectFields?
    let target ← Json.withDefault fs "target" none (Json.orNull? decode)
    let m ← Json.required fs "method" Method.decode?
    let args ← Json.required fs "args" (Json.asList? decode)
    return call target m args
  | "conditional", p => do
    let fs ← p.objectFields?
    let test ← Json.required fs "test" decode
    let ifTrue ← Json.required fs "if_true" decode
    let ifFalse ← Json.withDefault fs "if_false" none (Json.orNull? decode)
    return conditional test ifTrue ifFalse
  | "lambda", p => do
    let (params, body) ← Lambda.decodeParts decode p
    return lambda params body
  | "invoke", p => do
    let fs ← p.objectFields?
    let target ← Json.required fs "target" decode
    let args ← Json.required fs "args" (Json.asList? decode)
    return invoke target args
  | "type_is", p => do
    let fs ← p.objectFields?
    let operand ← Json.required fs "operand" decode
    let t ← Json.required fs "ty" TypeName.decode?
    return typeIs operand t
  | _, _ => none

/-- Decodes an expression of at most `fuel` levels. -/
def decodeWithin : Nat → Json → Option Expr
  | 0, _ => none
  | fuel + 1, j => do
    match ← j.case? with
    | (name, some p) => decodeCase (decodeWithin fuel) name p
    | (_, none) => none

def decode? (j : Json) : Option Expr := decodeWithin j.depth j

end Expr

def Lambda.encode (f : Lambda) : Option Json := f.body.encode.map (Lambda.encodeParts f.params)

def Lambda.decode? (j : Json) : Option Lambda := do
  let (params, body) ← Lambda.decodeParts (Expr.decodeWithin j.depth) j
  return ⟨params, body⟩

end LambdaScript
