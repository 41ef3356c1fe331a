import LambdaScript.Dump.Value
import LambdaScript.Expr

/-! # Dumps of expressions -/

namespace LambdaScript
namespace Expr

/-- The dump of a lambda of which the body is dumped already. -/
def lambdaDump (params : List String) (body : String) : String :=
  Dump.node "Lambda" [("params", Dump.strings params), ("body", body)]

def constructionDump (type : TypeName) (members args : List String) : String :=
  Dump.node "NewObject"
    [("ty", type.dump), ("members", Dump.strings members), ("args", Dump.list args)]

mutual

def dump : Expr → String
  | parameter name => Dump.wrap "Parameter" (Text.quoted name)
  | member target m => Dump.node "Member" [("target", dump target), ("member", m.dump)]
  | index target args =>
    Dump.node "Index" [("target", dump target), ("args", Dump.list (dumpAll args))]
  | new ⟨type, members, args⟩ =>
    Dump.wrap "New" (constructionDump type members (dumpAll args))
  | memberInit ⟨type, members, args⟩ bindings =>
    Dump.node "MemberInit"
      [("new", constructionDump type members (dumpAll args)),
        ("bindings", Dump.list (dumpBindings bindings))]
  | newArray items => Dump.wrap "NewArray" (Dump.list (dumpAll items))
  | constant v => Dump.wrap "Constant" v.dump
  | binary op left right =>
    Dump.node "Binary" [("op", op.dump), ("left", dump left), ("right", dump right)]
  | unary op operand => Dump.node "Unary" [("op", op.dump), ("operand", dump operand)]
  | call target m args =>
    Dump.node "Call"
      [("target", Dump.option (dumpOption target)), ("method", m.dump),
        ("args", Dump.list (dumpAll args))]
  | conditional test ifTrue ifFalse =>
    Dump.node "Conditional"
      [("test", dump test), ("if_true", dump ifTrue),
        ("if_false", Dump.option (dumpOption ifFalse))]
  | lambda params body => Dump.wrap "Lambda" (lambdaDump params (dump body))
  | invoke target args =>
    Dump.node "Invoke" [("target", dump target), ("args", Dump.list (dumpAll args))]
  | typeIs operand t => Dump.node "TypeIs" [("operand", dump operand), ("ty", t.dump)]

def dumpAll : List Expr → List String
  | [] => []
  | e :: es => dump e :: dumpAll es

def dumpOption : Option Expr → Option String
  | none => none
  | some e => some (dump e)

def dumpBindings : List (Binding Expr) → List String
  | [] => []
  | ⟨m, e⟩ :: bindings =>
    Dump.node "MemberBinding" [("member", m.dump), ("value", dump e)] :: dumpBindings bindings

end

end Expr

def Lambda.dump (f : Lambda) : String := Expr.lambdaDump f.params f.body.dump

end LambdaScript
