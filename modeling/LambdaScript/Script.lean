import LambdaScript.Annotations
import LambdaScript.Dump.Expr
import LambdaScript.Emit

/-! # Scripts of lambdas

A lambda becomes a function, or, inline, the bare expression of its only parameter.
-/

namespace LambdaScript

def Emit.result {α : Type} (x : Emit α) (hint : Bool) : Except Failure α :=
  match x hint with
  | .ok a _ => .ok a
  | .error f _ => .error f

def Lambda.compile (ctx : Context) (f : Lambda) : Except Failure String :=
  if ctx.inline then
    if f.params.length = 1 then (f.body.emitText ctx).result f.body.isSimpleMember
    else .error (.arity .inlineParameters 1 f.params.length)
  else do
    let body ← (f.body.emitText ctx).result false
    return "function (" ++ Text.commas f.params ++ ")\x7breturn (" ++ body ++ ");\x7d"

structure Script extends Context where
  lambda : Lambda

/-- What can be written down of the context of a script: the mode and the annotations. -/
structure Config where
  inline : Bool := false
  annotations : Annotations := {}
deriving DecidableEq

namespace Script

def withConfig (s : Script) (c : Config) : Script :=
  { s with inline := c.inline, lookup := c.annotations.toLookup }

def compile (s : Script) : Except Failure String := s.lambda.compile s.toContext

/-- The dump of a script: the lambda, the mode, and whether members are renamed. -/
def dump (s : Script) : String :=
  "JavascriptExpression \x7b lambda: " ++ s.lambda.dump ++ ", inline: " ++ Dump.bool s.inline ++
    ", member_replacement: " ++ Dump.bool s.naming.isSome ++ ", .. \x7d"

end Script
end LambdaScript
