import LambdaScript.Proofs.Emit.Failing
import LambdaScript.Proofs.Expr.Evaluation

/-! # Every failure is justified by the lambda

`Failure.Justified` says for each failure what must be found in the lambda that it is reported for:
a node that has no form, a call without a receiver, counts that differ, a value that cannot be read,
converted or written. Under the closure evaluator every failure of a script is justified, whatever
the mode, the annotations and the labels; that an expression is not constant is never reported.
-/

namespace LambdaScript
open LambdaScript.Expr

/-- What is to be found in a lambda for a failure to be reported. -/
def Failure.Justified (inline : Bool) (f : Lambda) : Failure → Prop
  | unsupportedExpr kind =>
    (kind = .lambda ∨ kind = .invoke ∨ kind = .typeIs) ∧ ∃ x, Occurs x f.body ∧ x.kind = kind
  | unsupportedBinary op => op.form? = none ∧ ∃ left right, Occurs (binary op left right) f.body
  | unsupportedUnary op =>
    op.affixes? = none ∧ (∀ t, op ≠ .convert t) ∧ ∃ operand, Occurs (unary op operand) f.body
  | conversion source target =>
    ∃ t operand v, Occurs (unary (.convert t) operand) f.body ∧ operand.evaluate = .ok v ∧
      v.kind = source ∧
      ((operand = constant v ∧ t.isSimple = false ∧ target = t) ∨
        (target = t.core ∧ v.convert? target = none))
  | arity .inlineParameters expected got =>
    inline = true ∧ expected = 1 ∧ got = f.params.length ∧ got ≠ 1
  | arity .objectInitializer expected got =>
    ∃ base bindings, Occurs (memberInit base bindings) f.body ∧ bindings ≠ [] ∧ base.args ≠ [] ∧
      base.members.length = expected ∧ base.args.length = got ∧ expected ≠ got
  | notConstant _ => False
  | unreadable type name =>
    ∃ target m v, Occurs (member target m) f.body ∧ m.name = name ∧ target.evaluate = .ok v ∧
      v.type = type ∧ v.Hides name
  | noLiteral kind =>
    ∃ v : Value, v.kind = kind ∧
      ((Occurs (constant v) f.body ∧ v.literal true = none) ∨
        v.literal false = none ∧
          ((∃ t w, Occurs (unary (.convert t) (constant w)) f.body ∧ w.convert t = .ok v) ∨
            ∃ target m owner, Occurs (member target m) f.body ∧ target.evaluate = .ok owner ∧
              owner.read m = .ok v))
  | hostMethod m =>
    (∃ args, Occurs (call none m args) f.body) ∨
      (inline = true ∧
        ∃ target args, target.IsConvertedParameter ∧ Occurs (call (some target) m args) f.body)

theorem justified_of_stuck {inline : Bool} {f : Lambda} {x : Expr} {e : Failure}
    (hx : Occurs x f.body) (h : Stuck e x) : e.Justified inline f := by
  cases h with
  | read value failed =>
    obtain ⟨rfl, hidden⟩ := Value.read_eq_error_iff.mp failed
    exact ⟨_, _, _, hx, rfl, value, rfl, hidden⟩
  | convert value failed =>
    obtain ⟨rfl, hnone⟩ := Value.convert_eq_error failed
    exact ⟨_, _, _, hx, value, rfl, .inr ⟨rfl, hnone⟩⟩

theorem justified_of_refusal {ctx : Context} (closure : ctx.evaluate = Expr.evaluate) {f : Lambda}
    {x : Expr} {e : Failure} (hx : Occurs x f.body) (h : Refusal ctx x e) :
    e.Justified ctx.inline f := by
  cases h with
  | lambda => exact ⟨.inl rfl, _, hx, rfl⟩
  | invoke => exact ⟨.inr (.inl rfl), _, hx, rfl⟩
  | typeIs => exact ⟨.inr (.inr rfl), _, hx, rfl⟩
  | binary formless => exact ⟨formless, _, _, hx⟩
  | unary formless other => exact ⟨formless, other, _, hx⟩
  | converted failed =>
    rename_i t v
    rcases Value.convertedLiteral_eq_error failed with ⟨hs, rfl⟩ | hf | ⟨w, hw, rfl, hl⟩
    · exact ⟨t, _, v, hx, rfl, rfl, .inl ⟨rfl, hs, rfl⟩⟩
    · exact justified_of_stuck hx (.convert rfl hf)
    · exact ⟨w, rfl, .inr ⟨hl, .inl ⟨t, v, hx, hw⟩⟩⟩
  | constant failed =>
    obtain ⟨rfl, hl⟩ := Value.literalOrFail_eq_error_iff.mp failed
    exact ⟨_, rfl, .inl ⟨hx, hl⟩⟩
  | arity bound given differ => exact ⟨_, _, hx, bound, given, rfl, rfl, differ⟩
  | owner _ failed =>
    obtain ⟨y, hy, hs⟩ := stuck_of_captured closure failed
    exact justified_of_stuck ((hy.trans (.child (by simp [children]) .self)).trans hx) hs
  | read _ value _ _ failed =>
    have howner := evaluate_of_captured closure value
    rcases bind_eq_error.mp failed with hf | ⟨w, hw, hf⟩
    · exact justified_of_stuck hx (.read howner hf)
    · obtain ⟨rfl, hl⟩ := Value.literalOrFail_eq_error_iff.mp hf
      exact ⟨w, rfl, .inr ⟨hl, .inr ⟨_, _, _, hx, howner, hw⟩⟩⟩
  | receiver failed =>
    obtain ⟨y, hy, hs⟩ := stuck_of_captured closure failed
    exact justified_of_stuck ((hy.trans (.child (by simp [children]) .self)).trans hx) hs
  | static _ => exact .inl ⟨_, hx⟩
  | textless _ _ inline bare => exact .inr ⟨inline, _, _, bare, hx⟩

/-- Whatever is reported for a lambda is found in it. -/
theorem compile_error_justified (inline : Bool) (lookup : Lookup) (naming : Naming) (f : Lambda)
    (e : Failure)
    (h : f.compile (.closure inline lookup naming) = .error e) :
    e.Justified inline f := by
  rcases Lambda.fails_of_compile h with ⟨hi, hp, rfl⟩ | h
  · exact ⟨hi, rfl, rfl, hp⟩
  · obtain ⟨x, hx, hr⟩ := refusal_of_fails h
    exact justified_of_refusal rfl hx hr

def writeOnlyLambda : Lambda where
  params := ["p"]
  body :=
    let options : Value := .record ⟨⟨"Options"⟩, [⟨"limit", .property, none⟩]⟩
    let closure : Value := .record ⟨⟨"Closure"⟩, [⟨"options", .field, some options⟩]⟩
    unary (.convert .float)
      (property (field (constant closure) ⟨"Closure"⟩ "options") ⟨"Options"⟩ "limit")

theorem writeOnlyLambda_unreadable_justified :
    writeOnlyLambda.compile (.closure true .empty none) = .error (.unreadable ⟨"Options"⟩ "limit") ∧
      (Failure.unreadable ⟨"Options"⟩ "limit").Justified true writeOnlyLambda :=
  ⟨rfl, compile_error_justified true .empty none writeOnlyLambda _ rfl⟩

end LambdaScript
