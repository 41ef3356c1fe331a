import LambdaScript.Proofs.Emit.Outcome
import LambdaScript.Proofs.Expr.Nodes

/-! # Values known before the script runs

An expression that has a value consists of constants, member accesses and conversions only. One that
has none either does not reduce to a constant, or has a node that cannot be read or converted. The
causes at a value are exact: which member is missing, which conversion does not exist, which kind
has no literal.
-/

namespace LambdaScript

/-- The context of the evaluator for captured values, in one of the two modes. -/
def Context.closure (inline : Bool) (lookup : Lookup) (naming : Naming) : Context :=
  { inline := inline, lookup := lookup, naming := naming }

namespace Context
variable (inline : Bool) (lookup : Lookup) (naming : Naming)

@[simp] theorem inline_closure : (closure inline lookup naming).inline = inline := rfl

@[simp] theorem lookup_closure : (closure inline lookup naming).lookup = lookup := rfl

@[simp] theorem label_closure (m : Member) (simple : Bool) :
    (closure inline lookup naming).label m simple = naming.label m simple := rfl

end Context

/-- The type inside all nullable ones, which a failed conversion names. -/
def CastType.core : CastType → CastType
  | nullable inner => inner.core
  | t => t

namespace Value

/-- A name cannot be read: the value is no record, or the first member of that name has no value. -/
def Hides (v : Value) (name : String) : Prop := ∀ r, v = record r → r.get? name = none

theorem read_eq_error_iff {v : Value} {m : Member} {f : Failure} :
    v.read m = .error f ↔ f = .unreadable v.type m.name ∧ v.Hides m.name := by
  cases v with
  | record r =>
    cases hr : r.get? m.name with
    | none => simp [read, hr, Hides, type, eq_comm]
    | some w => simp [read, hr, Hides]
  | _ => simp [read, Hides, type, eq_comm]

theorem convert_eq_error {v : Value} {t : CastType} {f : Failure} (h : v.convert t = .error f) :
    f = .conversion v.kind t.core ∧ v.convert? t.core = none := by
  induction t with
  | nullable inner ih =>
    cases v with
    | null => simp [convert] at h
    | _ => exact ih h
  | _ =>
    simp only [convert] at h
    split at h
    · cases h
    · next hnone =>
      cases h
      exact ⟨rfl, hnone⟩

theorem literalOrFail_eq_error_iff {v : Value} {records : Bool} {f : Failure} :
    v.literalOrFail records = .error f ↔ f = .noLiteral v.kind ∧ v.literal records = none := by
  cases h : v.literal records with
  | some t => simp [literalOrFail, h]
  | none => simp [literalOrFail, h, eq_comm]

/-- A constant is not written under a conversion if the target is not simple, the conversion does
not exist, or its result has no literal. -/
theorem convertedLiteral_eq_error {v : Value} {t : CastType} {f : Failure}
    (h : v.convertedLiteral t = .error f) :
    (t.isSimple = false ∧ f = .conversion v.kind t) ∨ v.convert t = .error f ∨
      ∃ w, v.convert t = .ok w ∧ f = .noLiteral w.kind ∧ w.literal false = none := by
  unfold convertedLiteral at h
  split at h
  · rcases bind_eq_error.mp h with h | ⟨w, hw, h⟩
    · exact .inr (.inl h)
    · exact .inr (.inr ⟨w, hw, literalOrFail_eq_error_iff.mp h⟩)
  · next hs =>
    cases h
    exact .inl ⟨Bool.eq_false_iff.mpr hs, rfl⟩

end Value

namespace Expr

/-- A constant, a member access or a conversion: the nodes that evaluation knows. -/
inductive Known : Expr → Prop
  | constant (v : Value) : Known (constant v)
  | member (target : Expr) (m : Member) : Known (member target m)
  | convert (t : CastType) (operand : Expr) : Known (unary (.convert t) operand)

/-- All nodes of an expression that has a value are known to evaluation. -/
theorem known_of_evaluate {x e : Expr} {v : Value} (h : e.evaluate = .ok v) (hx : Occurs x e) :
    Known x := by
  induction hx generalizing v with
  | self =>
    unfold evaluate at h
    split at h
    · exact .constant _
    · exact .member _ _
    · exact .convert _ _
    · cases h
  | child mem inner ih =>
    unfold evaluate at h
    split at h
    · simp [children] at mem
    · next target m =>
      obtain ⟨w, hw, -⟩ := bind_eq_ok.mp h
      rw [children, List.mem_singleton] at mem
      subst mem
      exact ih hw
    · next t operand =>
      obtain ⟨w, hw, -⟩ := bind_eq_ok.mp h
      rw [children, List.mem_singleton] at mem
      subst mem
      exact ih hw
    · cases h

/-- A parameter under conversions is known to be no constant. -/
theorem ConvertedParameter.evaluate_eq {name : String} {e : Expr} (h : ConvertedParameter name e) :
    e.evaluate = .error (.notConstant .parameter) := by
  induction h with
  | bare => rfl
  | convert type _ ih => rw [evaluate, ih, error_bind]

theorem captured_of_notConstant {ctx : Context} (closure : ctx.evaluate = evaluate) {e : Expr}
    {k : ExprKind} (h : e.evaluate = .error (.notConstant k)) : ctx.captured e = .ok none := by
  rw [Context.captured, closure, h]

/-- A member of what is no constant is written as a path, and only its own label takes the hint. -/
theorem emit_member_of_notConstant {ctx : Context} (closure : ctx.evaluate = evaluate)
    {target : Expr} {k : ExprKind} (h : target.evaluate = .error (.notConstant k)) (m : Member) :
    emit ctx (member target m) = do
      let simple ← Emit.takeHint
      let object ← emit ctx target
      return some (pathText object (ctx.label m simple)) := by
  rw [emit]
  congr 1
  funext simple
  split
  · -- the parameter itself has no text inline, so that its path is the label alone
    next hi =>
    rw [Bool.and_eq_true] at hi
    cases target with
    | parameter name =>
      rw [emit, if_pos hi.1]
      rfl
    | _ => cases hi.2
  · rw [captured_of_notConstant closure h]
    rfl

/-- Evaluation gets to a node and fails there: its operand has a value that cannot be read or
converted. -/
inductive Stuck (f : Failure) : Expr → Prop
  | read {target : Expr} {m : Member} {v : Value} (value : target.evaluate = .ok v)
      (failed : v.read m = .error f) : Stuck f (member target m)
  | convert {t : CastType} {operand : Expr} {v : Value} (value : operand.evaluate = .ok v)
      (failed : v.convert t = .error f) : Stuck f (unary (.convert t) operand)

/-- Without a value, an expression does not reduce to a constant or has a node that is stuck. -/
theorem stuck_of_evaluate {e : Expr} {f : Failure} (h : e.evaluate = .error f) :
    (∃ k, f = .notConstant k) ∨ ∃ x, Occurs x e ∧ Stuck f x := by
  fun_induction evaluate e with
  | case1 v => cases h
  | case2 target m ih =>
    rcases bind_eq_error.mp h with h | ⟨v, hv, h⟩
    · rcases ih h with hk | ⟨x, ho, hs⟩
      · exact .inl hk
      · exact .inr ⟨x, .child (by simp [children]) ho, hs⟩
    · exact .inr ⟨_, .self, .read hv h⟩
  | case3 t operand ih =>
    rcases bind_eq_error.mp h with h | ⟨v, hv, h⟩
    · rcases ih h with hk | ⟨x, ho, hs⟩
      · exact .inl hk
      · exact .inr ⟨x, .child (by simp [children]) ho, hs⟩
    · exact .inr ⟨_, .self, .convert hv h⟩
  | case4 e =>
    cases h
    exact .inl ⟨_, rfl⟩

/-- A captured value that fails does so at a stuck node: that an expression is no constant is not
a failure there. -/
theorem stuck_of_captured {ctx : Context} (closure : ctx.evaluate = evaluate) {e : Expr}
    {f : Failure} (h : ctx.captured e = .error f) : ∃ x, Occurs x e ∧ Stuck f x := by
  unfold Context.captured at h
  rw [closure] at h
  split at h
  · cases h
  · cases h
  · next hk he =>
    cases h
    rcases stuck_of_evaluate he with ⟨k, rfl⟩ | hs
    · exact absurd rfl (hk k)
    · exact hs

theorem captured_of_evaluate {ctx : Context} (closure : ctx.evaluate = evaluate) {e : Expr}
    {v : Value} (h : e.evaluate = .ok v) : ctx.captured e = .ok (some v) := by
  rw [Context.captured, closure, h]

theorem evaluate_of_captured {ctx : Context} (closure : ctx.evaluate = evaluate) {e : Expr}
    {v : Value} (h : ctx.captured e = .ok (some v)) : e.evaluate = .ok v := by
  unfold Context.captured at h
  rw [closure] at h
  split at h
  · next he =>
    cases h
    exact he
  · cases h
  · cases h

end Expr
end LambdaScript
