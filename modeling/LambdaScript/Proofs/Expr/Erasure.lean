import LambdaScript.Proofs.Emit.Steps
import LambdaScript.Proofs.Expr.Evaluation
import LambdaScript.Proofs.Expr.Rebuild

/-! # Conversions of unknown operands

A conversion whose operand has no value before the script runs has no script of its own. Erasing
drops these conversions at every depth and leaves those of known operands. Evaluation does not see
the difference: it fails at the operand, before the conversion, and with the same failure.
-/

namespace LambdaScript.Expr

/-- The operand of a conversion that has an operand without a value, and otherwise the node. -/
def dropConversion : Expr → Expr
  | unary (.convert t) operand =>
    match operand.evaluate with
    | .ok _ => unary (.convert t) operand
    | .error _ => operand
  | e => e

/-- The expression without the conversions of operands that have no value. -/
def erase (e : Expr) : Expr := e.rebuild dropConversion

theorem dropConversion_of_ne {e : Expr} (h : ∀ t operand, e ≠ unary (.convert t) operand) :
    dropConversion e = e := by
  unfold dropConversion
  split
  · next t operand => exact absurd rfl (h t operand)
  · rfl

/-- A node that is no conversion is left, over its erased children. -/
theorem erase_of_ne {e : Expr} (h : ∀ t operand, e ≠ unary (.convert t) operand) :
    e.erase = e.mapChildren erase := by
  have hnode : ∀ t operand, e.mapChildren erase ≠ unary (.convert t) operand := by
    intro t operand heq
    cases e with
    | unary op x =>
      simp only [mapChildren, unary.injEq] at heq
      exact h t x (by rw [heq.1])
    | _ => cases heq
  exact (rebuild_eq e).trans (dropConversion_of_ne hnode)

theorem erase_convert (t : CastType) (operand : Expr) :
    (unary (.convert t) operand).erase =
      match operand.erase.evaluate with
      | .ok _ => unary (.convert t) operand.erase
      | .error _ => operand.erase := rebuild_eq _

/-- Erasing changes neither values nor failures. -/
@[simp] theorem evaluate_erase (e : Expr) : e.erase.evaluate = e.evaluate := by
  fun_induction evaluate e with
  | case1 v => rfl
  | case2 target m ih =>
    rw [erase_of_ne (by simp), mapChildren, evaluate, ih]
  | case3 t operand ih =>
    rw [erase_convert, ih]
    cases h : operand.evaluate with
    | ok v => simp only [evaluate, ih, h]
    | error f => simp only [ih, h, error_bind]
  | case4 e hconstant hmember hconvert =>
    rw [erase_of_ne fun t operand => hconvert t operand]
    have hkind : (e.mapChildren erase).kind = e.kind := kind_mapChildren erase e
    rw [← hkind]
    cases e with
    | constant v => exact absurd rfl (hconstant v)
    | member target m => exact absurd rfl (hmember target m)
    | unary op operand =>
      cases op with
      | convert t => exact absurd rfl (hconvert t operand)
      | _ => rfl
    | _ => rfl

theorem erase_convert_of_ok {t : CastType} {operand : Expr} {v : Value}
    (h : operand.evaluate = .ok v) :
    (unary (.convert t) operand).erase = unary (.convert t) operand.erase := by
  rw [erase_convert, evaluate_erase, h]

theorem erase_convert_of_error {t : CastType} {operand : Expr} {f : Failure}
    (h : operand.evaluate = .error f) : (unary (.convert t) operand).erase = operand.erase := by
  rw [erase_convert, evaluate_erase, h]

/-- Nothing is dropped from an expression that has a value. -/
theorem erase_of_evaluate {e : Expr} {v : Value} (h : e.evaluate = .ok v) : e.erase = e := by
  fun_induction evaluate e generalizing v with
  | case1 c => rfl
  | case2 target m ih =>
    obtain ⟨owner, howner, -⟩ := bind_eq_ok.mp h
    rw [erase_of_ne (by simp), mapChildren, ih howner]
  | case3 t operand ih =>
    obtain ⟨w, hw, -⟩ := bind_eq_ok.mp h
    rw [erase_convert_of_ok hw, ih hw]
  | case4 e => cases h

theorem captured_erase {ctx : Context} (closure : ctx.evaluate = evaluate) (e : Expr) :
    ctx.captured e.erase = ctx.captured e := by
  rw [Context.captured, Context.captured, closure, evaluate_erase]

theorem ConvertedParameter.erase_eq {name : String} {e : Expr} (h : ConvertedParameter name e) :
    e.erase = parameter name := by
  induction h with
  | bare => rfl
  | convert type inner ih => rw [erase_convert_of_error inner.evaluate_eq, ih]

/-- Erasing leaves a bare parameter of a parameter under conversions, and of nothing else. -/
theorem isParameter_erase (e : Expr) : e.erase.isParameter = e.isConvertedParameter := by
  fun_induction isConvertedParameter e with
  | case1 name => rfl
  | case2 t operand ih =>
    cases h : operand.evaluate with
    | error f => rw [erase_convert_of_error h, ih]
    | ok v =>
      rw [erase_convert_of_ok h, ← ih, erase_of_evaluate h]
      cases operand with
      | parameter name => cases h
      | _ => rfl
  | case3 e hparameter hconvert =>
    rw [erase_of_ne fun t operand => hconvert t operand]
    cases e with
    | parameter name => exact absurd rfl (hparameter name)
    | _ => rfl

/-- Every conversion that is left has an operand with a value. -/
theorem known_of_occurs_erase {e x : Expr} {t : CastType}
    (h : Occurs (unary (.convert t) x) e.erase) : ∃ v, x.evaluate = .ok v := by
  induction e using children_induction with
  | step e ih =>
  by_cases he : ∃ t operand, e = unary (.convert t) operand
  · obtain ⟨t', operand, rfl⟩ := he
    have hoperand := ih operand (by simp [children])
    cases hv : operand.evaluate with
    | error f =>
      rw [erase_convert_of_error hv] at h
      exact hoperand h
    | ok v =>
      rw [erase_convert_of_ok hv] at h
      cases h with
      | self => exact ⟨v, by rw [evaluate_erase, hv]⟩
      | child mem inner =>
        rw [children, List.mem_singleton] at mem
        subst mem
        exact hoperand inner
  · have hne : ∀ t operand, e ≠ unary (.convert t) operand := by simpa using he
    rw [erase_of_ne hne] at h
    generalize hnode : e.mapChildren erase = node at h
    cases h with
    | self =>
      cases e with
      | unary op operand =>
        simp only [mapChildren, unary.injEq] at hnode
        exact absurd (by rw [hnode.1]) (hne t operand)
      | _ => cases hnode
    | child mem inner =>
      rw [← hnode, children_mapChildren] at mem
      obtain ⟨c, hc, rfl⟩ := List.mem_map.mp mem
      exact ih c hc inner

end LambdaScript.Expr
