import LambdaScript.Proofs.Emit.Steps
import LambdaScript.Proofs.Expr.Evaluation
import LambdaScript.Proofs.Value.Literal

/-! # Known values in the script

An expression that has a value is a constant under member accesses and conversions. Without
annotations, a constant and a member access are written as the literal of their value. Conversions
around them are another matter: one directly around a constant is carried out, if its target is
simple, and all others are left out, so that the text is the literal of the value before them.
-/

namespace LambdaScript
namespace Value

theorem literalOrFail_eq_ok_iff {v : Value} {records : Bool} {t : String} :
    v.literalOrFail records = .ok t ↔ v.literal records = some t := by
  cases h : v.literal records with
  | some s => simp [literalOrFail, h]
  | none => simp [literalOrFail, h]

end Value

namespace Expr

/-- What is written of an expression: conversions on the outside are left out, but for one directly
around a constant. -/
def shown : Expr → Expr
  | unary (.convert t) (constant v) => unary (.convert t) (constant v)
  | unary (.convert _) operand => operand.shown
  | e => e

/-- Whether the value of an expression is written as it is: a constant, a member access, or the
conversion of a constant to a simple type. -/
def isDirect : Expr → Bool
  | constant _ => true
  | member _ _ => true
  | unary (.convert t) (constant _) => t.isSimple
  | _ => false

theorem emit_shown {ctx : Context} (e : Expr) : emit ctx e.shown = emit ctx e := by
  fun_induction shown e with
  | case1 t v => rfl
  | case2 t operand hne ih => rw [ih, emit_convert hne]
  | case3 e => rfl

theorem shown_of_isDirect {e : Expr} (h : e.isDirect = true) : e.shown = e := by
  unfold isDirect at h
  split at h
  · rfl
  · rfl
  · rfl
  · cases h

/-- What is shown of an expression with a value has one too, and is a constant, the conversion of a
constant or a member access. -/
theorem shown_of_evaluate {e : Expr} {v : Value} (h : e.evaluate = .ok v) :
    ∃ w, e.shown.evaluate = .ok w ∧
      ((e = constant w ∧ e.shown = e) ∨
        (∃ t c, e.shown = unary (.convert t) (constant c) ∧ c.convert t = .ok w) ∨
        ∃ target m owner, e.shown = member target m ∧ target.evaluate = .ok owner ∧
          owner.read m = .ok w) := by
  fun_induction shown e generalizing v with
  | case1 t c => exact ⟨v, h, .inr (.inl ⟨t, c, rfl, h⟩)⟩
  | case2 t operand hne ih =>
    obtain ⟨u, hu, -⟩ := bind_eq_ok.mp h
    obtain ⟨w, hw, hform⟩ := ih hu
    refine ⟨w, hw, hform.imp_left fun hconstant => ?_⟩
    exact absurd hconstant.1 (hne w)
  | case3 e hconstant hconvert =>
    refine ⟨v, h, ?_⟩
    unfold evaluate at h
    split at h
    · cases h
      exact .inl ⟨rfl, rfl⟩
    · next target m =>
      obtain ⟨owner, howner, hread⟩ := bind_eq_ok.mp h
      exact .inr (.inr ⟨target, m, owner, rfl, howner, hread⟩)
    · next t operand => exact absurd rfl (hconvert t operand)
    · cases h

theorem some_map_eq_ok_iff {x : Except Failure String} {t : String} :
    some <$> x = .ok (some t) ↔ x = .ok t := by
  cases x <;> simp [Functor.map, Except.map]

section
variable (inline : Bool) (naming : Naming) (hint : Bool)

/-- Without annotations a member of a captured value is its literal. -/
theorem result_member_of_evaluate {target : Expr} {owner : Value}
    (value : target.evaluate = .ok owner) (m : Member) :
    (emit (.closure inline .empty naming) (member target m)).result hint =
      some <$> (owner.read m >>= Value.literalOrFail false) := by
  have hparameter : target.isParameter = false := by
    cases target with
    | parameter name => cases value
    | _ => rfl
  have hcaptured : Context.captured (.closure inline .empty naming) target = .ok (some owner) :=
    captured_of_evaluate rfl value
  have hmember (simple : Bool) :
      Context.capturedMember (.closure inline .empty naming) owner m simple =
        owner.read m >>= Value.literalOrFail false := rfl
  rw [emit]
  simp only [hparameter, Bool.and_false, Bool.false_eq_true, if_false, hcaptured,
    Emit.ofExcept_ok, pure_bind, hmember]
  cases owner.read m >>= Value.literalOrFail false <;> rfl

theorem result_constant (v : Value) :
    (emit (.closure inline .empty naming) (constant v)).result hint =
      some <$> v.literalOrFail true := by
  rw [emit]
  cases v.literalOrFail true <;> rfl

theorem result_convert_constant (t : CastType) (v : Value) :
    (emit (.closure inline .empty naming) (unary (.convert t) (constant v))).result hint =
      some <$> v.convertedLiteral t := by
  rw [emit]
  cases v.convertedLiteral t <;> rfl

end
end Expr

open LambdaScript.Expr

/-- When a known value is written as its literal. An expression whose value has a literal is written
as that literal if it is a constant, a member access, or the conversion of a constant to a simple
type. In general it is so exactly if what is shown of it is one of these and has a value with the
same literal: conversions of anything but a constant are not carried out, and a constant is refused
under the conversion to a type that is not simple. -/
theorem evaluated_written_iff (inline : Bool) (naming : Naming) (hint : Bool) (e : Expr) (v : Value)
    (t : String) (value : e.evaluate = .ok v) (literal : v.literal false = some t) :
    (e.isDirect = true →
      (emit (.closure inline .empty naming) e).result hint = .ok (some t)) ∧
    (∀ target c, e.shown = unary (.convert target) (constant c) → target.isSimple = false →
      (emit (.closure inline .empty naming) e).result hint =
        .error (.conversion c.kind target)) ∧
    ∃ w, e.shown.evaluate = .ok w ∧
      ((emit (.closure inline .empty naming) e).result hint = .ok (some t) ↔
        e.shown.isDirect = true ∧ w.literal false = some t) := by
  obtain ⟨w, hw, hform⟩ := shown_of_evaluate value
  have hiff : (emit (.closure inline .empty naming) e).result hint = .ok (some t) ↔
      e.shown.isDirect = true ∧ w.literal false = some t := by
    rw [← emit_shown]
    rcases hform with ⟨rfl, hshown⟩ | ⟨target, c, hshown, hconvert⟩ |
      ⟨target, m, owner, hshown, howner, hread⟩
    · cases value
      rw [hshown, result_constant, some_map_eq_ok_iff, Value.literalOrFail_eq_ok_iff]
      simp [isDirect, literal, Value.literal_true_of_false literal]
    · rw [hshown, result_convert_constant, some_map_eq_ok_iff, Value.convertedLiteral, hconvert]
      by_cases hsimple : target.isSimple = true
      · simp [isDirect, hsimple, Value.literalOrFail_eq_ok_iff]
      · simp [isDirect, hsimple]
    · rw [hshown, result_member_of_evaluate inline naming hint howner, hread, some_map_eq_ok_iff,
        ok_bind, Value.literalOrFail_eq_ok_iff]
      simp [isDirect]
  refine ⟨fun hdirect => ?_, fun target c hshown hsimple => ?_, w, hw, hiff⟩
  · rw [shown_of_isDirect hdirect, value] at hw
    cases hw
    rw [hiff, shown_of_isDirect hdirect]
    exact ⟨hdirect, literal⟩
  · rw [← emit_shown, hshown, result_convert_constant, Value.convertedLiteral, hsimple]
    rfl

/-- The conversion of a captured flag, which is the number one, to a truth value. -/
def flagConversion : Expr :=
  unary (.convert .boolean)
    (field (constant (.record ⟨⟨"Closure"⟩, [⟨"flag", .field, some (.integer 1)⟩]⟩)) ⟨"Closure"⟩
      "flag")

def nullableConversion : Expr :=
  unary (.convert (.nullable (.nullable .integer))) (constant (.integer 5))

/-- Two values that evaluation converts and the script does not: the flag is true and written as
one, and the constant is five and refused. -/
theorem conversions_not_carried_out :
    (flagConversion.evaluate = .ok (.boolean true) ∧
      (Value.boolean true).literal false = some "true" ∧
      (emit (.closure false .empty none) flagConversion).result false = .ok (some "1")) ∧
    nullableConversion.evaluate = .ok (.integer 5) ∧
      (Value.integer 5).literal false = some "5" ∧
      (emit (.closure false .empty none) nullableConversion).result false =
        .error (.conversion .integer (.nullable (.nullable .integer))) :=
  ⟨⟨rfl, rfl, rfl⟩, rfl, rfl, rfl⟩

theorem evaluated_written_flag :
    (emit (.closure true .empty none) (unary (.convert .integer) (constant (.string " 7")))).result
        true = .ok (some "7") ∧
      ¬ (emit (.closure true .empty none) flagConversion).result true = .ok (some "true") := by
  constructor
  · exact (evaluated_written_iff true none true _ (.integer 7) "7" rfl rfl).1 rfl
  · obtain ⟨-, -, w, hw, hiff⟩ :=
      evaluated_written_iff true none true flagConversion (.boolean true) "true" rfl rfl
    cases hw
    rw [hiff]
    rintro ⟨-, h⟩
    exact absurd h (by decide)

end LambdaScript
