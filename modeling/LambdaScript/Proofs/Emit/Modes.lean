import LambdaScript.Proofs.Emit.Failing
import LambdaScript.Proofs.Emit.Inline

/-! # The two modes of a script

An expression is compared in both modes of one context, without the hint. The modes refuse the same
nodes but one: a method that is called on the parameter itself has no inline form.
-/

namespace LambdaScript
namespace Expr
variable {lookup : Lookup} {naming : Naming}

/-- What is refused inline is refused in a function too, or calls a method on the parameter. -/
theorem refusal_of_inline {e : Expr} {f : Failure}
    (h : Refusal (.closure true lookup naming) e f) :
    Refusal (.closure false lookup naming) e f ∨
      ∃ target m args, e = call (some target) m args ∧ target.IsConvertedParameter ∧
        f = .hostMethod m := by
  cases h with
  | lambda => exact .inl .lambda
  | invoke => exact .inl .invoke
  | typeIs => exact .inl .typeIs
  | binary formless => exact .inl (.binary formless)
  | unary formless other => exact .inl (.unary formless other)
  | converted failed => exact .inl (.converted failed)
  | constant failed => exact .inl (.constant failed)
  | arity bound given differ => exact .inl (.arity bound given differ)
  | owner _ failed => exact .inl (.owner rfl failed)
  | read _ value type plain failed => exact .inl (.read rfl value type plain failed)
  | receiver failed => exact .inl (.receiver failed)
  | static plain => exact .inl (.static plain)
  | textless _ _ _ bare => exact .inr ⟨_, _, _, rfl, bare, rfl⟩

theorem written_of_inline {c e : Expr}
    (h : c ∈ Context.written (.closure true lookup naming) e) :
    c ∈ Context.written (.closure false lookup naming) e := by
  cases e with
  | member target m =>
    rw [Context.written] at h
    split at h
    · simp at h
    · exact h
  | _ =>
    rw [written_of_mode (by simp)]
    exact h

/-- Only a method that is called on the parameter keeps an expression from being written inline
that can be written in a function. -/
theorem fails_inline {e : Expr} {f : Failure} {r : Option String}
    (h : (emit (.closure true lookup naming) e).Fails f)
    (hr : (emit (.closure false lookup naming) e).Returns r) :
    ∃ target m args, Occurs (call (some target) m args) e ∧ target.IsConvertedParameter ∧
      f = .hostMethod m := by
  induction e using children_induction generalizing r with
  | step e ih =>
  rcases emit_fails h with hrefusal | ⟨c, hc, hf⟩
  · rcases refusal_of_inline hrefusal with hrefusal | ⟨target, m, args, rfl, bare, rfl⟩
    · exact absurd hrefusal ((settled_of_returns hr).accepted f)
    · exact ⟨target, m, args, .self, bare, rfl⟩
  · have mem := Context.mem_children_of_mem_written hc
    obtain ⟨s, hs⟩ := (settled_of_returns hr).children c (written_of_inline hc)
    obtain ⟨target, m, args, hx, bare, rfl⟩ := ih c mem hf hs
    exact ⟨target, m, args, .child mem hx, bare, rfl⟩

theorem unarmed_inline_eq_none {e : Expr} :
    unarmed (.closure true lookup naming) e = .ok none ↔ e.IsConvertedParameter := by
  constructor
  · exact fun h => (isConvertedParameter_of_unarmed h).2
  · rintro ⟨name, h⟩
    exact h.unarmed_eq

end Expr

open LambdaScript.Expr

/-- An inline expression is its function without the parameter. What can be written inline can be
written in a function; both texts are made of fragments that depend neither on the mode nor on the
names of the parameters, all of them in the function and those that stand for no parameter inline;
only the parameter under conversions has no inline text; and only a method that is called on the
parameter keeps an expression from being written inline. -/
theorem inline_drops_parameter (lookup : Lookup) (naming : Naming) (e : Expr) :
    (∀ r, unarmed (.closure true lookup naming) e = .ok r →
      ∃ t, unarmed (.closure false lookup naming) e = .ok (some t)) ∧
    (∀ r, unarmed (.closure true lookup naming) e = .ok r →
      ∃ fs, Fragment.Named (fun name => Occurs (parameter name) e) fs ∧
        ∀ names : String → String,
          unarmed (.closure false lookup naming) (e.rename names) =
            .ok (some (Fragment.concat (some names) fs)) ∧
          ∃ s, unarmed (.closure true lookup naming) (e.rename names) = .ok s ∧
            s.getD "" = Fragment.concat (some names) (fs.filter fun f => !f.isMarked)) ∧
    (unarmed (.closure true lookup naming) e = .ok none ↔ e.IsConvertedParameter) ∧
    (∀ f r, unarmed (.closure true lookup naming) e = .error f →
      unarmed (.closure false lookup naming) e = .ok r →
        ∃ target m args, Occurs (call (some target) m args) e ∧ target.IsConvertedParameter ∧
          f = .hostMethod m) := by
  refine ⟨fun r h => ?_, fun r h => ?_, unarmed_inline_eq_none, fun f r hf hr => ?_⟩
  · obtain ⟨fs, hfs⟩ := writable e r h
    have hfull := hfs.full id
    rw [rename_id] at hfull
    exact ⟨_, hfull⟩
  · obtain ⟨fs, hfs⟩ := writable e r h
    refine ⟨fs, hfs.named, fun names => ⟨hfs.full names, r, ?_, ?_⟩⟩
    · rw [unarmed_inline_rename, h]
    · rw [hfs.cut, Fragment.concat_none names]
  · exact fails_inline (Emit.fails_of_result hf) (Emit.returns_of_result hr)

theorem inline_drops_parameter_sum :
    unarmed (.closure true .empty none)
        (binary .add (property (unary (.convert .float) (parameter "p")) ⟨"Item"⟩ "price")
          (parameter "p")) = .ok (some "price+") ∧
      ∃ t, unarmed (.closure false .empty none)
        (binary .add (property (unary (.convert .float) (parameter "p")) ⟨"Item"⟩ "price")
          (parameter "p")) = .ok (some t) :=
  ⟨rfl, (inline_drops_parameter .empty none _).1 _ rfl⟩

end LambdaScript
