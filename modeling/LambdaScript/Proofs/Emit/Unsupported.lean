import LambdaScript.Proofs.Emit.Failing
import LambdaScript.Proofs.Expr.Evaluation

/-! # Unsupported nodes are never passed over

Not every child of a node is written: a captured owner is evaluated instead, and the receiver of a
call may be replaced by `this`. Without annotated methods, every child that is not written has a
value, and what has a value contains no unsupported node. So a lambda that is written contains none
anywhere.
-/

namespace LambdaScript
namespace Expr

/-- Nodes without a form in the script: nested lambdas, invocations, type tests, shifts and checked
arithmetic, and all operators with one operand but conversions, lengths and assignments. -/
def Unsupported : Expr → Prop
  | lambda _ _ | invoke _ _ | typeIs _ _ => True
  | binary op _ _ =>
    op ∈ [.leftShift, .leftShiftAssign, .rightShift, .rightShiftAssign, .addChecked,
      .subtractChecked, .multiplyChecked]
  | unary op _ =>
    (∀ t, op ≠ .convert t) ∧
      op ∉ [.arrayLength, .preIncrementAssign, .preDecrementAssign, .postIncrementAssign,
        .postDecrementAssign]
  | _ => False

variable {ctx : Context}

theorem refusal_of_unsupported {x : Expr} (h : x.Unsupported) : ∃ f, Refusal ctx x f := by
  cases x with
  | lambda params body => exact ⟨_, .lambda⟩
  | invoke target args => exact ⟨_, .invoke⟩
  | typeIs operand type => exact ⟨_, .typeIs⟩
  | binary op left right =>
    have formless : op.form? = none := by
      cases op <;> simp_all [Unsupported, BinaryOp.form?, BinaryOp.symbol?]
    exact ⟨_, .binary formless⟩
  | unary op operand =>
    have formless : op.affixes? = none := by
      cases op <;> simp_all [Unsupported, UnaryOp.affixes?]
    exact ⟨_, .unary formless h.1⟩
  | _ => exact h.elim

theorem Known.supported {x : Expr} (h : Known x) : ¬ x.Unsupported := by
  cases h with
  | constant v => exact id
  | member target m => exact id
  | convert t operand => exact fun h => h.1 t rfl

def Supported (e : Expr) : Prop := ∀ x, Occurs x e → ¬ x.Unsupported

theorem supported_of_evaluate {e : Expr} {v : Value} (h : e.evaluate = .ok v) : e.Supported :=
  fun _ hx => (known_of_evaluate h hx).supported

theorem supported_parameter (name : String) : (parameter name).Supported := by
  intro x hx
  cases hx with
  | self => exact id
  | child mem _ => simp [children] at mem

/-- A call by annotation of a method that has none is one on a captured value. -/
theorem captured_of_resolveMethod {lookup : Lookup} {m : Method} {owner : Option Value}
    {r : Reference} (plain : lookup.method m = none)
    (h : lookup.resolveMethod m (owner.map Value.type) = some r) : ∃ v, owner = some v := by
  cases owner with
  | none => simp [Lookup.resolveMethod, plain] at h
  | some v => exact ⟨v, rfl⟩

/-- Of the children of a node that is written, those that are not written have a value or are the
parameter. -/
theorem written_or_supported (closure : ctx.evaluate = evaluate)
    (plain : ∀ m, ctx.lookup.method m = none) {c e : Expr} {r : Option String}
    (h : (emit ctx e).Returns r) (mem : c ∈ e.children) : c ∈ ctx.written e ∨ c.Supported := by
  have accepted := (settled_of_returns h).accepted
  cases e with
  | member target m =>
    rw [children, List.mem_singleton] at mem
    subst mem
    cases hi : ctx.inline && c.isParameter with
    | true =>
      cases c with
      | parameter name => exact .inr (supported_parameter name)
      | _ => simp [isParameter] at hi
    | false =>
      cases hc : ctx.captured c with
      | error f => exact absurd (.owner hi hc) (accepted f)
      | ok owner =>
        cases owner with
        | none => exact .inl (by simp [Context.written, hi, hc])
        | some v => exact .inr (supported_of_evaluate (evaluate_of_captured closure hc))
  | memberInit base bindings =>
    rw [children, List.mem_append] at mem
    rcases mem with mem | mem
    · exact .inl (List.mem_append_left _ mem)
    · by_cases hb : bindings = []
      · exact .inl (by simp [Context.written, hb, mem])
      · by_cases hl : base.members.length = base.args.length
        · exact .inl (by simp [Context.written, hl, mem])
        · exact absurd (.arity hb (List.ne_nil_of_mem mem) hl) (accepted _)
  | binary op left right =>
    cases hop : op.form? with
    | none => exact absurd (.binary hop) (accepted _)
    | some form => exact .inl (by simpa [Context.written, hop, children] using mem)
  | unary op operand =>
    rw [children, List.mem_singleton] at mem
    subst mem
    rcases unary_forms op c with ⟨t, v, rfl, rfl⟩ | ⟨t, rfl, hv⟩ | hop
    · exact .inr (supported_of_evaluate rfl)
    · exact .inl (by simp [Context.written_convert hv])
    · cases ha : op.affixes? with
      | none => exact absurd (.unary ha hop) (accepted _)
      | some affixes => exact .inl (by simp [Context.written_unary hop, ha])
  | call target m args =>
    cases target with
    | none =>
      cases hm : ctx.lookup.resolveMethod m none with
      | none => exact absurd (.static hm) (accepted _)
      | some reference => exact .inl (by simpa [Context.written, hm, children] using mem)
    | some target =>
      cases hc : ctx.captured target with
      | error f => exact absurd (.receiver hc) (accepted f)
      | ok owner =>
        cases hm : ctx.lookup.resolveMethod m (owner.map Value.type) with
        | none => exact .inl (by simpa [Context.written, hc, hm, children] using mem)
        | some reference =>
          rcases List.mem_cons.mp mem with rfl | mem
          · obtain ⟨v, rfl⟩ := captured_of_resolveMethod (plain m) hm
            exact .inr (supported_of_evaluate (evaluate_of_captured closure hc))
          · exact .inl (by simpa [Context.written, hc, hm] using mem)
  | lambda params body => exact absurd .lambda (accepted _)
  | invoke target args => exact absurd .invoke (accepted _)
  | typeIs operand type => exact absurd .typeIs (accepted _)
  | _ => exact .inl mem

/-- Whatever is written, without annotated methods, has no unsupported node. -/
theorem supported_of_returns (closure : ctx.evaluate = evaluate)
    (plain : ∀ m, ctx.lookup.method m = none) {e : Expr} {r : Option String}
    (h : (emit ctx e).Returns r) : e.Supported := by
  intro x hx
  induction hx generalizing r with
  | self =>
    intro hx
    obtain ⟨f, hf⟩ := refusal_of_unsupported hx
    exact (settled_of_returns h).accepted f hf
  | child mem inner ih =>
    rcases written_or_supported closure plain h mem with hw | hs
    · obtain ⟨s, hs⟩ := (settled_of_returns h).children _ hw
      exact ih hs
    · exact hs x inner

end Expr

/-- A lambda with an unsupported node, however deep, has no script: without annotated methods it
fails in both modes, under every label and every annotation of types and members. -/
theorem compile_unsupported (inline : Bool) (lookup : Lookup) (naming : Naming) (f : Lambda)
    (plain : ∀ m, lookup.method m = none) (x : Expr) (hx : x.Occurs f.body)
    (unsupported : x.Unsupported) :
    ∃ e, f.compile (.closure inline lookup naming) = .error e := by
  cases h : f.compile (.closure inline lookup naming) with
  | error e => exact ⟨e, rfl⟩
  | ok t =>
    obtain ⟨r, hr⟩ := Lambda.returns_of_compile h
    exact absurd unsupported (Expr.supported_of_returns rfl plain hr x hx)

open LambdaScript.Expr

/-- A lambda that calls a method of a captured page with a shift inside its argument. -/
def shiftedPageLambda : Lambda where
  params := ["p"]
  body := call (some (constant (.record ⟨⟨"Page"⟩, []⟩))) ⟨⟨"Page"⟩, "render"⟩
    [newArray [binary .leftShift (parameter "p") (constant (.integer 1))]]

theorem shiftedPageLambda_unsupported :
    Occurs (binary .leftShift (parameter "p") (constant (.integer 1))) shiftedPageLambda.body ∧
      ∃ e, shiftedPageLambda.compile
        (.closure true ⟨fun _ => some .this, fun _ => none, fun _ => none⟩ none) = .error e := by
  have hshift : Occurs (binary .leftShift (parameter "p") (constant (.integer 1)))
      shiftedPageLambda.body := .child (.tail _ (.head _)) (.child (.head _) .self)
  refine ⟨hshift, compile_unsupported true _ none _ (fun m => rfl) _ hshift ?_⟩
  simp [Unsupported]

end LambdaScript
