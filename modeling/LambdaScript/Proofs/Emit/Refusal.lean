import LambdaScript.Proofs.Emit.Outcome
import LambdaScript.Proofs.Expr.Nodes

/-! # What a node is refused for

Writing a node fails for a cause at the node itself, or because one of the children that are written
for it fails. Both are said once, for every evaluator: `Refusal` lists the causes at a node and
`Context.written` the children that are written.
-/

namespace LambdaScript

/-- The children that are written for a node. A captured owner is not, nor is the target of a call
by annotation, nor the operands of an operator that has no form. -/
def Context.written (ctx : Context) : Expr → List Expr
  | .member target _ =>
    if ctx.inline && target.isParameter then [] else
      match ctx.captured target with
      | .ok none => [target]
      | _ => []
  | .memberInit base bindings =>
    bindings.map Binding.value ++
      if bindings.isEmpty || base.members.length = base.args.length then base.args else []
  | .binary op left right => if op.form?.isSome then [left, right] else []
  | .unary (.convert _) (.constant _) => []
  | .unary (.convert _) operand => [operand]
  | .unary op operand => if op.affixes?.isSome then [operand] else []
  | .call none m args => if (ctx.lookup.resolveMethod m none).isSome then args else []
  | .call (some target) m args =>
    match ctx.captured target with
    | .ok owner =>
      if (ctx.lookup.resolveMethod m (owner.map Value.type)).isSome then args else target :: args
    | .error _ => []
  | .lambda _ _ | .invoke _ _ | .typeIs _ _ => []
  | e => e.children

/-- The causes for which a node itself is refused. -/
inductive Refusal (ctx : Context) : Expr → Failure → Prop
  | lambda {params body} : Refusal ctx (.lambda params body) (.unsupportedExpr .lambda)
  | invoke {target args} : Refusal ctx (.invoke target args) (.unsupportedExpr .invoke)
  | typeIs {operand type} : Refusal ctx (.typeIs operand type) (.unsupportedExpr .typeIs)
  | binary {op left right} (formless : op.form? = none) :
      Refusal ctx (.binary op left right) (.unsupportedBinary op)
  | unary {op operand} (formless : op.affixes? = none) (other : ∀ t, op ≠ .convert t) :
      Refusal ctx (.unary op operand) (.unsupportedUnary op)
  | converted {t v f} (failed : v.convertedLiteral t = .error f) :
      Refusal ctx (.unary (.convert t) (.constant v)) f
  | constant {v f} (failed : v.literalOrFail true = .error f) : Refusal ctx (.constant v) f
  | arity {base bindings} (bound : bindings ≠ []) (given : base.args ≠ [])
      (differ : base.members.length ≠ base.args.length) :
      Refusal ctx (.memberInit base bindings)
        (.arity .objectInitializer base.members.length base.args.length)
  | owner {target m f} (path : (ctx.inline && target.isParameter) = false)
      (failed : ctx.captured target = .error f) : Refusal ctx (.member target m) f
  | read {target m owner f} (path : (ctx.inline && target.isParameter) = false)
      (value : ctx.captured target = .ok (some owner))
      (type : ctx.lookup.type owner.type ≠ some .this) (plain : ctx.lookup.member m = none)
      (failed : owner.read m >>= Value.literalOrFail false = .error f) :
      Refusal ctx (.member target m) f
  | receiver {target m args f} (failed : ctx.captured target = .error f) :
      Refusal ctx (.call (some target) m args) f
  | static {m args} (plain : ctx.lookup.resolveMethod m none = none) :
      Refusal ctx (.call none m args) (.hostMethod m)
  | textless {target m args owner} (value : ctx.captured target = .ok owner)
      (plain : ctx.lookup.resolveMethod m (owner.map Value.type) = none)
      (inline : ctx.inline = true) (bare : target.IsConvertedParameter) :
      Refusal ctx (.call (some target) m args) (.hostMethod m)

variable {ctx : Context}

/-- A captured member fails only where it is written as a literal. -/
theorem Context.capturedMember_error_iff {owner : Value} {m : Member} {simple : Bool}
    {f : Failure} :
    ctx.capturedMember owner m simple = .error f ↔
      ctx.lookup.type owner.type ≠ some .this ∧ ctx.lookup.member m = none ∧
        owner.read m >>= Value.literalOrFail false = .error f := by
  by_cases ht : ctx.lookup.type owner.type = some .this
  · simp [capturedMember, Lookup.resolveMember, ht]
  · cases hm : ctx.lookup.member m with
    | none => simp [capturedMember, Lookup.resolveMember, ht, hm]
    | some scope => cases scope <;> simp [capturedMember, Lookup.resolveMember, ht, hm]

theorem Context.mem_children_of_mem_written {c e : Expr} (h : c ∈ ctx.written e) :
    c ∈ e.children := by
  cases e with
  | member target m =>
    rw [written] at h
    split at h
    · simp at h
    · split at h
      · exact h
      · simp at h
  | memberInit base bindings =>
    rw [written, List.mem_append] at h
    rcases h with h | h
    · exact List.mem_append_left _ h
    · split at h
      · exact List.mem_append_right _ h
      · simp at h
  | binary op left right =>
    rw [written] at h
    split at h
    · exact h
    · simp at h
  | unary op operand =>
    unfold written at h
    split at h <;> simp_all [Expr.children]
  | call target m args =>
    cases target with
    | none =>
      rw [written] at h
      split at h
      · exact h
      · simp at h
    | some target =>
      rw [written] at h
      split at h
      · split at h
        · exact List.mem_append_right _ h
        · exact h
      · simp at h
  | lambda params body => simp [written] at h
  | invoke target args => simp [written] at h
  | typeIs operand type => simp [written] at h
  | parameter name => exact h
  | index target args => exact h
  | new base => exact h
  | newArray items => exact h
  | constant v => exact h
  | conditional test ifTrue ifFalse => exact h

theorem Context.written_convert {t : CastType} {operand : Expr}
    (h : ∀ v, operand ≠ .constant v) : ctx.written (.unary (.convert t) operand) = [operand] := by
  rw [written]
  exact h

theorem Context.written_unary {op : UnaryOp} {operand : Expr} (h : ∀ t, op ≠ .convert t) :
    ctx.written (.unary op operand) = if op.affixes?.isSome then [operand] else [] := by
  rw [written]
  · exact fun t v ht _ => h t ht
  · exact h

namespace Expr

/-- The three ways in which an operation with one operand is written. -/
theorem unary_forms (op : UnaryOp) (operand : Expr) :
    (∃ t v, op = .convert t ∧ operand = constant v) ∨
      (∃ t, op = .convert t ∧ ∀ v, operand ≠ constant v) ∨ ∀ t, op ≠ .convert t := by
  by_cases hop : ∃ t, op = .convert t
  · obtain ⟨t, rfl⟩ := hop
    by_cases hv : ∃ v, operand = constant v
    · obtain ⟨v, rfl⟩ := hv
      exact .inl ⟨t, v, rfl, rfl⟩
    · exact .inr (.inl ⟨t, rfl, not_exists.mp hv⟩)
  · exact .inr (.inr (not_exists.mp hop))

theorem emit_convert {t : CastType} {operand : Expr} (h : ∀ v, operand ≠ constant v) :
    emit ctx (unary (.convert t) operand) = emit ctx operand := by
  rw [emit]
  exact h

theorem emit_unary {op : UnaryOp} {operand : Expr} (h : ∀ t, op ≠ .convert t) :
    emit ctx (unary op operand) =
      match op.affixes? with
      | some (before, after) => do return some (before ++ (← emit ctx operand).getD "" ++ after)
      | none => throw (.unsupportedUnary op) := by
  cases op with
  | convert t => exact absurd rfl (h t)
  | _ => rfl

/-- Conversions of a parameter are written as the parameter. -/
theorem ConvertedParameter.emit_eq {name : String} {e : Expr} (h : ConvertedParameter name e) :
    emit ctx e = pure (if ctx.inline then none else some name) := by
  induction h with
  | bare => rw [emit]
  | convert type inner ih =>
    rw [emit_convert, ih]
    rintro v rfl
    cases inner

end Expr
end LambdaScript
