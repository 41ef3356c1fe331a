import LambdaScript.Proofs.Emit.Settled

/-! # Writing in steps

Every node is written in the same way: some of its children are written one after the other, and
then their texts are put together or the node is refused. `Context.steps` lists the children,
`Context.compose` does the rest, and `emit_eq_steps` says that expressions are written like this.
Whether a node is refused depends neither on the texts nor on the labels, and only a member access
looks at the hint, before its first step.
-/

namespace LambdaScript
namespace Expr

/-- Whether an expression is a parameter under any number of conversions. -/
def isConvertedParameter : Expr → Bool
  | parameter _ => true
  | unary (.convert _) operand => operand.isConvertedParameter
  | _ => false

theorem isConvertedParameter_iff {e : Expr} :
    e.isConvertedParameter = true ↔ e.IsConvertedParameter := by
  constructor
  · intro h
    fun_induction isConvertedParameter e with
    | case1 name => exact ⟨name, .bare⟩
    | case2 t operand ih =>
      obtain ⟨name, hname⟩ := ih h
      exact ⟨name, .convert t hname⟩
    | case3 e => cases h
  · rintro ⟨name, h⟩
    induction h with
    | bare => rfl
    | convert type _ ih => exact ih

end Expr

namespace Context

/-- Whether an expression is the parameter of an inline expression, which has no text. -/
def isTextless (ctx : Context) (e : Expr) : Bool := ctx.inline && e.isConvertedParameter

/-- The children that are written for a node before it is put together or refused, in order. A
method called on something textless is refused before its arguments are written. -/
def steps (ctx : Context) : Expr → List Expr
  | .call (some target) m args =>
    match ctx.captured target with
    | .ok owner =>
      if (ctx.lookup.resolveMethod m (owner.map Value.type)).isSome then args
      else if ctx.isTextless target then [] else target :: args
    | .error _ => []
  | e => ctx.written e

/-- The texts of children; the textless parameter is the empty text. -/
def texts (rs : List (Option String)) : List String := rs.map (·.getD "")

/-- The text of a node from what its steps gave, or the failure that it is refused with. -/
def compose (ctx : Context) (simple : Bool) :
    Expr → List (Option String) → Except Failure (Option String)
  | .parameter name, _ => .ok (if ctx.inline then none else some name)
  | .member target m, rs =>
    if ctx.inline && target.isParameter then .ok (some (ctx.label m simple)) else do
      match ← ctx.captured target with
      | some owner => return some (← ctx.capturedMember owner m simple)
      | none => return some (pathText (rs.headD none) (ctx.label m simple))
  | .index _ _, rs =>
    .ok (some ((texts rs).headD "" ++ "[" ++ Text.commas (texts rs).tail ++ "]"))
  | .new base, rs => .ok (some (constructionText base.type base.members (texts rs)))
  | .memberInit base bindings, rs =>
    if bindings.isEmpty then .ok (some (constructionText base.type base.members (texts rs)))
    else if base.args.isEmpty || base.members.length = base.args.length then
      .ok (some (objectText
        (List.zipWith pairText (bindings.map (·.member.name) ++ base.members) (texts rs))))
    else .error (.arity .objectInitializer base.members.length base.args.length)
  | .newArray _, rs => .ok (some ("[" ++ Text.commas (texts rs) ++ "]"))
  | .constant v, _ => do return some (← v.literalOrFail true)
  | .binary op _ _, rs =>
    match op.form? with
    | some form => .ok (some (form.render ((texts rs).headD "") ((texts rs).tail.headD "")))
    | none => .error (.unsupportedBinary op)
  | .unary (.convert t) (.constant v), _ => do return some (← v.convertedLiteral t)
  | .unary (.convert _) _, rs => .ok (rs.headD none)
  | .unary op _, rs =>
    match op.affixes? with
    | some (before, after) => .ok (some (before ++ (texts rs).headD "" ++ after))
    | none => .error (.unsupportedUnary op)
  | .call none m _, rs =>
    match ctx.lookup.resolveMethod m none with
    | some r => .ok (some (callText (r.function m) (texts rs)))
    | none => .error (.hostMethod m)
  | .call (some target) m _, rs => do
    let owner ← ctx.captured target
    match ctx.lookup.resolveMethod m (owner.map Value.type) with
    | some r => return some (callText (r.function m) (texts rs))
    | none =>
      if ctx.isTextless target then .error (.hostMethod m) else
        return some (callText ("(" ++ (texts rs).headD "" ++ ")." ++ m.name) (texts rs).tail)
  | .conditional _ _ ifFalse, rs =>
    .ok (some (conditionalText ((texts rs).headD "") ((texts rs).tail.headD "")
      (ifFalse.map fun _ => (texts rs).tail.tail.headD "")))
  | .lambda _ _, _ => .error (.unsupportedExpr .lambda)
  | .invoke _ _, _ => .error (.unsupportedExpr .invoke)
  | .typeIs _ _, _ => .error (.unsupportedExpr .typeIs)

variable {ctx : Context}

theorem texts_append (rs ss : List (Option String)) : texts (rs ++ ss) = texts rs ++ texts ss := by
  simp [texts]

theorem isTextless_iff {e : Expr} :
    ctx.isTextless e = true ↔ ctx.inline = true ∧ e.IsConvertedParameter := by
  rw [isTextless, Bool.and_eq_true, Expr.isConvertedParameter_iff]

theorem mem_children_of_mem_steps {c e : Expr} (h : c ∈ ctx.steps e) :
    c ∈ e.children := by
  unfold steps at h
  split at h
  · split at h
    · split at h
      · exact List.mem_append_right _ h
      · split at h
        · simp at h
        · exact h
    · simp at h
  · exact mem_children_of_mem_written h

theorem steps_convert {t : CastType} {operand : Expr} (h : ∀ v, operand ≠ .constant v) :
    ctx.steps (.unary (.convert t) operand) = [operand] := by
  rw [steps, written_convert h]
  simp

theorem steps_unary {op : UnaryOp} {operand : Expr} (h : ∀ t, op ≠ .convert t) :
    ctx.steps (.unary op operand) = if op.affixes?.isSome then [operand] else [] := by
  rw [steps, written_unary h]
  simp

theorem compose_convert {t : CastType} {operand : Expr} {simple : Bool}
    {rs : List (Option String)} (h : ∀ v, operand ≠ .constant v) :
    ctx.compose simple (.unary (.convert t) operand) rs = .ok (rs.headD none) := by
  rw [compose]
  exact h

theorem compose_unary {op : UnaryOp} {operand : Expr} {simple : Bool}
    {rs : List (Option String)} (h : ∀ t, op ≠ .convert t) :
    ctx.compose simple (.unary op operand) rs =
      match op.affixes? with
      | some (before, after) => .ok (some (before ++ (texts rs).headD "" ++ after))
      | none => .error (.unsupportedUnary op) := by
  cases op with
  | convert t => exact absurd rfl (h t)
  | _ => rfl

end Context

def Emit.hintFor : Expr → Emit Bool
  | .member _ _ => takeHint
  | _ => pure false

theorem Emit.hintFor_eq_pure {e : Expr} (h : ¬ ∃ target m, e = .member target m) :
    hintFor e = pure false := by
  cases e with
  | member target m => exact absurd ⟨target, m, rfl⟩ h
  | _ => rfl

namespace Emit
variable {α β : Type}

theorem bind_congr_of_returns {x : Emit α} {k l : α → Emit β}
    (h : ∀ a, x.Returns a → k a = l a) : x >>= k = x >>= l := by
  funext hint
  change EStateM.bind x k hint = EStateM.bind x l hint
  unfold EStateM.bind
  cases hx : x hint with
  | ok a rest => simp only [h a ⟨hint, rest, hx⟩]
  | error f rest => rfl

@[simp] theorem ofExcept_ok (a : α) : ofExcept (.ok a) = pure a := rfl

@[simp] theorem ofExcept_error (f : Failure) : (ofExcept (.error f) : Emit α) = throw f := rfl

@[simp] theorem throw_bind (f : Failure) (k : α → Emit β) : throw f >>= k = throw f := rfl

theorem ofExcept_bind (x : Except Failure α) (k : α → Except Failure β) :
    ofExcept (x >>= k) = ofExcept x >>= fun a => ofExcept (k a) := by
  cases x with
  | ok a => simp
  | error f => rfl

theorem length_of_mapM_returns {γ : Type} {f : γ → Emit α} {cs : List γ} {as : List α}
    (h : (cs.mapM f).Returns as) : as.length = cs.length := by
  induction cs generalizing as with
  | nil => simp_all
  | cons c cs ih =>
    rw [List.mapM_cons] at h
    obtain ⟨a, -, h⟩ := h.of_bind
    obtain ⟨bs, hbs, h⟩ := h.of_bind
    rw [returns_pure] at h
    simp [h, ih hbs]

end Emit

namespace Expr
variable {ctx : Context}

theorem emitAll_eq_mapM (es : List Expr) :
    emitAll ctx es = (do return Context.texts (← es.mapM (emit ctx))) := by
  induction es with
  | nil => simp [emitAll, Context.texts]
  | cons e es ih => simp [emitAll, ih, Context.texts]

theorem emitBindings_eq_mapM (bs : List (Binding Expr)) :
    emitBindings ctx bs = do
      let rs ← (bs.map Binding.value).mapM (emit ctx)
      return List.zipWith pairText (bs.map (·.member.name)) (Context.texts rs) := by
  rw [emitBindings_eq, emitAll_eq_mapM]
  simp

theorem emit_member_steps (target : Expr) (m : Member) :
    emit ctx (member target m) = (do
      let simple ← Emit.takeHint
      let rs ← (ctx.steps (member target m)).mapM (emit ctx)
      Emit.ofExcept (ctx.compose simple (member target m) rs)) := by
  rw [emit]
  congr 1
  funext simple
  cases hi : ctx.inline && target.isParameter with
  | true => simp [Context.steps, Context.written, Context.compose, hi]
  | false =>
    cases hc : ctx.captured target with
    | error f => simp [Context.steps, Context.written, Context.compose, hi, hc]
    | ok owner =>
      cases owner with
      | none => simp [Context.steps, Context.written, Context.compose, hi, hc]
      | some owner =>
        simp [Context.steps, Context.written, Context.compose, hi, hc, Emit.ofExcept_bind]

theorem emit_memberInit_steps (base : Construction Expr) (bindings : List (Binding Expr)) :
    emit ctx (memberInit base bindings) = (do
      let rs ← (ctx.steps (memberInit base bindings)).mapM (emit ctx)
      Emit.ofExcept (ctx.compose false (memberInit base bindings) rs)) := by
  rw [emit]
  by_cases hb : bindings.isEmpty = true
  · have hnil := List.isEmpty_iff.mp hb
    subst hnil
    simp [emitAll_eq_mapM, Context.steps, Context.written, Context.compose]
  · have hvalues {us : List (Option String)}
        (hus : ((bindings.map Binding.value).mapM (emit ctx)).Returns us) :
        (bindings.map (·.member.name)).length = (Context.texts us).length := by
      simpa [Context.texts] using (Emit.length_of_mapM_returns hus).symm
    rw [if_neg hb, emitBindings_eq_mapM, bind_assoc]
    by_cases ha : base.args.isEmpty = true
    · have hnil := List.isEmpty_iff.mp ha
      simp only [Context.steps, Context.written, Context.compose, hb, hnil, ite_self,
        List.append_nil, if_false, Bool.false_eq_true]
      refine Emit.bind_congr_of_returns fun us hus => ?_
      rw [← List.append_nil (Context.texts us), List.zipWith_append (hvalues hus)]
      simp
    · by_cases hl : base.members.length = base.args.length
      · simp only [Context.steps, Context.written, Context.compose, hb, ha, hl, decide_true,
          Bool.or_true, if_true, if_false, Bool.false_eq_true, List.mapM_append, bind_assoc]
        refine Emit.bind_congr_of_returns fun us hus => ?_
        simp only [pure_bind, emitAll_eq_mapM, bind_assoc, Emit.ofExcept_ok]
        congr 1
        funext vs
        rw [Context.texts_append, List.zipWith_append (hvalues hus)]
      · simp only [Context.steps, Context.written, Context.compose, hb, ha, hl, decide_false,
          Bool.or_false, if_false, Bool.false_eq_true, List.append_nil, pure_bind,
          Emit.ofExcept_error]

theorem emit_call_steps (target : Option Expr) (m : Method) (args : List Expr) :
    emit ctx (call target m args) = (do
      let rs ← (ctx.steps (call target m args)).mapM (emit ctx)
      Emit.ofExcept (ctx.compose false (call target m args) rs)) := by
  cases target with
  | none =>
    rw [emit]
    cases hm : ctx.lookup.resolveMethod m none with
    | some r => simp [emitAll_eq_mapM, Context.steps, Context.written, Context.compose, hm]
    | none => simp [Context.steps, Context.written, Context.compose, hm]
  | some target =>
    rw [emit]
    cases hc : ctx.captured target with
    | error f => simp [Context.steps, Context.compose, hc]
    | ok owner =>
      cases hm : ctx.lookup.resolveMethod m (owner.map Value.type) with
      | some r => simp [emitAll_eq_mapM, Context.steps, Context.compose, hc, hm]
      | none =>
        cases ht : ctx.isTextless target with
        | true =>
          obtain ⟨hi, name, hname⟩ := Context.isTextless_iff.mp ht
          simp [Context.steps, Context.compose, hc, hm, ht, hname.emit_eq, hi]
        | false =>
          simp only [Context.steps, Context.compose, hc, hm, ht, Option.isSome_none, if_false,
            Bool.false_eq_true, List.mapM_cons, bind_assoc, pure_bind, Emit.ofExcept_ok, ok_bind,
            pure_eq_ok]
          -- a target without a text would be textless, so the call is never refused for it
          refine Emit.bind_congr_of_returns fun r hr => ?_
          cases r with
          | some object => simp [emitAll_eq_mapM, Context.texts]
          | none =>
            have htext := Context.isTextless_iff.mpr ((settled_of_returns hr).text rfl)
            rw [ht] at htext
            cases htext

theorem emit_unary_steps (op : UnaryOp) (operand : Expr) :
    emit ctx (unary op operand) = (do
      let rs ← (ctx.steps (unary op operand)).mapM (emit ctx)
      Emit.ofExcept (ctx.compose false (unary op operand) rs)) := by
  rcases unary_forms op operand with ⟨t, v, rfl, rfl⟩ | ⟨t, rfl, hv⟩ | hop
  · rw [emit]
    simp [Context.steps, Context.written, Context.compose, Emit.ofExcept_bind]
  · rw [emit_convert hv, Context.steps_convert hv]
    simp [Context.compose_convert hv]
  · rw [emit_unary hop, Context.steps_unary hop]
    cases ha : op.affixes? with
    | some affixes => simp [Context.compose_unary hop, ha, Context.texts]
    | none => simp [Context.compose_unary hop, ha]

/-- How an expression is written: the hint if it is a member access, the steps, and the node. -/
theorem emit_eq_steps (e : Expr) :
    emit ctx e = (do
      let simple ← Emit.hintFor e
      let rs ← (ctx.steps e).mapM (emit ctx)
      Emit.ofExcept (ctx.compose simple e rs)) := by
  cases e with
  | member target m => exact emit_member_steps target m
  | memberInit base bindings =>
    simp only [Emit.hintFor, pure_bind]
    exact emit_memberInit_steps base bindings
  | unary op operand =>
    simp only [Emit.hintFor, pure_bind]
    exact emit_unary_steps op operand
  | call target m args =>
    simp only [Emit.hintFor, pure_bind]
    exact emit_call_steps target m args
  | parameter name =>
    rw [emit]
    simp [Emit.hintFor, Context.steps, Context.written, children, Context.compose]
  | index target args =>
    rw [emit]
    simp [Emit.hintFor, Context.steps, Context.written, children, Context.compose, emitAll_eq_mapM,
      Context.texts]
  | new base =>
    rw [emit]
    simp [Emit.hintFor, Context.steps, Context.written, children, Context.compose, emitAll_eq_mapM]
  | newArray items =>
    rw [emit]
    simp [Emit.hintFor, Context.steps, Context.written, children, Context.compose, emitAll_eq_mapM]
  | constant v =>
    rw [emit]
    simp [Emit.hintFor, Context.steps, Context.written, children, Context.compose,
      Emit.ofExcept_bind]
  | binary op left right =>
    rw [emit]
    cases hop : op.form? with
    | some form =>
      simp [Emit.hintFor, Context.steps, Context.written, Context.compose, hop, Context.texts]
    | none => simp [Emit.hintFor, Context.steps, Context.written, Context.compose, hop]
  | conditional test ifTrue ifFalse =>
    cases ifFalse with
    | none =>
      rw [emit]
      simp [Emit.hintFor, Context.steps, Context.written, children, Context.compose, Context.texts]
    | some ifFalse =>
      rw [emit]
      simp [Emit.hintFor, Context.steps, Context.written, children, Context.compose, Context.texts]
  | lambda params body =>
    rw [emit]
    simp [Emit.hintFor, Context.steps, Context.written, Context.compose]
  | invoke target args =>
    rw [emit]
    simp [Emit.hintFor, Context.steps, Context.written, Context.compose]
  | typeIs operand type =>
    rw [emit]
    simp [Emit.hintFor, Context.steps, Context.written, Context.compose]

end Expr

namespace Context

def relabel (ctx : Context) (naming : Naming) : Context := { ctx with naming := naming }

variable {ctx : Context} {naming : Naming}

@[simp] theorem inline_relabel : (ctx.relabel naming).inline = ctx.inline := rfl

@[simp] theorem lookup_relabel : (ctx.relabel naming).lookup = ctx.lookup := rfl

@[simp] theorem naming_relabel : (ctx.relabel naming).naming = naming := rfl

@[simp] theorem captured_relabel (e : Expr) : (ctx.relabel naming).captured e = ctx.captured e :=
  rfl

@[simp] theorem isTextless_relabel (e : Expr) :
    (ctx.relabel naming).isTextless e = ctx.isTextless e := rfl

@[simp] theorem steps_relabel (e : Expr) : (ctx.relabel naming).steps e = ctx.steps e := rfl

/-- A node is refused whatever its labels and the texts of its steps are. -/
theorem compose_eq_error {e : Expr} {f : Failure} {simple : Bool} {rs : List (Option String)}
    (h : ctx.compose simple e rs = .error f) (simple' : Bool) (rs' : List (Option String)) :
    (ctx.relabel naming).compose simple' e rs' = .error f := by
  cases e with
  | member target m =>
    cases hi : ctx.inline && target.isParameter with
    | true => simp [compose, hi] at h
    | false =>
      simp only [compose, hi, inline_relabel, captured_relabel, Bool.false_eq_true, if_false] at h ⊢
      cases hc : ctx.captured target with
      | error g => simpa [hc] using h
      | ok owner =>
        cases owner with
        | none => simp [hc] at h
        | some owner =>
          simp only [hc, ok_bind, bind_eq_error, pure_eq_ok, reduceCtorEq, and_false, exists_false,
            or_false] at h ⊢
          have hread := capturedMember_error_iff.mp h
          exact capturedMember_error_iff.mpr hread
  | memberInit base bindings =>
    simp only [compose] at h ⊢
    by_cases hb : bindings.isEmpty = true
    · simp [hb] at h
    · rw [if_neg hb] at h ⊢
      split at h
      · cases h
      · next hl => rw [if_neg hl, h]
  | binary op left right =>
    simp only [compose] at h ⊢
    cases hop : op.form? <;> simp_all
  | unary op operand =>
    rcases Expr.unary_forms op operand with ⟨t, v, rfl, rfl⟩ | ⟨t, rfl, hv⟩ | hop
    · exact h
    · simp [compose_convert hv] at h
    · rw [compose_unary hop] at h ⊢
      cases ha : op.affixes? <;> simp_all
  | call target m args =>
    cases target with
    | none =>
      simp only [compose, lookup_relabel] at h ⊢
      cases hm : ctx.lookup.resolveMethod m none <;> simp_all
    | some target =>
      simp only [compose, captured_relabel, lookup_relabel, isTextless_relabel] at h ⊢
      cases hc : ctx.captured target with
      | error g => simpa [hc] using h
      | ok owner =>
        cases hm : ctx.lookup.resolveMethod m (owner.map Value.type) with
        | some r => simp [hc, hm] at h
        | none =>
          simp only [hc, ok_bind, hm] at h ⊢
          split at h
          · next ht => simpa [ht] using h
          · cases h
  | parameter name => simp [compose] at h
  | index target args => simp [compose] at h
  | new base => simp [compose] at h
  | newArray items => simp [compose] at h
  | constant v => exact h
  | conditional test ifTrue ifFalse => simp [compose] at h
  | lambda params body => exact h
  | invoke target args => exact h
  | typeIs operand type => exact h

/-- Only a member access looks at the labels, and only at that of its own member. -/
theorem compose_relabel {e : Expr} {simple : Bool}
    (h : ∀ target m, e = .member target m → ctx.naming.label m simple = naming.label m simple)
    (rs : List (Option String)) :
    (ctx.relabel naming).compose simple e rs = ctx.compose simple e rs := by
  cases e with
  | member target m =>
    have hlabel : (ctx.relabel naming).label m simple = ctx.label m simple := (h target m rfl).symm
    have hresolved (type : TypeName) : ctx.lookup.resolveMember naming m type simple =
        ctx.lookup.resolveMember ctx.naming m type simple := by
      simp only [Lookup.resolveMember, h target m rfl]
    have howner (owner : Value) :
        (ctx.relabel naming).capturedMember owner m simple = ctx.capturedMember owner m simple := by
      simp only [capturedMember, lookup_relabel, naming_relabel, hresolved]
    simp only [compose, inline_relabel, captured_relabel, hlabel, howner]
  | unary op operand =>
    rcases Expr.unary_forms op operand with ⟨t, v, rfl, rfl⟩ | ⟨t, rfl, hv⟩ | hop
    · rfl
    · rw [compose_convert hv, compose_convert hv]
    · rw [compose_unary hop, compose_unary hop]
  | call target m args => cases target <;> rfl
  | _ => rfl

end Context
end LambdaScript
