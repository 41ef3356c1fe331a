import LambdaScript.Proofs.Emit.Steps

/-! # Writing without the hint

Writing never arms the hint. Started unarmed it is therefore a plain computation with failures, and
its results satisfy one equation for each node, in which the hint does not occur.
-/

namespace LambdaScript
namespace Emit
variable {α β : Type}

def Quiet (x : Emit α) : Prop :=
  match x false with
  | .ok _ hint => hint = false
  | .error _ hint => hint = false

@[simp] theorem quiet_pure (a : α) : Quiet (pure a) := rfl

@[simp] theorem quiet_throw (f : Failure) : Quiet (throw f : Emit α) := rfl

@[simp] theorem quiet_takeHint : Quiet takeHint := rfl

@[simp] theorem quiet_ofExcept (x : Except Failure α) : Quiet (ofExcept x) := by
  cases x <;> rfl

theorem Quiet.bind {x : Emit α} {k : α → Emit β} (hx : x.Quiet) (hk : ∀ a, (k a).Quiet) :
    (x >>= k).Quiet := by
  change match EStateM.bind x k false with
    | .ok _ hint => hint = false
    | .error _ hint => hint = false
  unfold Quiet at hx
  unfold EStateM.bind
  cases h : x false with
  | ok a hint =>
    rw [h] at hx
    subst hx
    exact hk a
  | error f hint =>
    rw [h] at hx
    exact hx

theorem result_bind {x : Emit α} {k : α → Emit β} (hx : x.Quiet) :
    (x >>= k).result false = x.result false >>= fun a => (k a).result false := by
  unfold Quiet at hx
  cases h : x false with
  | ok a hint =>
    rw [h] at hx
    subst hx
    simp [result, bind, EStateM.bind, Except.bind, h]
  | error f hint => simp [result, bind, EStateM.bind, Except.bind, h]

@[simp] theorem result_pure (a : α) (hint : Bool) : (pure a : Emit α).result hint = .ok a := rfl

@[simp] theorem result_ofExcept (x : Except Failure α) (hint : Bool) :
    (ofExcept x).result hint = x := by
  cases x <;> rfl

@[simp] theorem result_takeHint_bind (k : Bool → Emit β) :
    (takeHint >>= k).result false = (k false).result false := rfl

end Emit

namespace Expr
variable {ctx : Context}

theorem quiet_steps {β : Type} {es : List Expr} (each : ∀ e ∈ es, (emit ctx e).Quiet)
    {k : List (Option String) → Emit β} (hk : ∀ rs, (k rs).Quiet) :
    (es.mapM (emit ctx) >>= k).Quiet := by
  induction es generalizing k with
  | nil => simpa using hk []
  | cons e es ih =>
    simp only [List.mapM_cons, bind_assoc, pure_bind]
    apply (each e (by simp)).bind
    intro r
    exact ih (fun c hc => each c (by simp [hc])) fun rs => hk (r :: rs)

theorem quiet_hintFor (e : Expr) : (Emit.hintFor e).Quiet := by
  cases e <;> rfl

theorem quiet_emit (e : Expr) : (emit ctx e).Quiet := by
  induction e using children_induction with
  | step e ih =>
  rw [emit_eq_steps]
  apply (quiet_hintFor e).bind
  intro simple
  apply quiet_steps
  · intro c hc
    exact ih c (Context.mem_children_of_mem_steps hc)
  · intro rs
    exact Emit.quiet_ofExcept _

theorem quiet_emitAll (es : List Expr) : (emitAll ctx es).Quiet := by
  rw [emitAll_eq_mapM]
  exact quiet_steps (fun e _ => quiet_emit e) fun rs => Emit.quiet_pure _

/-- What writing an expression gives without the hint. -/
def unarmed (ctx : Context) (e : Expr) : Except Failure (Option String) :=
  (emit ctx e).result false

def unarmedAll (ctx : Context) (es : List Expr) : Except Failure (List String) :=
  (emitAll ctx es).result false

theorem result_emit_bind {β : Type} (e : Expr) (k : Option String → Emit β) :
    (emit ctx e >>= k).result false = unarmed ctx e >>= fun r => (k r).result false :=
  Emit.result_bind (quiet_emit e)

theorem result_emitAll_bind {β : Type} (es : List Expr) (k : List String → Emit β) :
    (emitAll ctx es >>= k).result false = unarmedAll ctx es >>= fun ts => (k ts).result false :=
  Emit.result_bind (quiet_emitAll es)

theorem result_ofExcept_bind {α β : Type} (x : Except Failure α) (k : α → Emit β) :
    (Emit.ofExcept x >>= k).result false = x >>= fun a => (k a).result false := by
  rw [Emit.result_bind (Emit.quiet_ofExcept x), Emit.result_ofExcept]

theorem result_steps_bind {β : Type} (es : List Expr) (k : List (Option String) → Emit β) :
    (es.mapM (emit ctx) >>= k).result false =
      es.mapM (unarmed ctx) >>= fun rs => (k rs).result false := by
  induction es generalizing k with
  | nil => simp
  | cons e es ih => simp only [List.mapM_cons, bind_assoc, pure_bind, result_emit_bind, ih]

/-- Without the hint, the steps are written one after the other, and the node is put together. -/
theorem unarmed_eq_steps (e : Expr) :
    unarmed ctx e = (do
      let rs ← (ctx.steps e).mapM (unarmed ctx)
      ctx.compose false e rs) := by
  have hhint {β : Type} (k : Bool → Emit β) :
      (Emit.hintFor e >>= k).result false = (k false).result false := by
    cases e <;> rfl
  rw [unarmed, emit_eq_steps, hhint, result_steps_bind]
  simp only [Emit.result_ofExcept]

theorem unarmedAll_cons (e : Expr) (es : List Expr) :
    unarmedAll ctx (e :: es) = do
      let r ← unarmed ctx e
      let ts ← unarmedAll ctx es
      return r.getD "" :: ts := by
  rw [unarmedAll, emitAll, result_emit_bind]
  simp only [result_emitAll_bind]
  rfl

theorem ConvertedParameter.unarmed_eq {name : String} {e : Expr} (h : ConvertedParameter name e) :
    unarmed ctx e = .ok (if ctx.inline then none else some name) := by
  rw [unarmed, h.emit_eq, Emit.result_pure]

theorem unarmed_member (target : Expr) (m : Member) :
    unarmed ctx (member target m) =
      if ctx.inline && target.isParameter then .ok (some (ctx.label m false)) else do
        match ← ctx.captured target with
        | some owner => return some (← ctx.capturedMember owner m false)
        | none => return some (pathText (← unarmed ctx target) (ctx.label m false)) := by
  rw [unarmed, emit, Emit.result_takeHint_bind]
  split
  · rfl
  · rw [result_ofExcept_bind]
    congr 1
    funext owner
    cases owner with
    | some owner => rw [result_ofExcept_bind]; rfl
    | none => rw [result_emit_bind]; rfl

theorem unarmed_index (target : Expr) (args : List Expr) :
    unarmed ctx (index target args) = do
      let t ← unarmed ctx target
      let ts ← unarmedAll ctx args
      return some (t.getD "" ++ "[" ++ Text.commas ts ++ "]") := by
  rw [unarmed, emit, result_emit_bind]
  simp only [result_emitAll_bind]
  rfl

theorem unarmed_new (base : Construction Expr) :
    unarmed ctx (new base) = do
      let ts ← unarmedAll ctx base.args
      return some (constructionText base.type base.members ts) := by
  rw [unarmed, emit, result_emitAll_bind]
  rfl

theorem unarmed_newArray (items : List Expr) :
    unarmed ctx (newArray items) = do
      let ts ← unarmedAll ctx items
      return some ("[" ++ Text.commas ts ++ "]") := by
  rw [unarmed, emit, result_emitAll_bind]
  rfl

theorem unarmed_binary (op : BinaryOp) (left right : Expr) :
    unarmed ctx (binary op left right) =
      match op.form? with
      | some form => do
        let l ← unarmed ctx left
        let r ← unarmed ctx right
        return some (form.render (l.getD "") (r.getD ""))
      | none => .error (.unsupportedBinary op) := by
  rw [unarmed, emit]
  cases op.form? with
  | some form =>
    simp only [result_emit_bind]
    rfl
  | none => rfl

theorem unarmed_convert {t : CastType} {operand : Expr} (h : ∀ v, operand ≠ constant v) :
    unarmed ctx (unary (.convert t) operand) = unarmed ctx operand := by
  rw [unarmed, emit_convert h, unarmed]

theorem unarmed_unary {op : UnaryOp} {operand : Expr} (h : ∀ t, op ≠ .convert t) :
    unarmed ctx (unary op operand) =
      match op.affixes? with
      | some (before, after) => do
        let t ← unarmed ctx operand
        return some (before ++ t.getD "" ++ after)
      | none => .error (.unsupportedUnary op) := by
  rw [unarmed, emit_unary h]
  cases op.affixes? with
  | some affixes => rw [result_emit_bind]; rfl
  | none => rfl

theorem unarmed_call_some (target : Expr) (m : Method) (args : List Expr) :
    unarmed ctx (call (some target) m args) = (do
      let owner ← ctx.captured target
      match ctx.lookup.resolveMethod m (owner.map Value.type) with
      | some r => return some (callText (r.function m) (← unarmedAll ctx args))
      | none =>
        match ← unarmed ctx target with
        | some object =>
          return some (callText ("(" ++ object ++ ")." ++ m.name) (← unarmedAll ctx args))
        | none => throw (.hostMethod m)) := by
  rw [unarmed, emit, result_ofExcept_bind]
  congr 1
  funext owner
  cases ctx.lookup.resolveMethod m (owner.map Value.type) with
  | some r => rw [result_emitAll_bind]; rfl
  | none =>
    rw [result_emit_bind]
    congr 1
    funext object
    cases object with
    | some object => rw [result_emitAll_bind]; rfl
    | none => rfl

theorem unarmed_call_path {target : Expr} {m : Method} {args : List Expr}
    {owner : Option Value} (hc : ctx.captured target = .ok owner)
    (hr : ctx.lookup.resolveMethod m (owner.map Value.type) = none) :
    unarmed ctx (call (some target) m args) = (do
      match ← unarmed ctx target with
      | some object =>
        return some (callText ("(" ++ object ++ ")." ++ m.name) (← unarmedAll ctx args))
      | none => throw (.hostMethod m)) := by
  rw [unarmed_call_some, hc]
  change (match ctx.lookup.resolveMethod m (owner.map Value.type) with
    | some r => _
    | none => _) = _
  rw [hr]

theorem unarmed_conditional_none (test ifTrue : Expr) :
    unarmed ctx (conditional test ifTrue none) = do
      let c ← unarmed ctx test
      let a ← unarmed ctx ifTrue
      return some (conditionalText (c.getD "") (a.getD "") none) := by
  rw [unarmed, emit, result_emit_bind]
  simp only [result_emit_bind]
  rfl

theorem unarmed_conditional_some (test ifTrue ifFalse : Expr) :
    unarmed ctx (conditional test ifTrue (some ifFalse)) = do
      let c ← unarmed ctx test
      let a ← unarmed ctx ifTrue
      let b ← unarmed ctx ifFalse
      return some (conditionalText (c.getD "") (a.getD "") (some (b.getD ""))) := by
  rw [unarmed, emit, result_emit_bind]
  simp only [result_emit_bind]
  rfl

end Expr
end LambdaScript
