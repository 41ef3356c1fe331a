import LambdaScript.Proofs.Emit.Hint
import LambdaScript.Proofs.Expr.Erasure

/-! # Conversions that leave no trace

An expression is written like its erasure, from every hint: a conversion of an unknown operand is
written as the operand, and no node above it can tell. Only whether a body is a simple member access
depends on such conversions, and with it the hint, which is of no consequence where labels do not
depend on it.
-/

namespace LambdaScript
namespace Emit
variable {α β : Type}

def Blind (x : Emit α) : Prop := ∀ hint, x.result hint = x.result false

theorem blind_pure (a : α) : Blind (pure a) := fun _ => rfl

theorem blind_ofExcept (x : Except Failure α) : Blind (ofExcept x) := by
  intro hint
  rw [result_ofExcept, result_ofExcept]

theorem result_bind_of_blind {x : Emit α} {k : α → Emit β} (hx : x.Blind) (hk : ∀ a, (k a).Blind)
    (hint : Bool) :
    (x >>= k).result hint = x.result false >>= fun a => (k a).result false := by
  rw [← hx hint]
  cases h : x hint with
  | ok a rest => simpa [result, bind, EStateM.bind, Except.bind, h] using hk a rest
  | error f rest => simp [result, bind, EStateM.bind, Except.bind, h]

theorem Blind.bind {x : Emit α} {k : α → Emit β} (hx : x.Blind) (hk : ∀ a, (k a).Blind) :
    (x >>= k).Blind := by
  intro hint
  rw [result_bind_of_blind hx hk, result_bind_of_blind hx hk]

/-- Taking the hint does no harm to what does not depend on it. -/
theorem blind_takeHint_bind {k : Bool → Emit β} (same : k true = k false) :
    (takeHint >>= k).Blind := by
  intro hint
  change (k hint).result false = (k false).result false
  cases hint with
  | true => rw [same]
  | false => rfl

end Emit

namespace Context
variable {ctx : Context}

theorem compose_blind (blind : ∀ m, ctx.naming.label m true = ctx.naming.label m false) (e : Expr) :
    ctx.compose true e = ctx.compose false e := by
  cases e with
  | member target m =>
    funext rs
    simp only [compose, label, capturedMember, Lookup.resolveMember, blind m]
  | unary op operand =>
    funext rs
    rcases Expr.unary_forms op operand with ⟨t, v, rfl, rfl⟩ | ⟨t, rfl, hv⟩ | hop
    · rfl
    · rw [compose_convert hv, compose_convert hv]
    · rw [compose_unary hop, compose_unary hop]
  | call target m args => cases target <;> rfl
  | _ => rfl

end Context

namespace Expr
variable {ctx : Context}

theorem blind_steps {β : Type} {es : List Expr} (each : ∀ e ∈ es, (emit ctx e).Blind)
    {k : List (Option String) → Emit β} (hk : ∀ rs, (k rs).Blind) :
    (es.mapM (emit ctx) >>= k).Blind := by
  induction es generalizing k with
  | nil => simpa using hk []
  | cons e es ih =>
    simp only [List.mapM_cons, bind_assoc, pure_bind]
    apply (each e (by simp)).bind
    intro r
    exact ih (fun c hc => each c (by simp [hc])) fun rs => hk (r :: rs)

/-- Where labels do not depend on the hint, no text does. -/
theorem blind_emit (blind : ∀ m, ctx.naming.label m true = ctx.naming.label m false) (e : Expr) :
    (emit ctx e).Blind := by
  induction e using children_induction with
  | step e ih =>
  rw [emit_eq_steps]
  by_cases he : ∃ target m, e = member target m
  · obtain ⟨target, m, rfl⟩ := he
    exact Emit.blind_takeHint_bind (by rw [Context.compose_blind blind])
  · rw [Emit.hintFor_eq_pure he, pure_bind]
    apply blind_steps
    · intro c hc
      exact ih c (Context.mem_children_of_mem_steps hc)
    · intro rs
      exact Emit.blind_ofExcept _

theorem emitAll_map {f : Expr → Expr} {es : List Expr}
    (h : ∀ e ∈ es, emit ctx (f e) = emit ctx e) : emitAll ctx (es.map f) = emitAll ctx es := by
  induction es with
  | nil => rfl
  | cons e es ih =>
    rw [List.map_cons, emitAll, emitAll, h e (by simp), ih fun c hc => h c (by simp [hc])]

theorem emitBindings_map {f : Expr → Expr} {bs : List (Binding Expr)}
    (h : ∀ e ∈ bs.map Binding.value, emit ctx (f e) = emit ctx e) :
    emitBindings ctx (bs.map fun b => { b with value := f b.value }) = emitBindings ctx bs := by
  induction bs with
  | nil => rfl
  | cons b bs ih =>
    rw [List.map_cons, List.forall_mem_cons] at h
    rw [List.map_cons, emitBindings, emitBindings, h.1, ih h.2]

/-- A member of the parameter, however converted, is its label or the path to it. -/
theorem ConvertedParameter.emit_member {name : String} {target : Expr}
    (h : ConvertedParameter name target) (closure : ctx.evaluate = evaluate) (m : Member) :
    emit ctx (member target m) = do
      let simple ← Emit.takeHint
      return some (pathText (if ctx.inline then none else some name) (ctx.label m simple)) := by
  rw [emit_member_of_notConstant closure h.evaluate_eq, h.emit_eq]
  rfl

theorem emit_member_erase (closure : ctx.evaluate = evaluate) {target : Expr} (m : Member)
    (h : emit ctx target.erase = emit ctx target) :
    emit ctx (member target.erase m) = emit ctx (member target m) := by
  by_cases hp : target.IsConvertedParameter
  · obtain ⟨name, hname⟩ := hp
    rw [hname.erase_eq, hname.emit_member closure, ConvertedParameter.bare.emit_member closure]
  · have hconverted : target.isConvertedParameter = false := by
      rwa [Bool.eq_false_iff, ne_eq, isConvertedParameter_iff]
    have hparameter : target.isParameter = false := by
      cases target with
      | parameter name => cases hconverted
      | _ => rfl
    rw [emit, emit, isParameter_erase, hconverted, hparameter, captured_erase closure, h]

/-- An expression is written like its erasure. -/
theorem emit_erase (closure : ctx.evaluate = evaluate) (e : Expr) :
    emit ctx e.erase = emit ctx e := by
  induction e using children_induction with
  | step e ih =>
  by_cases he : ∃ t operand, e = unary (.convert t) operand
  · obtain ⟨t, operand, rfl⟩ := he
    cases hv : operand.evaluate with
    | ok v => rw [erase_convert_of_ok hv, erase_of_evaluate hv]
    | error f =>
      have hne : ∀ v, operand ≠ constant v := by
        rintro v rfl
        cases hv
      rw [erase_convert_of_error hv, emit_convert hne, ih operand (by simp [children])]
  · rw [erase_of_ne (by simpa using he)]
    cases e with
    | member target m => exact emit_member_erase closure m (ih target (by simp [children]))
    | index target args =>
      have hargs : emitAll ctx (args.map erase) = emitAll ctx args :=
        emitAll_map fun e he => ih e (by simp [children, he])
      rw [mapChildren, emit, emit, ih target (by simp [children]), hargs]
    | new base =>
      have hargs : emitAll ctx (base.args.map erase) = emitAll ctx base.args := emitAll_map ih
      rw [mapChildren, emit, emit, hargs]
    | memberInit base bindings =>
      have hargs := emitAll_map fun e he => ih e (List.mem_append_right _ he)
      have hbindings := emitBindings_map fun e he => ih e (List.mem_append_left _ he)
      simp only [mapChildren, emit, List.isEmpty_map, List.length_map, hargs, hbindings]
    | newArray items =>
      have hitems : emitAll ctx (items.map erase) = emitAll ctx items := emitAll_map ih
      rw [mapChildren, emit, emit, hitems]
    | binary op left right =>
      rw [mapChildren, emit, emit, ih left (by simp [children]), ih right (by simp [children])]
    | unary op operand =>
      have hop : ∀ t, op ≠ .convert t := by
        rintro t rfl
        exact he ⟨t, operand, rfl⟩
      rw [mapChildren, emit_unary hop, emit_unary hop, ih operand (by simp [children])]
    | call target m args =>
      have hargs := emitAll_map fun e he => ih e (List.mem_append_right _ he)
      cases target with
      | none => simp only [mapChildren, Option.map, emit, hargs]
      | some target =>
        have htarget := ih target (by simp [children])
        simp only [mapChildren, Option.map, emit, hargs, htarget, captured_erase closure]
    | conditional test ifTrue ifFalse =>
      have htest := ih test (by simp [children])
      have hifTrue := ih ifTrue (by simp [children])
      cases ifFalse with
      | none => simp only [mapChildren, Option.map, emit, htest, hifTrue]
      | some ifFalse =>
        have hifFalse := ih ifFalse (by simp [children])
        simp only [mapChildren, Option.map, emit, htest, hifTrue, hifFalse]
    -- these have no children, or none that are written
    | parameter name => rfl
    | constant v => rfl
    | lambda params body => rfl
    | invoke target args => rfl
    | typeIs operand type => rfl

end Expr

open LambdaScript.Expr

/-- Conversions of operands without a value are transparent. A lambda and the one with the erased
body have the same script, or the same failure, in both modes and under all annotations, if labels
do not depend on the hint. The erased body has no conversion of an operand without a value. -/
theorem compile_erase (inline : Bool) (lookup : Lookup) (naming : Naming) (f : Lambda)
    (blind : ∀ m, naming.label m true = naming.label m false) :
    { f with body := f.body.erase }.compile (.closure inline lookup naming) =
        f.compile (.closure inline lookup naming) ∧
      ∀ t operand, Occurs (unary (.convert t) operand) f.body.erase →
        ∃ v, operand.evaluate = .ok v := by
  refine ⟨?_, fun t operand h => known_of_occurs_erase h⟩
  have htext : emitText (.closure inline lookup naming) f.body.erase =
      emitText (.closure inline lookup naming) f.body := by
    rw [emitText, emitText, emit_erase rfl]
  have hblind : (emitText (.closure inline lookup naming) f.body).Blind :=
    (blind_emit blind f.body).bind fun r => Emit.blind_pure _
  simp only [Lambda.compile, htext, hblind f.body.erase.isSimpleMember,
    hblind f.body.isSimpleMember]

/-- A comparison of a converted member of the converted parameter with a converted constant. -/
def ageLambda : Lambda where
  params := ["p"]
  body := binary .lessThan
    (unary (.convert (.nullable (.nullable .integer)))
      (property (unary (.convert (.object ⟨"Person"⟩)) (parameter "p")) ⟨"Person"⟩ "Age"))
    (unary (.convert .integer) (constant (.string " 18")))

theorem compile_erase_age :
    ageLambda.body.erase = binary .lessThan (property (parameter "p") ⟨"Person"⟩ "Age")
        (unary (.convert .integer) (constant (.string " 18"))) ∧
      ageLambda.compile { inline := true } = .ok "Age<18" ∧
      { ageLambda with body := ageLambda.body.erase }.compile { inline := true } =
        ageLambda.compile { inline := true } :=
  ⟨rfl, rfl, (compile_erase true .empty none ageLambda fun _ => rfl).1⟩

end LambdaScript
