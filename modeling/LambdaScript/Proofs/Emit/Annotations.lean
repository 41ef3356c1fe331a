import LambdaScript.Proofs.Emit.Hint
import LambdaScript.Proofs.Expr.Types
import Mathlib.Logic.Function.Basic

/-! # Annotations that matter

Annotations are looked up in three places only: those of a member at an access to it, those of a
method at a call of it, and whether a type is found on `this` where one of its values is captured.
Two lookups that agree there give the same script. The types that can be captured are those that
evaluation can meet, so the condition is about the expression alone.
-/

namespace LambdaScript

/-- Two lookups agree wherever an expression can look something up. -/
structure Expr.SameAnnotations (e : Expr) (lookup other : Lookup) : Prop where
  member : ∀ target m, Occurs (.member target m) e → lookup.member m = other.member m
  method : ∀ target m args, Occurs (.call target m args) e → lookup.method m = other.method m
  type : ∀ type, Meets e type → (lookup.type type = some .this ↔ other.type type = some .this)

theorem Expr.SameAnnotations.mono {x e : Expr} {lookup other : Lookup}
    (h : SameAnnotations e lookup other) (hx : Occurs x e) : SameAnnotations x lookup other where
  member target m hm := h.member target m (hm.trans hx)
  method target m args hm := h.method target m args (hm.trans hx)
  type type ht := h.type type (ht.mono hx)

namespace Lookup
variable {lookup other : Lookup}

theorem resolveMember_congr {m : Member} {type : TypeName}
    (htype : lookup.type type = some .this ↔ other.type type = some .this)
    (hmember : lookup.member m = other.member m) (naming : Naming) (simple : Bool) :
    lookup.resolveMember naming m type simple = other.resolveMember naming m type simple := by
  simp only [resolveMember, htype, hmember]

theorem resolveMethod_congr {m : Method} {type : Option TypeName}
    (htype : ∀ t, type = some t → (lookup.type t = some .this ↔ other.type t = some .this))
    (hmethod : lookup.method m = other.method m) :
    lookup.resolveMethod m type = other.resolveMethod m type := by
  cases type with
  | none => simp [resolveMethod, hmethod]
  | some t => simp only [resolveMethod, Option.bind_some, htype t rfl, hmethod]

end Lookup

namespace Context

def annotate (ctx : Context) (lookup : Lookup) : Context := { ctx with lookup := lookup }

variable {ctx : Context} {other : Lookup}

@[simp] theorem inline_annotate : (ctx.annotate other).inline = ctx.inline := rfl

@[simp] theorem lookup_annotate : (ctx.annotate other).lookup = other := rfl

@[simp] theorem naming_annotate : (ctx.annotate other).naming = ctx.naming := rfl

@[simp] theorem label_annotate (m : Member) (simple : Bool) :
    (ctx.annotate other).label m simple = ctx.label m simple := rfl

@[simp] theorem captured_annotate (e : Expr) : (ctx.annotate other).captured e = ctx.captured e :=
  rfl

/-- The type of a captured owner is one that the node can meet. -/
theorem meets_of_captured (closure : ctx.evaluate = Expr.evaluate) {target e : Expr}
    {owner : Option Value} (h : ctx.captured target = .ok owner) (mem : target ∈ e.children)
    {type : TypeName} (htype : owner.map Value.type = some type) : e.Meets type := by
  obtain ⟨v, rfl, rfl⟩ := Option.map_eq_some_iff.mp htype
  have hvalue := Expr.evaluate_of_captured closure h
  exact (Expr.meets_of_evaluate hvalue).mono (.child mem .self)

theorem resolveMethod_annotate (closure : ctx.evaluate = Expr.evaluate) {target : Expr}
    {m : Method} {args : List Expr}
    (same : Expr.SameAnnotations (.call (some target) m args) ctx.lookup other)
    {owner : Option Value} (h : ctx.captured target = .ok owner) :
    (ctx.annotate other).lookup.resolveMethod m (owner.map Value.type) =
      ctx.lookup.resolveMethod m (owner.map Value.type) := by
  apply Lookup.resolveMethod_congr
  · intro type htype
    have hmeets : (Expr.call (some target) m args).Meets type :=
      meets_of_captured closure h (by simp [Expr.children]) htype
    exact (same.type type hmeets).symm
  · exact (same.method _ m args .self).symm

theorem resolveMethod_annotate_static {m : Method} {args : List Expr}
    (same : Expr.SameAnnotations (.call none m args) ctx.lookup other) :
    (ctx.annotate other).lookup.resolveMethod m none = ctx.lookup.resolveMethod m none := by
  apply Lookup.resolveMethod_congr
  · intro type htype
    cases htype
  · exact (same.method _ m args .self).symm

theorem capturedMember_annotate (closure : ctx.evaluate = Expr.evaluate) {target : Expr}
    {m : Member} (same : Expr.SameAnnotations (.member target m) ctx.lookup other) {owner : Value}
    (h : ctx.captured target = .ok (some owner)) (simple : Bool) :
    (ctx.annotate other).capturedMember owner m simple = ctx.capturedMember owner m simple := by
  have hmeets : (Expr.member target m).Meets owner.type :=
    meets_of_captured closure h (by simp [Expr.children]) rfl
  have hresolve : other.resolveMember ctx.naming m owner.type simple =
      ctx.lookup.resolveMember ctx.naming m owner.type simple := by
    apply Lookup.resolveMember_congr
    · exact (same.type owner.type hmeets).symm
    · exact (same.member target m .self).symm
  simp only [capturedMember, lookup_annotate, naming_annotate, hresolve]

/-- The same children of a node are written. -/
theorem steps_annotate (closure : ctx.evaluate = Expr.evaluate) {e : Expr}
    (same : e.SameAnnotations ctx.lookup other) : (ctx.annotate other).steps e = ctx.steps e := by
  cases e with
  | call target m args =>
    cases target with
    | none => simp only [steps, written, resolveMethod_annotate_static same]
    | some target =>
      simp only [steps, captured_annotate]
      cases hc : ctx.captured target with
      | error f => rfl
      | ok owner =>
        simp only [resolveMethod_annotate closure same hc]
        rfl
  | unary op operand =>
    rcases Expr.unary_forms op operand with ⟨t, v, rfl, rfl⟩ | ⟨t, rfl, hv⟩ | hop
    · rfl
    · rw [steps_convert hv, steps_convert hv]
    · rw [steps_unary hop, steps_unary hop]
  | _ => rfl

/-- A node is put together in the same way. -/
theorem compose_annotate (closure : ctx.evaluate = Expr.evaluate) {e : Expr}
    (same : e.SameAnnotations ctx.lookup other) (simple : Bool) (rs : List (Option String)) :
    (ctx.annotate other).compose simple e rs = ctx.compose simple e rs := by
  cases e with
  | member target m =>
    simp only [compose, inline_annotate, captured_annotate, label_annotate]
    cases hc : ctx.captured target with
    | error f => rfl
    | ok owner =>
      cases owner with
      | none => rfl
      | some owner => simp only [ok_bind, capturedMember_annotate closure same hc]
  | call target m args =>
    cases target with
    | none => simp only [compose, resolveMethod_annotate_static same]
    | some target =>
      simp only [compose, captured_annotate]
      cases hc : ctx.captured target with
      | error f => rfl
      | ok owner =>
        simp only [ok_bind, resolveMethod_annotate closure same hc]
        rfl
  | unary op operand =>
    rcases Expr.unary_forms op operand with ⟨t, v, rfl, rfl⟩ | ⟨t, rfl, hv⟩ | hop
    · rfl
    · rw [compose_convert hv, compose_convert hv]
    · rw [compose_unary hop, compose_unary hop]
  | _ => rfl

end Context

namespace Expr
variable {ctx : Context} {other : Lookup}

/-- An expression is written alike under annotations that agree wherever it looks something up. -/
theorem emit_annotate (closure : ctx.evaluate = evaluate) {e : Expr}
    (same : e.SameAnnotations ctx.lookup other) : emit (ctx.annotate other) e = emit ctx e := by
  induction e using children_induction with
  | step e ih =>
  have hsteps : (ctx.steps e).mapM (emit (ctx.annotate other)) = (ctx.steps e).mapM (emit ctx) := by
    apply mapM_congr
    intro c hc
    have mem := Context.mem_children_of_mem_steps hc
    exact ih c mem (same.mono (.child mem .self))
  rw [emit_eq_steps, emit_eq_steps, Context.steps_annotate closure same, hsteps]
  simp only [Context.compose_annotate closure same]

end Expr

theorem Lambda.compile_annotate {ctx : Context} {other : Lookup}
    (closure : ctx.evaluate = Expr.evaluate) {f : Lambda}
    (same : f.body.SameAnnotations ctx.lookup other) :
    f.compile (ctx.annotate other) = f.compile ctx := by
  simp only [compile, Expr.emitText, Expr.emit_annotate closure same, Context.inline_annotate]

open LambdaScript.Expr

/-- Only relevant annotations matter. A lambda has the same script, or the same failure, under two
lookups that agree on the members of its member accesses, on the methods of its calls, and on
whether the types that it can meet are found on `this`. So no other annotation changes anything: not
a type as global or as on `this` like a member, no type that cannot be captured, and no member or
method without an access or a call, such as a member that is only bound in an initializer. -/
theorem compile_sameAnnotations (inline : Bool) (lookup : Lookup) (naming : Naming) (f : Lambda) :
    (∀ other, f.body.SameAnnotations lookup other →
      f.compile (.closure inline other naming) = f.compile (.closure inline lookup naming)) ∧
    (∀ type scope, (lookup.type type ≠ some .this ∧ scope ≠ .this) ∨ ¬ f.body.Meets type →
      f.compile (.closure inline
          { lookup with type := Function.update lookup.type type (some scope) } naming) =
        f.compile (.closure inline lookup naming)) ∧
    (∀ m scope, (∀ target, ¬ Occurs (member target m) f.body) →
      f.compile (.closure inline
          { lookup with member := Function.update lookup.member m (some scope) } naming) =
        f.compile (.closure inline lookup naming)) ∧
    (∀ m scope, (∀ target args, ¬ Occurs (call target m args) f.body) →
      f.compile (.closure inline
          { lookup with method := Function.update lookup.method m (some scope) } naming) =
        f.compile (.closure inline lookup naming)) := by
  have hsame (other : Lookup) (same : f.body.SameAnnotations lookup other) :
      f.compile (.closure inline other naming) = f.compile (.closure inline lookup naming) :=
    Lambda.compile_annotate (show (Context.closure inline lookup naming).evaluate = _ from rfl) same
  refine ⟨hsame, fun type scope h => ?_, fun m scope h => ?_, fun m scope h => ?_⟩
  · apply hsame
    refine ⟨fun _ _ _ => rfl, fun _ _ _ _ => rfl, fun t ht => ?_⟩
    by_cases heq : t = type
    · subst heq
      rcases h with ⟨hlookup, hscope⟩ | hmeets
      · simp [hlookup, hscope]
      · exact absurd ht hmeets
    · simp [Function.update_of_ne heq]
  · apply hsame
    refine ⟨fun target n hn => ?_, fun _ _ _ _ => rfl, fun _ _ => Iff.rfl⟩
    have hne : n ≠ m := by
      rintro rfl
      exact h target hn
    simp [Function.update_of_ne hne]
  · apply hsame
    refine ⟨fun _ _ _ => rfl, fun target n args hn => ?_, fun _ _ => Iff.rfl⟩
    have hne : n ≠ m := by
      rintro rfl
      exact h target args hn
    simp [Function.update_of_ne hne]

def pageTitle : Expr :=
  property (constant (.record ⟨⟨"Page"⟩, [⟨"Title", .property, some (.string "t")⟩]⟩)) ⟨"Page"⟩
    "Title"

/-- A lambda that makes a row with the title of the captured page. -/
def rowLambda : Lambda where
  params := ["p"]
  body := memberInit ⟨⟨"Row"⟩, [], []⟩ [⟨⟨⟨"Row"⟩, "Title", .property⟩, pageTitle⟩]

/-- Annotations of things that the lambda names but does not look up: the page as a global type, the
row as a type found on `this`, and the member that is bound. -/
def rowLookup : Lookup where
  type t := if t = ⟨"Page"⟩ then some .global else if t = ⟨"Row"⟩ then some .this else none
  member m := if m.owner = ⟨"Row"⟩ then some .onThis else none
  method _ := some .global

theorem rowLambda_nodes {x : Expr} (h : Occurs x rowLambda.body) :
    x = rowLambda.body ∨ x = pageTitle ∨
      x = constant (.record ⟨⟨"Page"⟩, [⟨"Title", .property, some (.string "t")⟩]⟩) := by
  cases h with
  | self => exact .inl rfl
  | child mem h =>
    rw [List.mem_singleton.mp mem] at h
    cases h with
    | self => exact .inr (.inl rfl)
    | child mem h =>
      rw [List.mem_singleton.mp mem] at h
      cases h with
      | self => exact .inr (.inr rfl)
      | child mem h => cases mem

theorem rowLambda_meets {type : TypeName} (h : rowLambda.body.Meets type) : type ≠ ⟨"Row"⟩ := by
  rintro rfl
  generalize htype : (⟨"Row"⟩ : TypeName) = type at h
  cases h with
  | named mem inside named =>
    rcases rowLambda_nodes mem with h | h | h
    · cases h
    · cases h
    · cases h
      cases inside with
      | self => exact absurd htype (by decide)
      | slot mem readable inside =>
        rw [List.mem_singleton.mp mem] at readable
        cases readable
        cases inside with
        | self => cases named
  | target mem core =>
    rcases rowLambda_nodes mem with h | h | h <;> cases h
  | plain mem =>
    subst htype
    exact absurd mem (by decide)

theorem compile_sameAnnotations_row :
    rowLambda.compile {} = .ok "function (p)\x7breturn (\x7bTitle:\"t\"\x7d);\x7d" ∧
      rowLambda.body.SameAnnotations .empty rowLookup ∧
      rowLambda.compile { lookup := rowLookup } = rowLambda.compile {} := by
  have hsame : rowLambda.body.SameAnnotations .empty rowLookup := by
    refine ⟨fun target m hm => ?_, fun target m args hm => ?_, fun type htype => ?_⟩
    · rcases rowLambda_nodes hm with h | h | h <;> cases h
      rfl
    · rcases rowLambda_nodes hm with h | h | h <;> cases h
    · have hrow := rowLambda_meets htype
      by_cases hpage : type = ⟨"Page"⟩ <;> simp [Lookup.empty, rowLookup, hpage, hrow]
  exact ⟨rfl, hsame, (compile_sameAnnotations false .empty none rowLambda).1 rowLookup hsame⟩

end LambdaScript
