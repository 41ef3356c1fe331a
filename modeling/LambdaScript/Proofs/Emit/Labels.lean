import LambdaScript.Proofs.Emit.Hint

/-! # Labels only rename

An expression is written twice, with two choices of labels for members. Whatever the labels are,
both writings succeed or both fail, with the same failure, and both leave the same hint. The texts
are the same as soon as the labels agree where they are looked up: without the hint at the member
accesses of the expression, and with it at the single one that takes it.
-/

namespace LambdaScript
namespace Emit
variable {α β : Type} {P : Prop} {hint : Bool}

/-- Two writings have the same outcome and leave the same hint; what they return is equal if `P`
holds. -/
def Alike (P : Prop) (x y : Emit α) (hint : Bool) : Prop :=
  match x hint, y hint with
  | .ok a rest, .ok b rest' => rest = rest' ∧ (P → a = b)
  | .error f rest, .error g rest' => f = g ∧ rest = rest'
  | _, _ => False

theorem Alike.bind {Q : Prop} {x y : Emit α} {k l : α → Emit β} (hx : Alike P x y hint)
    (hk : ∀ a b rest, x hint = .ok a rest → (P → a = b) → Alike Q (k a) (l b) rest) :
    Alike Q (x >>= k) (y >>= l) hint := by
  change match EStateM.bind x k hint, EStateM.bind y l hint with
    | .ok a rest, .ok b rest' => rest = rest' ∧ (Q → a = b)
    | .error f rest, .error g rest' => f = g ∧ rest = rest'
    | _, _ => False
  unfold Alike at hx
  unfold EStateM.bind
  cases hxh : x hint with
  | ok a rest =>
    cases hyh : y hint with
    | ok b rest' =>
      simp only [hxh, hyh] at hx
      obtain ⟨rfl, hab⟩ := hx
      exact hk a b rest hxh hab
    | error g rest' => simp [hxh, hyh] at hx
  | error f rest =>
    cases hyh : y hint with
    | ok b rest' => simp [hxh, hyh] at hx
    | error g rest' => simpa [hxh, hyh] using hx

theorem alike_ofExcept {x y : Except Failure α} (errors : ∀ f, x = .error f ↔ y = .error f)
    (h : P → x = y) : Alike P (ofExcept x) (ofExcept y) hint := by
  cases x with
  | ok a =>
    cases y with
    | ok b => exact ⟨rfl, fun p => Except.ok.inj (h p)⟩
    | error g => exact absurd ((errors g).mpr rfl) (by simp)
  | error f =>
    have hy := (errors f).mp rfl
    subst hy
    exact ⟨rfl, rfl⟩

theorem Alike.errors {x y : Emit α} (h : Alike P x y hint) (f : Failure) :
    x.result hint = .error f ↔ y.result hint = .error f := by
  unfold Alike at h
  unfold result
  cases hx : x hint <;> cases hy : y hint <;> simp_all

theorem Alike.eq {x y : Emit α} (h : Alike P x y hint) (p : P) : x hint = y hint := by
  unfold Alike at h
  cases hx : x hint <;> cases hy : y hint <;> simp_all

end Emit

namespace Expr
variable {ctx : Context} {naming : Naming}

/-- Two choices of labels agree wherever they are looked up when an expression is written. -/
structure SameLabels (ctx : Context) (naming : Naming) (e : Expr) (hint : Bool) : Prop where
  unarmed : ∀ target m, Occurs (member target m) e →
    ctx.naming.label m false = naming.label m false
  armed : hint = true → ∀ m, reach ctx e = .access m →
    ctx.naming.label m true = naming.label m true

/-- Steps that are written one after the other: the hint goes from each to the next. -/
theorem alike_steps {P : Prop} {β : Type} {es : List Expr} {s : Reach} {hint : Bool}
    (each : ∀ e ∈ es, ∀ hint, Emit.Alike (SameLabels ctx naming e hint)
      (emit ctx e) (emit (ctx.relabel naming) e) hint)
    (unarmed : P → ∀ e ∈ es, ∀ target m, Occurs (member target m) e →
      ctx.naming.label m false = naming.label m false)
    (armed : P → hint = true → ∀ m, (es.map (reach ctx)).foldr .andThen s = .access m →
      ctx.naming.label m true = naming.label m true)
    {k l : List (Option String) → Emit β}
    (hk : ∀ rs rs' rest, (P → rs = rs') → Emit.Alike P (k rs) (l rs') rest) :
    Emit.Alike P (es.mapM (emit ctx) >>= k) (es.mapM (emit (ctx.relabel naming)) >>= l) hint := by
  induction es generalizing hint k l with
  | nil => simpa using hk [] [] hint fun _ => rfl
  | cons e es ih =>
    simp only [List.mapM_cons, bind_assoc, pure_bind]
    refine (each e (by simp) hint).bind fun a b rest hrun hab => ?_
    have same (p : P) : SameLabels ctx naming e hint := by
      refine ⟨unarmed p e (by simp), fun hh m hm => armed p hh m ?_⟩
      simp [hm, Reach.andThen]
    refine ih (fun c hc => each c (by simp [hc])) (fun p c hc => unarmed p c (by simp [hc])) ?_ ?_
    · -- a hint that is still armed was not taken by `e`, so the search goes on behind it
      intro p hrest m hm
      subst hrest
      obtain ⟨hh, hpassed⟩ := (tracks_emit e).passed_of_ok hrun
      refine armed p hh m ?_
      simpa [hpassed, Reach.andThen] using hm
    · intro rs rs' rest' hrs
      refine hk (a :: rs) (b :: rs') rest' fun p => ?_
      rw [hab (same p), hrs p]

theorem alike_compose {P : Prop} {e : Expr} {simple rest : Bool}
    (labels : P → ∀ target m, e = member target m →
      ctx.naming.label m simple = naming.label m simple)
    {rs rs' : List (Option String)} (hrs : P → rs = rs') :
    Emit.Alike P (Emit.ofExcept (ctx.compose simple e rs))
      (Emit.ofExcept ((ctx.relabel naming).compose simple e rs')) rest := by
  refine Emit.alike_ofExcept (fun f => ⟨fun h => ?_, fun h => ?_⟩) fun p => ?_
  · exact Context.compose_eq_error h simple rs'
  · change ((ctx.relabel naming).relabel ctx.naming).compose simple e rs = .error f
    exact Context.compose_eq_error h simple rs
  · rw [hrs p, Context.compose_relabel (labels p)]

/-- Writing with other labels: the same failures and hints, and the same texts if the labels that
are looked up agree. -/
theorem alike_emit (e : Expr) (hint : Bool) :
    Emit.Alike (SameLabels ctx naming e hint) (emit ctx e) (emit (ctx.relabel naming) e) hint := by
  induction e using children_induction generalizing hint with
  | step e ih =>
  have each (c : Expr) (hc : c ∈ ctx.steps e) (hint : Bool) :=
    ih c (Context.mem_children_of_mem_steps hc) hint
  have unarmed (p : SameLabels ctx naming e hint) (c : Expr) (hc : c ∈ ctx.steps e) (target : Expr)
      (m : Member) (hm : Occurs (member target m) c) :=
    p.unarmed target m (.child (Context.mem_children_of_mem_steps hc) hm)
  rw [emit_eq_steps, emit_eq_steps, Context.steps_relabel]
  by_cases he : ∃ target m, e = member target m
  · obtain ⟨target, m, rfl⟩ := he
    -- the member access takes the hint, and its target is written without it
    change Emit.Alike _ (_ >>= fun rs => Emit.ofExcept (ctx.compose hint _ rs))
      (_ >>= fun rs => Emit.ofExcept ((ctx.relabel naming).compose hint _ rs)) false
    refine alike_steps (s := .passed) each unarmed (by simp) fun rs rs' rest hrs => ?_
    refine alike_compose (fun p t n hn => ?_) hrs
    cases hn
    cases hint with
    | false => exact p.unarmed target m .self
    | true => exact p.armed rfl m (reach_member target m)
  · rw [Emit.hintFor_eq_pure he, pure_bind, pure_bind]
    refine alike_steps (s := ctx.ending e) each unarmed ?_ fun rs rs' rest hrs => ?_
    · intro p hh m hm
      rw [← reach_eq_steps (by simpa using he)] at hm
      exact p.armed hh m hm
    · exact alike_compose (fun _ t n hn => absurd ⟨t, n, hn⟩ he) hrs

theorem alike_emitText (e : Expr) (hint : Bool) :
    Emit.Alike (SameLabels ctx naming e hint) (emitText ctx e) (emitText (ctx.relabel naming) e)
      hint := by
  unfold emitText
  refine (alike_emit e hint).bind fun a b rest _ hab => ?_
  exact ⟨rfl, fun p => by rw [hab p]⟩

theorem reach_convert_member (t : CastType) (target : Expr) (m : Member) :
    reach ctx (unary (.convert t) (member target m)) = .access m := by
  rw [reach_eq_steps (by simp), Context.steps_convert (by simp)]
  simp [Reach.andThen]

/-- The hint of a simple member access goes to that member access. -/
theorem eq_of_reach_simpleMember {e : Expr} {m : Member} (h : e.isSimpleMember = true)
    (hm : reach ctx e = .access m) :
    ∃ target, e = member target m ∨ ∃ t, e = unary (.convert t) (member target m) := by
  unfold isSimpleMember at h
  split at h
  · next target n =>
    rw [reach_member] at hm
    cases hm
    exact ⟨target, .inl rfl⟩
  · next t target n =>
    rw [reach_convert_member] at hm
    cases hm
    exact ⟨target, .inr ⟨t, rfl⟩⟩
  · cases h

end Expr

open LambdaScript.Expr

/-- Labels decide neither whether a lambda has a script nor why it has none. Its script depends on
the labels without the hint of the member accesses in its body and, inline, if the body is a member
access or a conversion directly around one, on the label with the hint of that member. -/
theorem compile_relabel (ctx : Context) (naming : Naming) (f : Lambda) :
    (∀ e, f.compile ctx = .error e ↔ f.compile (ctx.relabel naming) = .error e) ∧
      ((∀ target m, Occurs (member target m) f.body →
          ctx.naming.label m false = naming.label m false) →
        (ctx.inline = true → ∀ target m,
          (f.body = member target m ∨ ∃ t, f.body = unary (.convert t) (member target m)) →
            ctx.naming.label m true = naming.label m true) →
        f.compile ctx = f.compile (ctx.relabel naming)) := by
  have alike (hint : Bool) : Emit.Alike (SameLabels ctx naming f.body hint) (emitText ctx f.body)
      (emitText (ctx.relabel naming) f.body) hint := alike_emitText f.body hint
  constructor
  · intro e
    unfold Lambda.compile
    rw [Context.inline_relabel]
    split
    · split
      · exact (alike f.body.isSimpleMember).errors e
      · rfl
    · simpa [bind_eq_error] using (alike false).errors e
  · intro unarmed armed
    unfold Lambda.compile Emit.result
    rw [Context.inline_relabel]
    split
    · next hi =>
      have same : SameLabels ctx naming f.body f.body.isSimpleMember := by
        refine ⟨unarmed, fun hsimple m hm => ?_⟩
        obtain ⟨target, hbody⟩ := eq_of_reach_simpleMember hsimple hm
        exact armed hi target m hbody
      rw [(alike f.body.isSimpleMember).eq same]
    · rw [(alike false).eq ⟨unarmed, by simp⟩]

def cityLambda : Lambda where
  params := ["p"]
  body := property (property (parameter "p") ⟨"Person"⟩ "Address") ⟨"Address"⟩ "City"

/-- Declared names, but for members other than `City` with the hint. -/
def cityNaming : Naming := some fun m simple => if simple && m.name != "City" then "?" else m.name

theorem compile_relabel_city :
    cityNaming.label ⟨⟨"Person"⟩, "Address", .property⟩ true ≠ "Address" ∧
      cityLambda.compile { inline := true } = .ok "Address.City" ∧
      cityLambda.compile { inline := true } =
        cityLambda.compile (Context.relabel { inline := true } cityNaming) := by
  refine ⟨by decide, rfl, (compile_relabel { inline := true } cityNaming cityLambda).2 ?_ ?_⟩
  · intro target m _
    rfl
  · rintro - target m (h | ⟨t, h⟩)
    · cases h
      rfl
    · cases h

end LambdaScript
