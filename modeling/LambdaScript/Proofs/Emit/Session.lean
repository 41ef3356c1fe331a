import LambdaScript.Proofs.Emit.Labels

/-! # Sessions

A writer serves requests one after the other and keeps its hint between them, also after a failure.
Only a request to set the hint can arm it. Unarmed, every request is answered as by a new writer.
Armed, the hint goes to the first member access that the requests reach, and to no other, so that
the answers depend on one single label with the hint.
-/

namespace LambdaScript

def Emit.outcome {α : Type} (x : Emit α) (hint : Bool) : Except Failure α × Bool :=
  match x hint with
  | .ok a rest => (.ok a, rest)
  | .error f rest => (.error f, rest)

/-- What a writer is asked: to set its hint, to write an expression, or to write it as a text in
which the textless parameter is empty. -/
inductive Request where
  | setHint (armed : Bool)
  | write (e : Expr)
  | writeText (e : Expr)

inductive Answer where
  | done
  | written (result : Except Failure (Option String))
  | text (result : Except Failure String)

namespace Request

def expr? : Request → Option Expr
  | setHint _ => none
  | write e => some e
  | writeText e => some e

def isWriting (q : Request) : Bool := q.expr?.isSome

/-- The answer of a writer with a given hint, and the hint afterwards. -/
def serve (ctx : Context) : Request → Bool → Answer × Bool
  | setHint armed, _ => (.done, armed)
  | write e, hint => (((e.emit ctx).outcome hint).map .written id)
  | writeText e, hint => (((e.emitText ctx).outcome hint).map .text id)

/-- The answer of a new writer, whose hint is unarmed. -/
def fresh (ctx : Context) (q : Request) : Answer := (q.serve ctx false).1

/-- The member access that a request reaches first. -/
def access? (ctx : Context) (q : Request) : Option Member :=
  q.expr?.bind fun e => (e.reach ctx).member?

end Request

/-- Serves requests in order: the answers, and the hint at the end. -/
def Context.session (ctx : Context) : Bool → List Request → List Answer × Bool
  | hint, [] => ([], hint)
  | hint, q :: qs =>
    let rest := ctx.session (q.serve ctx hint).2 qs
    ((q.serve ctx hint).1 :: rest.1, rest.2)

/-- The first member access that requests reach; a request that fails is followed by the next. -/
def Context.firstAccess? (ctx : Context) (qs : List Request) : Option Member :=
  qs.findSome? (Request.access? ctx)

namespace Emit
variable {α : Type} {P : Prop} {hint : Bool}

theorem Alike.outcome_eq {x y : Emit α} (h : Alike P x y hint) (p : P) :
    x.outcome hint = y.outcome hint := by
  unfold outcome
  rw [h.eq p]

theorem Quiet.outcome {x : Emit α} (h : x.Quiet) : (x.outcome false).2 = false := by
  unfold Quiet at h
  unfold Emit.outcome
  cases hx : x false <;> simpa [hx] using h

/-- An armed hint is left armed exactly if no member access is reached. -/
theorem Tracks.outcome {x : Emit α} {r : Reach} (h : x.Tracks r) :
    (x.outcome true).2 = r.member?.isNone := by
  have harmed := h.armed
  unfold Emit.outcome
  cases hx : x true <;> rw [hx] at harmed <;> cases r <;> simp_all [Reach.member?]

end Emit

namespace Expr
variable {ctx : Context} {naming : Naming}

theorem tracks_emitText (e : Expr) : (emitText ctx e).Tracks (reach ctx e) := by
  have h : (emitText ctx e).Tracks ((reach ctx e).andThen .passed) :=
    (tracks_emit e).bind fun r => Emit.tracks_pure _
  cases hr : reach ctx e <;> simpa [hr, Reach.andThen] using h

theorem reach_relabel (e : Expr) : reach (ctx.relabel naming) e = reach ctx e := by
  induction e using children_induction with
  | step e ih =>
  by_cases he : ∃ target m, e = member target m
  · obtain ⟨target, m, rfl⟩ := he
    rw [reach_member, reach_member]
  · have hne : ∀ target m, e ≠ member target m := by simpa using he
    have hending : (ctx.relabel naming).ending e = ctx.ending e :=
      (Context.ending_eq e naming false []).symm
    have heach : (ctx.steps e).map (reach (ctx.relabel naming)) = (ctx.steps e).map (reach ctx) :=
      List.map_congr_left fun c hc => ih c (Context.mem_children_of_mem_steps hc)
    rw [reach_eq_steps hne, reach_eq_steps hne, Context.steps_relabel, heach, hending]

end Expr

namespace Request
variable {ctx : Context} {naming : Naming} {q : Request}

theorem serve_unarmed (h : q.isWriting = true) : q.serve ctx false = (q.fresh ctx, false) := by
  cases q with
  | setHint armed => cases h
  | write e => exact Prod.ext rfl (Expr.quiet_emit e).outcome
  | writeText e => exact Prod.ext rfl (Expr.tracks_emitText e).quiet.outcome

theorem serve_armed (h : q.isWriting = true) :
    (q.serve ctx true).2 = (q.access? ctx).isNone := by
  cases q with
  | setHint armed => cases h
  | write e => exact (Expr.tracks_emit e).outcome
  | writeText e => exact (Expr.tracks_emitText e).outcome

/-- A request is answered alike under two choices of labels that agree without the hint and, if the
hint is armed, for the member access that takes it. -/
theorem serve_relabel {hint : Bool}
    (unarmed : ∀ m, ctx.naming.label m false = naming.label m false)
    (armed : hint = true → ∀ m, q.access? ctx = some m →
      ctx.naming.label m true = naming.label m true) :
    q.serve ctx hint = q.serve (ctx.relabel naming) hint := by
  have same {e : Expr} (he : q.expr? = some e) : Expr.SameLabels ctx naming e hint := by
    refine ⟨fun target m _ => unarmed m, fun hh m hm => armed hh m ?_⟩
    simp [access?, he, hm, Reach.member?]
  cases q with
  | setHint armed => rfl
  | write e => simp only [serve, (Expr.alike_emit e hint).outcome_eq (same rfl)]
  | writeText e => simp only [serve, (Expr.alike_emitText e hint).outcome_eq (same rfl)]

theorem access?_relabel (q : Request) : q.access? (ctx.relabel naming) = q.access? ctx := by
  simp only [access?, Expr.reach_relabel]

theorem occurs_of_access? {m : Member} (h : q.access? ctx = some m) :
    ∃ e, q.expr? = some e ∧ ∃ target, (Expr.member target m).Occurs e := by
  obtain ⟨e, he, hm⟩ := Option.bind_eq_some_iff.mp h
  have hr : e.reach ctx = .access m := by
    cases hr : e.reach ctx <;> simp_all [Reach.member?]
  exact ⟨e, he, Expr.occurs_of_reach hr⟩

end Request

namespace Context
variable {ctx : Context} {naming : Naming}

theorem session_append (hint : Bool) (qs rs : List Request) :
    ctx.session hint (qs ++ rs) =
      ((ctx.session hint qs).1 ++ (ctx.session (ctx.session hint qs).2 rs).1,
        (ctx.session (ctx.session hint qs).2 rs).2) := by
  induction qs generalizing hint with
  | nil => rfl
  | cons q qs ih => simp [session, ih]

/-- Unarmed, requests are answered one by one as by new writers. -/
theorem session_unarmed {qs : List Request} (writing : ∀ q ∈ qs, q.isWriting = true) :
    ctx.session false qs = (qs.map (Request.fresh ctx), false) := by
  induction qs with
  | nil => rfl
  | cons q qs ih =>
    rw [session, Request.serve_unarmed (writing q (by simp)),
      ih fun p hp => writing p (by simp [hp])]
    rfl

/-- An armed hint is still armed at the end exactly if no member access was reached. -/
theorem session_armed {qs : List Request} (writing : ∀ q ∈ qs, q.isWriting = true) :
    (ctx.session true qs).2 = (ctx.firstAccess? qs).isNone := by
  induction qs with
  | nil => rfl
  | cons q qs ih =>
    have hrest : ∀ p ∈ qs, p.isWriting = true := fun p hp => writing p (by simp [hp])
    have hserve : (q.serve ctx true).2 = (q.access? ctx).isNone :=
      Request.serve_armed (writing q (by simp))
    cases ha : q.access? ctx with
    | some m => simp [session, hserve, ha, session_unarmed hrest, firstAccess?]
    | none => simpa [session, hserve, ha, firstAccess?] using ih hrest

theorem session_relabel {qs : List Request} {hint : Bool}
    (writing : ∀ q ∈ qs, q.isWriting = true)
    (unarmed : ∀ m, ctx.naming.label m false = naming.label m false)
    (armed : hint = true → ∀ m, ctx.firstAccess? qs = some m →
      ctx.naming.label m true = naming.label m true) :
    ctx.session hint qs = (ctx.relabel naming).session hint qs := by
  induction qs generalizing hint with
  | nil => rfl
  | cons q qs ih =>
    have hserve : q.serve ctx hint = q.serve (ctx.relabel naming) hint := by
      refine Request.serve_relabel unarmed fun hh m hm => armed hh m ?_
      simp [firstAccess?, hm]
    have hrest : ctx.session (q.serve ctx hint).2 qs =
        (ctx.relabel naming).session (q.serve ctx hint).2 qs := by
      refine ih (fun p hp => writing p (by simp [hp])) fun hh m hm => ?_
      -- the hint is still armed, so it was armed before and `q` reached no member access
      cases hint with
      | false => simp [Request.serve_unarmed (writing q (by simp))] at hh
      | true =>
        rw [Request.serve_armed (writing q (by simp)), Option.isNone_iff_eq_none] at hh
        refine armed rfl m ?_
        simpa [firstAccess?, hh] using hm
    simp only [session, ← hserve, hrest]

theorem firstAccess?_relabel (qs : List Request) :
    (ctx.relabel naming).firstAccess? qs = ctx.firstAccess? qs := by
  unfold firstAccess?
  congr 1
  funext q
  exact Request.access?_relabel q

end Context

/-- The hint is one-shot in every session, after any requests `before`, failed ones included.
Writing never arms it. Unarmed, requests are answered one by one as by new writers. Once it is set,
the answers up to the next setting depend on the labels without the hint and on that of one member
with it: the first member that is reached, which is the same for all labels and takes the hint. -/
theorem session_hint_oneShot (ctx : Context) (hint : Bool) (before qs : List Request)
    (writing : ∀ q ∈ qs, q.isWriting = true) :
    ((ctx.session hint (before ++ qs)).2 = true → (ctx.session hint before).2 = true) ∧
      ((ctx.session hint before).2 = false →
        ctx.session hint (before ++ qs) =
          ((ctx.session hint before).1 ++ qs.map (Request.fresh ctx), false)) ∧
      ctx.session hint (before ++ .setHint true :: qs) =
        ((ctx.session hint before).1 ++ .done :: (ctx.session true qs).1,
          (ctx.firstAccess? qs).isNone) ∧
      (∀ naming : Naming, (∀ m, ctx.naming.label m false = naming.label m false) →
        (∀ m, ctx.firstAccess? qs = some m → ctx.naming.label m true = naming.label m true) →
          ctx.session true qs = (ctx.relabel naming).session true qs) ∧
      (∀ naming : Naming, (ctx.relabel naming).firstAccess? qs = ctx.firstAccess? qs) ∧
      ∀ m, ctx.firstAccess? qs = some m →
        ∃ q ∈ qs, ∃ e, q.expr? = some e ∧ ∃ target, (Expr.member target m).Occurs e := by
  have hunarmed (h : (ctx.session hint before).2 = false) :
      ctx.session hint (before ++ qs) =
        ((ctx.session hint before).1 ++ qs.map (Request.fresh ctx), false) := by
    rw [Context.session_append, h, Context.session_unarmed writing]
  refine ⟨fun h => ?_, hunarmed, ?_, fun naming unarmed armed => ?_, fun naming => ?_, ?_⟩
  · cases hb : (ctx.session hint before).2 with
    | true => rfl
    | false =>
      rw [hunarmed hb] at h
      cases h
  · rw [Context.session_append, ← Context.session_armed writing]
    rfl
  · exact Context.session_relabel writing unarmed fun _ => armed
  · exact Context.firstAccess?_relabel qs
  · intro m hm
    obtain ⟨q, hq, hqm⟩ := List.exists_of_findSome?_eq_some hm
    exact ⟨q, hq, Request.occurs_of_access? hqm⟩

open LambdaScript.Expr

/-- A method that only the host has, whose argument is not reached, and then a sum of members. -/
def sumRequests : List Request :=
  let x (name : String) : Expr := property (parameter "p") ⟨"Item"⟩ name
  [.write (call none ⟨⟨"Math"⟩, "Abs"⟩ [x "cost"]), .writeText (binary .add (x "price") (x "tax"))]

/-- Declared names, but for members other than `price` with the hint. -/
def priceNaming : Naming := some fun m simple => if simple && m.name != "price" then "?" else m.name

theorem session_hint_oneShot_sum :
    Context.firstAccess? {} sumRequests = some ⟨⟨"Item"⟩, "price", .property⟩ ∧
      Context.session {} true sumRequests =
        Context.session (Context.relabel {} priceNaming) true sumRequests := by
  have hfirst : Context.firstAccess? {} sumRequests = some ⟨⟨"Item"⟩, "price", .property⟩ := by
    simp [Context.firstAccess?, sumRequests, Request.access?, Request.expr?, reach_eq_steps,
      property, Context.steps, Context.written, Context.ending, Context.compose, Lookup.empty,
      Lookup.resolveMethod, BinaryOp.form?, BinaryOp.symbol?, Reach.andThen, Reach.member?]
  have hwriting : ∀ q ∈ sumRequests, q.isWriting = true := by
    simp [sumRequests, Request.isWriting, Request.expr?]
  refine ⟨hfirst, (session_hint_oneShot {} false [] sumRequests hwriting).2.2.2.1 priceNaming ?_ ?_⟩
  · intro m
    rfl
  · intro m hm
    rw [hfirst] at hm
    cases hm
    rfl

end LambdaScript
