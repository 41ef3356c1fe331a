import LambdaScript.Proofs.Emit.Steps
import LambdaScript.Proofs.Emit.Unarmed

/-! # Where the hint goes

The hint is taken by the first member access that writing an expression reaches. `Expr.reach` finds
it among the steps, in their order: a member access is reached itself, before its target; the steps
of any other node are searched until one holds a member access or the writing fails.
`tracks_emit` says that this is what happens to an armed hint, also when the writing fails.
-/

namespace LambdaScript

/-- How far the search for a member access gets. -/
inductive Reach where
  /-- To a member access. -/
  | access (m : Member)
  /-- To the end: everything is written without one. -/
  | passed
  /-- To a failure, before any member access. -/
  | stopped
deriving DecidableEq

/-- The search goes on only where everything was written. -/
def Reach.andThen : Reach → Reach → Reach
  | passed, r => r
  | r, _ => r

def Reach.member? : Reach → Option Member
  | access m => some m
  | _ => none

namespace Context

/-- How the search ends at a node whose steps hold no member access. -/
def ending (ctx : Context) (e : Expr) : Reach :=
  match ctx.compose false e [] with
  | .ok _ => .passed
  | .error _ => .stopped

/-- The ending is the same for all labels and texts of the steps. -/
theorem ending_eq {ctx : Context} (e : Expr) (naming : Naming) (simple : Bool)
    (rs : List (Option String)) :
    ctx.ending e = match (ctx.relabel naming).compose simple e rs with
      | .ok _ => .passed
      | .error _ => .stopped := by
  unfold ending
  cases h : ctx.compose false e [] with
  | error f => rw [compose_eq_error h]
  | ok r =>
    cases h' : (ctx.relabel naming).compose simple e rs with
    | ok s => rfl
    | error f =>
      have herror : ((ctx.relabel naming).relabel ctx.naming).compose false e [] = .error f :=
        compose_eq_error h' false []
      change ctx.compose false e [] = .error f at herror
      rw [h] at herror
      cases herror

end Context

namespace Expr

/-- The first member access that is reached when an expression is written. -/
def reach (ctx : Context) : Expr → Reach
  | member _ m => .access m
  | e => ((ctx.steps e).attach.map fun c => reach ctx c.1).foldr .andThen (ctx.ending e)
termination_by e => sizeOf e
decreasing_by exact sizeOf_lt_of_mem_children (Context.mem_children_of_mem_steps c.2)

variable {ctx : Context}

@[simp] theorem reach_member (target : Expr) (m : Member) :
    reach ctx (member target m) = .access m := by
  rw [reach]

theorem reach_eq_steps {e : Expr} (h : ∀ target m, e ≠ member target m) :
    reach ctx e = ((ctx.steps e).map (reach ctx)).foldr .andThen (ctx.ending e) := by
  rw [reach]
  · simp
  · exact h

/-- The member that is found is one of a member access of the expression. -/
theorem occurs_of_reach {e : Expr} {m : Member} (h : reach ctx e = .access m) :
    ∃ target, Occurs (member target m) e := by
  induction e using children_induction with
  | step e ih =>
  by_cases he : ∃ target n, e = member target n
  · obtain ⟨target, n, rfl⟩ := he
    rw [reach_member] at h
    cases h
    exact ⟨target, .self⟩
  · have hfold : ∀ cs : List Expr, (∀ c ∈ cs, c ∈ ctx.steps e) →
        (cs.map (reach ctx)).foldr .andThen (ctx.ending e) = .access m →
          ∃ c ∈ cs, reach ctx c = .access m := by
      intro cs hcs hm
      induction cs with
      | nil =>
        simp only [List.map_nil, List.foldr_nil, Context.ending] at hm
        split at hm <;> cases hm
      | cons c cs ihcs =>
        cases hc : reach ctx c with
        | access n =>
          simp only [List.map_cons, List.foldr_cons, hc, Reach.andThen] at hm
          exact ⟨c, by simp, by rw [hc, hm]⟩
        | passed =>
          simp only [List.map_cons, List.foldr_cons, hc, Reach.andThen] at hm
          obtain ⟨d, hd, hdm⟩ := ihcs (fun d hd => hcs d (by simp [hd])) hm
          exact ⟨d, by simp [hd], hdm⟩
        | stopped => simp [hc, Reach.andThen] at hm
    rw [reach_eq_steps (by simpa using he)] at h
    obtain ⟨c, hc, hcm⟩ := hfold _ (fun _ => id) h
    have mem := Context.mem_children_of_mem_steps hc
    obtain ⟨target, ht⟩ := ih c mem hcm
    exact ⟨target, .child mem ht⟩

end Expr

namespace Emit
variable {α β : Type}

/-- The writing never arms the hint, and leaves an armed one as the search says. -/
structure Tracks (x : Emit α) (r : Reach) : Prop where
  quiet : x.Quiet
  armed : match x true, r with
    | .ok _ hint, .access _ => hint = false
    | .error _ hint, .access _ => hint = false
    | .ok _ hint, .passed => hint = true
    | .error _ hint, .stopped => hint = true
    | _, _ => False

theorem tracks_pure (a : α) : Tracks (pure a) .passed := ⟨quiet_pure a, rfl⟩

theorem tracks_throw (f : Failure) : Tracks (throw f : Emit α) .stopped := ⟨quiet_throw f, rfl⟩

/-- Taking the hint is what happens at a member access. -/
theorem tracks_takeHint (m : Member) : takeHint.Tracks (.access m) := ⟨quiet_takeHint, rfl⟩

theorem Tracks.bind {x : Emit α} {k : α → Emit β} {r s : Reach} (hx : x.Tracks r)
    (hk : ∀ a, (k a).Tracks s) : (x >>= k).Tracks (r.andThen s) := by
  refine ⟨hx.quiet.bind fun a => (hk a).quiet, ?_⟩
  have harmed := hx.armed
  change match EStateM.bind x k true, r.andThen s with
    | .ok _ hint, .access _ => hint = false
    | .error _ hint, .access _ => hint = false
    | .ok _ hint, .passed => hint = true
    | .error _ hint, .stopped => hint = true
    | _, _ => False
  unfold EStateM.bind
  cases hxt : x true with
  | ok a hint =>
    rw [hxt] at harmed
    cases r with
    | access m =>
      subst harmed
      have hquiet := (hk a).quiet
      unfold Quiet at hquiet
      cases hka : k a false <;> simp_all [Reach.andThen]
    | passed =>
      subst harmed
      exact (hk a).armed
    | stopped => exact harmed.elim
  | error f hint =>
    rw [hxt] at harmed
    cases r with
    | access m => exact harmed
    | passed => exact harmed.elim
    | stopped => exact harmed

/-- What returned with the hint still armed was started armed and passed. -/
theorem Tracks.passed_of_ok {x : Emit α} {r : Reach} {hint : Bool} {a : α} (hx : x.Tracks r)
    (h : x hint = .ok a true) : hint = true ∧ r = .passed := by
  cases hint with
  | false =>
    have hquiet := hx.quiet
    rw [Quiet, h] at hquiet
    cases hquiet
  | true =>
    have harmed := hx.armed
    rw [h] at harmed
    cases r with
    | access m => cases harmed
    | passed => exact ⟨rfl, rfl⟩
    | stopped => exact harmed.elim

end Emit

namespace Expr
variable {ctx : Context}

theorem tracks_steps {β : Type} {es : List Expr}
    (each : ∀ e ∈ es, (emit ctx e).Tracks (reach ctx e)) {k : List (Option String) → Emit β}
    {s : Reach} (hk : ∀ rs, (k rs).Tracks s) :
    (es.mapM (emit ctx) >>= k).Tracks ((es.map (reach ctx)).foldr .andThen s) := by
  induction es generalizing k with
  | nil => simpa using hk []
  | cons e es ih =>
    simp only [List.mapM_cons, bind_assoc, pure_bind, List.map_cons, List.foldr_cons]
    refine (each e (by simp)).bind fun r => ?_
    exact ih (fun c hc => each c (by simp [hc])) fun rs => hk (r :: rs)

theorem tracks_compose (e : Expr) (simple : Bool) (rs : List (Option String)) :
    (Emit.ofExcept (ctx.compose simple e rs)).Tracks (ctx.ending e) := by
  have hending : ctx.ending e = match ctx.compose simple e rs with
      | .ok _ => .passed
      | .error _ => .stopped :=
    Context.ending_eq e ctx.naming simple rs
  rw [hending]
  cases ctx.compose simple e rs with
  | ok r => exact Emit.tracks_pure r
  | error f => exact Emit.tracks_throw f

/-- The first member access that is reached takes the hint; without one the hint stays. -/
theorem tracks_emit (e : Expr) : (emit ctx e).Tracks (reach ctx e) := by
  induction e using children_induction with
  | step e ih =>
  have each (c : Expr) (hc : c ∈ ctx.steps e) : (emit ctx c).Tracks (reach ctx c) :=
    ih c (Context.mem_children_of_mem_steps hc)
  by_cases he : ∃ target m, e = member target m
  · obtain ⟨target, m, rfl⟩ := he
    rw [emit_eq_steps, reach_member]
    exact (Emit.tracks_takeHint m).bind fun simple => tracks_steps each (tracks_compose _ simple)
  · rw [emit_eq_steps, Emit.hintFor_eq_pure he, pure_bind, reach_eq_steps (by simpa using he)]
    exact tracks_steps each (tracks_compose e false)

end Expr
end LambdaScript
