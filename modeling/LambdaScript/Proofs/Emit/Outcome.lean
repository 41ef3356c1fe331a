import LambdaScript.Script

/-! # Outcomes of writing

A writing may be started with the hint armed or not. Here it is followed for both at once: what it
can return and what it can fail with, from some hint, is traced back through sequencing to its
parts.
-/

namespace LambdaScript

/-- Steps that are taken alike one by one are taken alike in a row. -/
theorem mapM_congr {m : Type → Type} [Monad m] [LawfulMonad m] {α β : Type} {f g : α → m β}
    {as : List α} (h : ∀ a ∈ as, f a = g a) : as.mapM f = as.mapM g := by
  induction as with
  | nil => rfl
  | cons a as ih =>
    rw [List.mapM_cons, List.mapM_cons, h a (by simp), ih fun c hc => h c (by simp [hc])]

section
variable {α β : Type} {x : Except Failure α} {k : α → Except Failure β}

@[simp] theorem ok_bind (a : α) : Except.ok a >>= k = k a := rfl

@[simp] theorem error_bind (f : Failure) : Except.error f >>= k = .error f := rfl

@[simp] theorem pure_eq_ok (a : α) : (pure a : Except Failure α) = .ok a := rfl

theorem bind_eq_ok {b : β} : x >>= k = .ok b ↔ ∃ a, x = .ok a ∧ k a = .ok b := by
  cases x with
  | ok a => simp
  | error e => simp

theorem bind_eq_error {f : Failure} :
    x >>= k = .error f ↔ x = .error f ∨ ∃ a, x = .ok a ∧ k a = .error f := by
  cases x with
  | ok a => simp
  | error e => simp

/-- A run of steps fails with the failure of the first step that fails. -/
theorem foldlM_eq_error_iff {step : β → α → Except Failure β} {b : β} {as : List α} {f : Failure} :
    as.foldlM step b = .error f ↔
      ∃ before a after c, as = before ++ a :: after ∧ before.foldlM step b = .ok c ∧
        step c a = .error f := by
  induction as generalizing b with
  | nil => simp
  | cons a as ih =>
    rw [List.foldlM_cons, bind_eq_error]
    constructor
    · rintro (hfirst | ⟨c, hc, hrest⟩)
      · exact ⟨[], a, as, b, rfl, rfl, hfirst⟩
      · obtain ⟨before, d, after, e, rfl, hbefore, hd⟩ := ih.mp hrest
        exact ⟨a :: before, d, after, e, rfl, by rw [List.foldlM_cons, hc, ok_bind, hbefore], hd⟩
    · rintro ⟨before, d, after, e, heq, hbefore, hd⟩
      cases before with
      | nil =>
        cases heq
        cases hbefore
        exact .inl hd
      | cons a' before =>
        cases heq
        rw [List.foldlM_cons] at hbefore
        obtain ⟨c, hc, hrest⟩ := bind_eq_ok.mp hbefore
        exact .inr ⟨c, hc, ih.mpr ⟨before, d, after, e, rfl, hrest, hd⟩⟩

end

namespace Emit
variable {α β : Type}

/-- From some hint, the writing returns this. -/
def Returns (x : Emit α) (a : α) : Prop := ∃ hint rest, x hint = .ok a rest

def Fails (x : Emit α) (f : Failure) : Prop := ∃ hint rest, x hint = .error f rest

theorem returns_of_result {x : Emit α} {hint : Bool} {a : α} (h : x.result hint = .ok a) :
    x.Returns a := by
  unfold result at h
  split at h
  · next b rest hx => cases h; exact ⟨hint, rest, hx⟩
  · cases h

theorem fails_of_result {x : Emit α} {hint : Bool} {f : Failure} (h : x.result hint = .error f) :
    x.Fails f := by
  unfold result at h
  split at h
  · cases h
  · next g rest hx => cases h; exact ⟨hint, rest, hx⟩

theorem Returns.of_bind {x : Emit α} {k : α → Emit β} {b : β} (h : (x >>= k).Returns b) :
    ∃ a, x.Returns a ∧ (k a).Returns b := by
  obtain ⟨hint, rest, h⟩ := h
  change EStateM.bind x k hint = _ at h
  unfold EStateM.bind at h
  split at h
  · next a mid hx => exact ⟨a, ⟨hint, mid, hx⟩, ⟨mid, rest, h⟩⟩
  · cases h

theorem Fails.of_bind {x : Emit α} {k : α → Emit β} {f : Failure} (h : (x >>= k).Fails f) :
    x.Fails f ∨ ∃ a, x.Returns a ∧ (k a).Fails f := by
  obtain ⟨hint, rest, h⟩ := h
  change EStateM.bind x k hint = _ at h
  unfold EStateM.bind at h
  split at h
  · next a mid hx => exact .inr ⟨a, ⟨hint, mid, hx⟩, ⟨mid, rest, h⟩⟩
  · next g rest' hx => cases h; exact .inl ⟨hint, rest, hx⟩

@[simp] theorem returns_pure {a b : α} : (pure a : Emit α).Returns b ↔ b = a := by
  constructor
  · rintro ⟨hint, rest, h⟩
    cases h
    rfl
  · rintro rfl
    exact ⟨false, false, rfl⟩

@[simp] theorem not_fails_pure {a : α} {f : Failure} : ¬ (pure a : Emit α).Fails f := by
  rintro ⟨hint, rest, h⟩
  cases h

@[simp] theorem not_returns_throw {a : α} {f : Failure} : ¬ (throw f : Emit α).Returns a := by
  rintro ⟨hint, rest, h⟩
  cases h

@[simp] theorem fails_throw {f g : Failure} : (throw f : Emit α).Fails g ↔ g = f := by
  constructor
  · rintro ⟨hint, rest, h⟩
    cases h
    rfl
  · rintro rfl
    exact ⟨false, false, rfl⟩

@[simp] theorem returns_ofExcept {x : Except Failure α} {a : α} :
    (ofExcept x).Returns a ↔ x = .ok a := by
  cases x with
  | ok b => simp [ofExcept, eq_comm]
  | error f => simp [ofExcept]

@[simp] theorem fails_ofExcept {x : Except Failure α} {f : Failure} :
    (ofExcept x).Fails f ↔ x = .error f := by
  cases x with
  | ok b => simp [ofExcept]
  | error g => simp [ofExcept, eq_comm]

@[simp] theorem not_fails_takeHint {f : Failure} : ¬ takeHint.Fails f := by
  rintro ⟨hint, rest, h⟩
  cases h

end Emit

namespace Expr
variable {ctx : Context}

theorem emitAll_returns {es : List Expr} {ts : List String} (h : (emitAll ctx es).Returns ts) :
    ∀ e ∈ es, ∃ r, (emit ctx e).Returns r := by
  induction es generalizing ts with
  | nil => simp
  | cons e es ih =>
    rw [emitAll] at h
    obtain ⟨r, hr, h⟩ := h.of_bind
    obtain ⟨rs, hrs, -⟩ := h.of_bind
    intro x hx
    rcases List.mem_cons.mp hx with rfl | hx
    · exact ⟨r, hr⟩
    · exact ih hrs x hx

theorem emitAll_fails {es : List Expr} {f : Failure} (h : (emitAll ctx es).Fails f) :
    ∃ e ∈ es, (emit ctx e).Fails f := by
  induction es with
  | nil => simp [emitAll] at h
  | cons e es ih =>
    rw [emitAll] at h
    rcases h.of_bind with h | ⟨r, -, h⟩
    · exact ⟨e, by simp, h⟩
    · rcases h.of_bind with h | ⟨rs, -, h⟩
      · obtain ⟨x, hx, hf⟩ := ih h
        exact ⟨x, by simp [hx], hf⟩
      · simp at h

/-- Bindings are written as their values are, with the names put before the texts afterwards. -/
theorem emitBindings_eq (bs : List (Binding Expr)) :
    emitBindings ctx bs = do
      let ts ← emitAll ctx (bs.map Binding.value)
      return List.zipWith pairText (bs.map (·.member.name)) ts := by
  induction bs with
  | nil => simp [emitBindings, emitAll]
  | cons b bs ih => simp [emitBindings, emitAll, ih]

theorem emitBindings_returns {bs : List (Binding Expr)} {ts : List String}
    (h : (emitBindings ctx bs).Returns ts) :
    ∀ e ∈ bs.map Binding.value, ∃ r, (emit ctx e).Returns r := by
  rw [emitBindings_eq] at h
  obtain ⟨rs, hrs, -⟩ := h.of_bind
  exact emitAll_returns hrs

theorem emitBindings_fails {bs : List (Binding Expr)} {f : Failure}
    (h : (emitBindings ctx bs).Fails f) :
    ∃ e ∈ bs.map Binding.value, (emit ctx e).Fails f := by
  rw [emitBindings_eq] at h
  rcases h.of_bind with h | ⟨rs, -, h⟩
  · exact emitAll_fails h
  · simp at h

theorem result_emitText (e : Expr) (hint : Bool) :
    (emitText ctx e).result hint = do
      let r ← (emit ctx e).result hint
      return r.getD "" := by
  change Emit.result (EStateM.bind (emit ctx e) _) hint = _
  unfold Emit.result EStateM.bind
  cases emit ctx e hint <;> rfl

theorem returns_of_emitText {e : Expr} {t : String} (h : (emitText ctx e).Returns t) :
    ∃ r, (emit ctx e).Returns r := by
  obtain ⟨r, hr, -⟩ := h.of_bind
  exact ⟨r, hr⟩

theorem fails_of_emitText {e : Expr} {f : Failure} (h : (emitText ctx e).Fails f) :
    (emit ctx e).Fails f := by
  rcases h.of_bind with h | ⟨r, -, h⟩
  · exact h
  · simp at h

end Expr

namespace Lambda
variable {ctx : Context} {f : Lambda}

theorem returns_of_compile {t : String} (h : f.compile ctx = .ok t) :
    ∃ r, (f.body.emit ctx).Returns r := by
  unfold compile at h
  split at h
  · split at h
    · exact Expr.returns_of_emitText (Emit.returns_of_result h)
    · cases h
  · cases hb : (f.body.emitText ctx).result false with
    | ok body => exact Expr.returns_of_emitText (Emit.returns_of_result hb)
    | error g => simp [hb, bind, Except.bind] at h

/-- A lambda is refused for its parameters, or because its body is. -/
theorem fails_of_compile {e : Failure} (h : f.compile ctx = .error e) :
    (ctx.inline = true ∧ f.params.length ≠ 1 ∧ e = .arity .inlineParameters 1 f.params.length) ∨
      (f.body.emit ctx).Fails e := by
  unfold compile at h
  split at h
  · next hi =>
    split at h
    · exact .inr (Expr.fails_of_emitText (Emit.fails_of_result h))
    · next hp =>
      cases h
      exact .inl ⟨hi, hp, rfl⟩
  · cases hb : (f.body.emitText ctx).result false with
    | ok body => simp [hb, bind, Except.bind, pure, Except.pure] at h
    | error g =>
      rw [hb] at h
      cases h
      exact .inr (Expr.fails_of_emitText (Emit.fails_of_result hb))

end Lambda
end LambdaScript
