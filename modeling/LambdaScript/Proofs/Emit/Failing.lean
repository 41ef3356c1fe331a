import LambdaScript.Proofs.Emit.Settled

/-! # Nodes that fail

A failure is traced to the node that has a cause of refusal: either the node itself, or one of the
children that are written for it, from some hint.
-/

namespace LambdaScript.Expr
variable {ctx : Context}

theorem member_fails {target : Expr} {m : Member} {f : Failure}
    (h : (emit ctx (member target m)).Fails f) :
    Refusal ctx (member target m) f ∨
      ∃ c ∈ ctx.written (member target m), (emit ctx c).Fails f := by
  rw [emit] at h
  rcases h.of_bind with h | ⟨simple, -, h⟩
  · simp at h
  split at h
  · simp at h
  · next hi =>
    have hi := Bool.eq_false_iff.mpr hi
    rcases h.of_bind with h | ⟨owner, hc, h⟩
    · exact .inl (.owner hi (Emit.fails_ofExcept.mp h))
    · rw [Emit.returns_ofExcept] at hc
      cases owner with
      | some owner =>
        rcases h.of_bind with h | ⟨t, -, h⟩
        · obtain ⟨htype, hplain, hfail⟩ :=
            Context.capturedMember_error_iff.mp (Emit.fails_ofExcept.mp h)
          exact .inl (.read hi hc htype hplain hfail)
        · simp at h
      | none =>
        rcases h.of_bind with h | ⟨t, -, h⟩
        · exact .inr ⟨target, by simp [Context.written, hi, hc], h⟩
        · simp at h

theorem memberInit_fails {base : Construction Expr} {bindings : List (Binding Expr)} {f : Failure}
    (h : (emit ctx (memberInit base bindings)).Fails f) :
    Refusal ctx (memberInit base bindings) f ∨
      ∃ c ∈ ctx.written (memberInit base bindings), (emit ctx c).Fails f := by
  rw [emit] at h
  split at h
  · next hb =>
    rcases h.of_bind with h | ⟨ts, -, h⟩
    · obtain ⟨c, hc, hf⟩ := emitAll_fails h
      exact .inr ⟨c, by simp [Context.written, hb, hc], hf⟩
    · simp at h
  · next hb =>
    rcases h.of_bind with h | ⟨ps, -, h⟩
    · obtain ⟨c, hc, hf⟩ := emitBindings_fails h
      exact .inr ⟨c, List.mem_append_left _ hc, hf⟩
    · split at h
      · simp at h
      · next ha =>
        split at h
        · next hl =>
          rcases h.of_bind with h | ⟨ts, -, h⟩
          · obtain ⟨c, hc, hf⟩ := emitAll_fails h
            exact .inr ⟨c, by simp [Context.written, hl, hc], hf⟩
          · simp at h
        · next hl =>
          rw [Emit.fails_throw] at h
          subst h
          exact .inl (.arity (mt List.isEmpty_iff.mpr hb) (mt List.isEmpty_iff.mpr ha) hl)

theorem unary_fails {op : UnaryOp} {operand : Expr} {f : Failure}
    (h : (emit ctx (unary op operand)).Fails f) :
    Refusal ctx (unary op operand) f ∨
      ∃ c ∈ ctx.written (unary op operand), (emit ctx c).Fails f := by
  rcases unary_forms op operand with ⟨t, v, rfl, rfl⟩ | ⟨t, rfl, hv⟩ | hop
  · rw [emit] at h
    rcases h.of_bind with h | ⟨s, -, h⟩
    · exact .inl (.converted (Emit.fails_ofExcept.mp h))
    · simp at h
  · rw [emit_convert hv] at h
    exact .inr ⟨operand, by simp [Context.written_convert hv], h⟩
  · rw [emit_unary hop] at h
    split at h
    · next before after ha =>
      rcases h.of_bind with h | ⟨s, -, h⟩
      · exact .inr ⟨operand, by simp [Context.written_unary hop, ha], h⟩
      · simp at h
    · next ha =>
      rw [Emit.fails_throw] at h
      subst h
      exact .inl (.unary ha hop)

theorem call_fails {target : Option Expr} {m : Method} {args : List Expr} {f : Failure}
    (h : (emit ctx (call target m args)).Fails f) :
    Refusal ctx (call target m args) f ∨
      ∃ c ∈ ctx.written (call target m args), (emit ctx c).Fails f := by
  cases target with
  | none =>
    rw [emit] at h
    split at h
    · next hm =>
      rcases h.of_bind with h | ⟨ts, -, h⟩
      · obtain ⟨c, hc, hf⟩ := emitAll_fails h
        exact .inr ⟨c, by simp [Context.written, hm, hc], hf⟩
      · simp at h
    · next hm =>
      rw [Emit.fails_throw] at h
      subst h
      exact .inl (.static hm)
  | some target =>
    rw [emit] at h
    rcases h.of_bind with h | ⟨owner, hc, h⟩
    · exact .inl (.receiver (Emit.fails_ofExcept.mp h))
    · rw [Emit.returns_ofExcept] at hc
      split at h
      · next hm =>
        rcases h.of_bind with h | ⟨ts, -, h⟩
        · obtain ⟨c, hmem, hf⟩ := emitAll_fails h
          exact .inr ⟨c, by simp [Context.written, hc, hm, hmem], hf⟩
        · simp at h
      · next hm =>
        rcases h.of_bind with h | ⟨object, ho, h⟩
        · exact .inr ⟨target, by simp [Context.written, hc, hm], h⟩
        · cases object with
          | none =>
            rw [Emit.fails_throw] at h
            subst h
            obtain ⟨hi, hbare⟩ := (settled_of_returns ho).text rfl
            exact .inl (.textless hc hm hi hbare)
          | some object =>
            rcases h.of_bind with h | ⟨ts, -, h⟩
            · obtain ⟨c, hmem, hf⟩ := emitAll_fails h
              exact .inr ⟨c, by simp [Context.written, hc, hm, hmem], hf⟩
            · simp at h

/-- A failure comes from the node itself or from a child that is written for it. -/
theorem emit_fails {e : Expr} {f : Failure} (h : (emit ctx e).Fails f) :
    Refusal ctx e f ∨ ∃ c ∈ ctx.written e, (emit ctx c).Fails f := by
  cases e with
  | parameter name => simp [emit] at h
  | member target m => exact member_fails h
  | index target args =>
    rw [emit] at h
    rcases h.of_bind with h | ⟨t, -, h⟩
    · exact .inr ⟨target, by simp [Context.written, children], h⟩
    · rcases h.of_bind with h | ⟨ts, -, h⟩
      · obtain ⟨c, hc, hf⟩ := emitAll_fails h
        exact .inr ⟨c, by simp [Context.written, children, hc], hf⟩
      · simp at h
  | new base =>
    rw [emit] at h
    rcases h.of_bind with h | ⟨ts, -, h⟩
    · exact .inr (emitAll_fails h)
    · simp at h
  | memberInit base bindings => exact memberInit_fails h
  | newArray items =>
    rw [emit] at h
    rcases h.of_bind with h | ⟨ts, -, h⟩
    · exact .inr (emitAll_fails h)
    · simp at h
  | constant v =>
    rw [emit] at h
    rcases h.of_bind with h | ⟨t, -, h⟩
    · exact .inl (.constant (Emit.fails_ofExcept.mp h))
    · simp at h
  | binary op left right =>
    rw [emit] at h
    split at h
    · next form hop =>
      rcases h.of_bind with h | ⟨l, -, h⟩
      · exact .inr ⟨left, by simp [Context.written, hop], h⟩
      · rcases h.of_bind with h | ⟨s, -, h⟩
        · exact .inr ⟨right, by simp [Context.written, hop], h⟩
        · simp at h
    · next hop =>
      rw [Emit.fails_throw] at h
      subst h
      exact .inl (.binary hop)
  | unary op operand => exact unary_fails h
  | call target m args => exact call_fails h
  | conditional test ifTrue ifFalse =>
    cases ifFalse with
    | none =>
      rw [emit] at h
      rcases h.of_bind with h | ⟨c, -, h⟩
      · exact .inr ⟨test, by simp [Context.written, children], h⟩
      · rcases h.of_bind with h | ⟨a, -, h⟩
        · exact .inr ⟨ifTrue, by simp [Context.written, children], h⟩
        · simp at h
    | some ifFalse =>
      rw [emit] at h
      rcases h.of_bind with h | ⟨c, -, h⟩
      · exact .inr ⟨test, by simp [Context.written, children], h⟩
      · rcases h.of_bind with h | ⟨a, -, h⟩
        · exact .inr ⟨ifTrue, by simp [Context.written, children], h⟩
        · rcases h.of_bind with h | ⟨b, -, h⟩
          · exact .inr ⟨ifFalse, by simp [Context.written, children], h⟩
          · simp at h
  | lambda params body =>
    rw [emit, Emit.fails_throw] at h
    subst h
    exact .inl .lambda
  | invoke target args =>
    rw [emit, Emit.fails_throw] at h
    subst h
    exact .inl .invoke
  | typeIs operand type =>
    rw [emit, Emit.fails_throw] at h
    subst h
    exact .inl .typeIs

/-- Every failure comes from some node that is refused for it. -/
theorem refusal_of_fails {e : Expr} {f : Failure} (h : (emit ctx e).Fails f) :
    ∃ x, Occurs x e ∧ Refusal ctx x f := by
  induction e using children_induction with
  | step e ih =>
  rcases emit_fails h with hr | ⟨c, hc, hf⟩
  · exact ⟨e, .self, hr⟩
  · have mem := Context.mem_children_of_mem_written hc
    obtain ⟨x, hx, hr⟩ := ih c mem hf
    exact ⟨x, .child mem hx, hr⟩

end LambdaScript.Expr
