import LambdaScript.Proofs.Emit.Refusal

/-! # Nodes that are written

A node that is written has no cause of refusal, the children that are written for it are written,
and it has a text unless it is the inline parameter. This holds from every hint.
-/

namespace LambdaScript.Expr
variable {ctx : Context}

/-- What is known of a node that was written: it is not refused, its written children were written
too, and it has a text unless it is the parameter of an inline expression under conversions. -/
structure Settled (ctx : Context) (e : Expr) (r : Option String) : Prop where
  accepted : ∀ f, ¬ Refusal ctx e f
  children : ∀ c ∈ ctx.written e, ∃ s, (emit ctx c).Returns s
  text : r = none → ctx.inline = true ∧ e.IsConvertedParameter

theorem settled_member {target : Expr} {m : Member} {r : Option String}
    (h : (emit ctx (member target m)).Returns r) : Settled ctx (member target m) r := by
  rw [emit] at h
  obtain ⟨simple, -, h⟩ := h.of_bind
  split at h
  · next hi =>
    rw [Emit.returns_pure] at h
    refine ⟨?_, by simp [Context.written, hi], by simp [h]⟩
    rintro f (_ | _) <;> simp_all
  · next hi =>
    obtain ⟨owner, hc, h⟩ := h.of_bind
    rw [Emit.returns_ofExcept] at hc
    cases owner with
    | some owner =>
      obtain ⟨t, ht, h⟩ := h.of_bind
      rw [Emit.returns_ofExcept] at ht
      rw [Emit.returns_pure] at h
      refine ⟨fun f hf => ?_, by simp [Context.written, hc], by simp [h]⟩
      cases hf with
      | owner _ hfail => simp [hc] at hfail
      | read _ hv htype hplain hfail =>
        rw [hc] at hv
        cases hv
        rw [Context.capturedMember_error_iff.mpr ⟨htype, hplain, hfail⟩] at ht
        cases ht
    | none =>
      obtain ⟨t, ht, h⟩ := h.of_bind
      rw [Emit.returns_pure] at h
      refine ⟨fun f hf => ?_, ?_, by simp [h]⟩
      · cases hf with
        | owner _ hfail => simp [hc] at hfail
        | read _ hv => simp [hc] at hv
      · simpa [Context.written, hi, hc] using ⟨t, ht⟩

theorem settled_memberInit {base : Construction Expr} {bindings : List (Binding Expr)}
    {r : Option String} (h : (emit ctx (memberInit base bindings)).Returns r) :
    Settled ctx (memberInit base bindings) r := by
  rw [emit] at h
  split at h
  · next hb =>
    obtain ⟨ts, hts, h⟩ := h.of_bind
    rw [Emit.returns_pure] at h
    have hnil := List.isEmpty_iff.mp hb
    refine ⟨?_, ?_, by simp [h]⟩
    · rintro f ⟨⟩
      contradiction
    · simpa [Context.written, hnil] using emitAll_returns hts
  · obtain ⟨ps, hps, h⟩ := h.of_bind
    split at h
    · next ha =>
      rw [Emit.returns_pure] at h
      have hnil : base.args = [] := List.isEmpty_iff.mp ha
      refine ⟨?_, ?_, by simp [h]⟩
      · rintro f ⟨⟩
        contradiction
      · simpa [Context.written, hnil] using emitBindings_returns hps
    · split at h
      · next hl =>
        obtain ⟨ts, hts, h⟩ := h.of_bind
        rw [Emit.returns_pure] at h
        refine ⟨?_, ?_, by simp [h]⟩
        · rintro f ⟨⟩
          contradiction
        · simp only [Context.written, hl, decide_true, Bool.or_true, if_true]
          exact List.forall_mem_append.mpr ⟨emitBindings_returns hps, emitAll_returns hts⟩
      · simp at h

theorem settled_call {target : Option Expr} {m : Method} {args : List Expr} {r : Option String}
    (h : (emit ctx (call target m args)).Returns r) : Settled ctx (call target m args) r := by
  cases target with
  | none =>
    rw [emit] at h
    split at h
    · next hm =>
      obtain ⟨ts, hts, h⟩ := h.of_bind
      rw [Emit.returns_pure] at h
      refine ⟨?_, ?_, by simp [h]⟩
      · rintro f ⟨⟩
        simp_all
      · simpa [Context.written, hm] using emitAll_returns hts
    · simp at h
  | some target =>
    rw [emit] at h
    obtain ⟨owner, hc, h⟩ := h.of_bind
    rw [Emit.returns_ofExcept] at hc
    split at h
    · next hm =>
      obtain ⟨ts, hts, h⟩ := h.of_bind
      rw [Emit.returns_pure] at h
      refine ⟨?_, ?_, by simp [h]⟩
      · rintro f (_ | _) <;> simp_all
      · simpa [Context.written, hc, hm] using emitAll_returns hts
    · next hm =>
      obtain ⟨object, ho, h⟩ := h.of_bind
      cases object with
      | none => simp at h
      | some object =>
        obtain ⟨ts, hts, h⟩ := h.of_bind
        rw [Emit.returns_pure] at h
        refine ⟨fun f hf => ?_, ?_, by simp [h]⟩
        · cases hf with
          | receiver hfail => simp [hc] at hfail
          | textless _ _ hi hbare =>
            obtain ⟨name, hname⟩ := hbare
            simp [hname.emit_eq, hi] at ho
        · simp only [Context.written, hc, hm, Option.isSome_none, Bool.false_eq_true, if_false]
          exact List.forall_mem_cons.mpr ⟨⟨_, ho⟩, emitAll_returns hts⟩

/-- Only in front of a conversion that is left out does the text depend on that of the operand. -/
theorem settled_unary {op : UnaryOp} {operand : Expr} {r : Option String}
    (inner : ∀ s, (emit ctx operand).Returns s → Settled ctx operand s)
    (h : (emit ctx (unary op operand)).Returns r) : Settled ctx (unary op operand) r := by
  rcases unary_forms op operand with ⟨t, v, rfl, rfl⟩ | ⟨t, rfl, hv⟩ | hop
  · rw [emit] at h
    obtain ⟨s, hs, h⟩ := h.of_bind
    rw [Emit.returns_ofExcept] at hs
    rw [Emit.returns_pure] at h
    refine ⟨?_, by simp [Context.written], by simp [h]⟩
    rintro f (_ | _) <;> simp_all
  · rw [emit_convert hv] at h
    refine ⟨?_, by simpa [Context.written_convert hv] using ⟨r, h⟩, ?_⟩
    · rintro f (_ | _) <;> simp_all
    · intro hr
      obtain ⟨hi, name, hname⟩ := (inner r h).text hr
      exact ⟨hi, name, .convert t hname⟩
  · rw [emit_unary hop] at h
    split at h
    · next before after ha =>
      obtain ⟨s, hs, h⟩ := h.of_bind
      rw [Emit.returns_pure] at h
      refine ⟨?_, by simpa [Context.written_unary hop, ha] using ⟨s, hs⟩, by simp [h]⟩
      rintro f (_ | _) <;> simp_all
    · simp at h

theorem settled_of_returns {e : Expr} {r : Option String} (h : (emit ctx e).Returns r) :
    Settled ctx e r := by
  induction e using children_induction generalizing r with
  | step e ih =>
  cases e with
  | parameter name =>
    rw [emit, Emit.returns_pure] at h
    refine ⟨by rintro f ⟨⟩, by simp [Context.written, children], ?_⟩
    rintro rfl
    cases hi : ctx.inline <;> simp [hi] at h
    exact ⟨rfl, name, .bare⟩
  | member target m => exact settled_member h
  | index target args =>
    rw [emit] at h
    obtain ⟨t, ht, h⟩ := h.of_bind
    obtain ⟨ts, hts, h⟩ := h.of_bind
    rw [Emit.returns_pure] at h
    exact ⟨by rintro f ⟨⟩, List.forall_mem_cons.mpr ⟨⟨t, ht⟩, emitAll_returns hts⟩, by simp [h]⟩
  | new base =>
    rw [emit] at h
    obtain ⟨ts, hts, h⟩ := h.of_bind
    rw [Emit.returns_pure] at h
    exact ⟨by rintro f ⟨⟩, emitAll_returns hts, by simp [h]⟩
  | memberInit base bindings => exact settled_memberInit h
  | newArray items =>
    rw [emit] at h
    obtain ⟨ts, hts, h⟩ := h.of_bind
    rw [Emit.returns_pure] at h
    exact ⟨by rintro f ⟨⟩, emitAll_returns hts, by simp [h]⟩
  | constant v =>
    rw [emit] at h
    obtain ⟨t, ht, h⟩ := h.of_bind
    rw [Emit.returns_ofExcept] at ht
    rw [Emit.returns_pure] at h
    refine ⟨?_, by simp [Context.written, children], by simp [h]⟩
    rintro f ⟨⟩
    simp_all
  | binary op left right =>
    rw [emit] at h
    split at h
    · next form hop =>
      obtain ⟨l, hl, h⟩ := h.of_bind
      obtain ⟨s, hs, h⟩ := h.of_bind
      rw [Emit.returns_pure] at h
      refine ⟨?_, ?_, by simp [h]⟩
      · rintro f ⟨⟩
        simp_all
      · simpa [Context.written, hop] using ⟨⟨l, hl⟩, ⟨s, hs⟩⟩
    · simp at h
  | unary op operand => exact settled_unary (fun _ => ih operand (by simp [children])) h
  | call target m args => exact settled_call h
  | conditional test ifTrue ifFalse =>
    cases ifFalse with
    | none =>
      rw [emit] at h
      obtain ⟨c, hc, h⟩ := h.of_bind
      obtain ⟨a, ha, h⟩ := h.of_bind
      rw [Emit.returns_pure] at h
      exact ⟨by rintro f ⟨⟩, by simpa [Context.written, children] using ⟨⟨c, hc⟩, ⟨a, ha⟩⟩,
        by simp [h]⟩
    | some ifFalse =>
      rw [emit] at h
      obtain ⟨c, hc, h⟩ := h.of_bind
      obtain ⟨a, ha, h⟩ := h.of_bind
      obtain ⟨b, hb, h⟩ := h.of_bind
      rw [Emit.returns_pure] at h
      exact ⟨by rintro f ⟨⟩, by simpa [Context.written, children] using ⟨⟨c, hc⟩, ⟨a, ha⟩, ⟨b, hb⟩⟩,
        by simp [h]⟩
  | lambda params body => simp [emit] at h
  | invoke target args => simp [emit] at h
  | typeIs operand type => simp [emit] at h

end LambdaScript.Expr
