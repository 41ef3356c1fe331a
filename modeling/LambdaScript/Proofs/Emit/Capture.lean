import LambdaScript.Proofs.Emit.Steps
import LambdaScript.Proofs.Expr.Evaluation
import LambdaScript.Proofs.Expr.Place

/-! # Captured data that is not read

A captured chain reads members one after the other, starting from a known value. Of that value the
script can show only what the chain reads: another value with the same reads gives the same script,
or the same failure, wherever the chain stands. The chain itself is written and evaluated alike, and
every frame around it keeps this.
-/

namespace LambdaScript
namespace Value

/-- Two values cannot be told apart by reading members in turn: their types agree on the way, both
can be read or neither can, and what is read at the end is the same. -/
def SameReads (v w : Value) : List Member → Prop
  | [] => v = w
  | m :: ms => v.type = w.type ∧
    match v.read m, w.read m with
    | .ok v', .ok w' => v'.SameReads w' ms
    | .error _, .error _ => True
    | _, _ => False

/-- A value cut down to what reading members in turn shows: of every record on the way, its type
and the member that is read. -/
def along : List Member → Value → Value
  | m :: ms, record r => record ⟨r.type, [⟨m.name, .property, (r.get? m.name).map (along ms)⟩]⟩
  | _, v => v

/-- The value that reading members in turn ends at. -/
def follow (v : Value) (ms : List Member) : Except Failure Value := ms.foldlM read v

@[simp] theorem follow_nil (v : Value) : v.follow [] = .ok v := rfl

@[simp] theorem follow_cons (v : Value) (m : Member) (ms : List Member) :
    v.follow (m :: ms) = v.read m >>= fun w => w.follow ms := by
  simp [follow]

theorem sameReads_refl (v : Value) (ms : List Member) : v.SameReads v ms := by
  induction ms generalizing v with
  | nil => rfl
  | cons m ms ih =>
    refine ⟨rfl, ?_⟩
    cases h : v.read m with
    | ok w => simpa [h] using ih w
    | error f => simp

/-- Where types agree, failed reads of a member fail alike. -/
theorem read_eq_read_of_error {v w : Value} {m : Member} {f g : Failure} (type : v.type = w.type)
    (hv : v.read m = .error f) (hw : w.read m = .error g) : f = g := by
  rw [(read_eq_error_iff.mp hv).1, (read_eq_error_iff.mp hw).1, type]

/-- Before the last read of a chain, both values fail alike or lead to owners of one type that give
the same for the last member. -/
theorem SameReads.owners {v w : Value} {ms : List Member} {m : Member}
    (h : v.SameReads w (ms ++ [m])) :
    (∃ f, v.follow ms = .error f ∧ w.follow ms = .error f) ∨
      ∃ v' w', v.follow ms = .ok v' ∧ w.follow ms = .ok w' ∧ v'.type = w'.type ∧
        v'.read m = w'.read m := by
  induction ms generalizing v w with
  | nil =>
    obtain ⟨type, h⟩ := h
    refine .inr ⟨v, w, rfl, rfl, type, ?_⟩
    cases hv : v.read m with
    | ok v' =>
      cases hw : w.read m with
      | ok w' =>
        have heq : v' = w' := by simpa [hv, hw, SameReads] using h
        rw [heq]
      | error g => simp [hv, hw] at h
    | error f =>
      cases hw : w.read m with
      | ok w' => simp [hv, hw] at h
      | error g => rw [read_eq_read_of_error type hv hw]
  | cons n ms ih =>
    obtain ⟨type, h⟩ := h
    cases hv : v.read n with
    | ok v' =>
      cases hw : w.read n with
      | ok w' =>
        have hnext : v'.SameReads w' (ms ++ [m]) := by simpa [hv, hw] using h
        simpa [hv, hw] using ih hnext
      | error g => simp [hv, hw] at h
    | error f =>
      cases hw : w.read n with
      | ok w' => simp [hv, hw] at h
      | error g =>
        refine .inl ⟨f, ?_, ?_⟩
        · simp [hv]
        · simp [hw, read_eq_read_of_error type hv hw]

theorem follow_eq_error {v : Value} {ms : List Member} {f : Failure}
    (h : v.follow ms = .error f) : ∃ type name, f = .unreadable type name := by
  induction ms generalizing v with
  | nil => cases h
  | cons m ms ih =>
    rw [follow_cons] at h
    rcases bind_eq_error.mp h with h | ⟨w, -, h⟩
    · exact ⟨_, _, (read_eq_error_iff.mp h).1⟩
    · exact ih h

theorem along_of_ne_record {v : Value} (h : ∀ r, v ≠ record r) (ms : List Member) :
    v.along ms = v := by
  cases v with
  | record r => exact absurd rfl (h r)
  | _ => cases ms <;> rfl

theorem along_ne_record {v : Value} (h : ∀ r, v ≠ record r) (ms : List Member) (r : Record Value) :
    v.along ms ≠ record r := by
  rw [along_of_ne_record h]
  exact h r

/-- Other members, their number, order and kinds make no difference to what is read. -/
theorem sameReads_of_along_eq {v w : Value} {ms : List Member} (h : v.along ms = w.along ms) :
    v.SameReads w ms := by
  induction ms generalizing v w with
  | nil => simpa [along, SameReads] using h
  | cons m ms ih =>
    by_cases hv : ∃ r, v = record r
    · obtain ⟨r, rfl⟩ := hv
      by_cases hw : ∃ s, w = record s
      · obtain ⟨s, rfl⟩ := hw
        simp only [along, record.injEq, Record.mk.injEq, List.cons.injEq, Slot.mk.injEq] at h
        obtain ⟨type, ⟨-, -, hread⟩, -⟩ := h
        refine ⟨type, ?_⟩
        cases hr : r.get? m.name with
        | none =>
          have hs : s.get? m.name = none := by simpa [hr] using hread.symm
          simp [read, hr, hs]
        | some v' =>
          cases hs : s.get? m.name with
          | none => simp [hr, hs] at hread
          | some w' =>
            have hnext : v'.along ms = w'.along ms := by simpa [hr, hs] using hread
            simpa [read, hr, hs] using ih hnext
      · exact absurd h.symm (along_ne_record (by simpa using hw) _ _)
    · by_cases hw : ∃ s, w = record s
      · obtain ⟨s, rfl⟩ := hw
        exact absurd h (along_ne_record (by simpa using hv) _ _)
      · rw [along_of_ne_record (by simpa using hv), along_of_ne_record (by simpa using hw)] at h
        rw [h]
        exact sameReads_refl w (m :: ms)

end Value

namespace Expr

/-- A captured chain: members of a known value, read in turn. -/
def chain (v : Value) (ms : List Member) : Expr := ms.foldl member (constant v)

theorem chain_append_singleton (v : Value) (ms : List Member) (m : Member) :
    chain v (ms ++ [m]) = member (chain v ms) m := by
  simp [chain]

theorem evaluate_foldl_member (e : Expr) (ms : List Member) :
    (ms.foldl member e).evaluate = e.evaluate >>= fun v => v.follow ms := by
  induction ms generalizing e with
  | nil => cases h : e.evaluate <;> simp [h]
  | cons m ms ih =>
    rw [List.foldl_cons, ih, evaluate]
    cases h : e.evaluate <;> simp

@[simp] theorem evaluate_chain (v : Value) (ms : List Member) :
    (chain v ms).evaluate = v.follow ms := by
  simp [chain, evaluate_foldl_member, evaluate]

theorem isParameter_eq_kind (e : Expr) : e.isParameter = decide (e.kind = .parameter) := by
  cases e <;> rfl

theorem ne_constant_of_kind {e : Expr} (h : e.kind ≠ .constant) (v : Value) : e ≠ constant v := by
  rintro rfl
  exact h rfl

theorem isParameter_chain (v : Value) (ms : List Member) : (chain v ms).isParameter = false := by
  rcases List.eq_nil_or_concat ms with rfl | ⟨ms, m, rfl⟩
  · rfl
  · rw [List.concat_eq_append, chain_append_singleton]
    rfl

/-- Two expressions, neither a constant, can stand for each other wherever they are written or
evaluated. -/
structure Interchangeable (ctx : Context) (e e' : Expr) : Prop where
  emit : emit ctx e = emit ctx e'
  evaluate : e.evaluate = e'.evaluate
  kind : e.kind = e'.kind
  derived : e.kind ≠ .constant
  simple : e.isSimpleMember = e'.isSimpleMember

namespace Interchangeable
variable {ctx : Context} {e e' : Expr}

theorem isParameter (h : Interchangeable ctx e e') : e.isParameter = e'.isParameter := by
  rw [isParameter_eq_kind, isParameter_eq_kind, h.kind]

theorem captured (closure : ctx.evaluate = Expr.evaluate) (h : Interchangeable ctx e e') :
    ctx.captured e = ctx.captured e' := by
  rw [Context.captured, Context.captured, closure, h.evaluate]

theorem emitAll (h : Interchangeable ctx e e') (before after : List Expr) :
    emitAll ctx (before ++ e :: after) = emitAll ctx (before ++ e' :: after) := by
  induction before with
  | nil => simp only [List.nil_append, Expr.emitAll, h.emit]
  | cons b before ih => simp only [List.cons_append, Expr.emitAll, ih]

theorem emitBindings (h : Interchangeable ctx e e') (before : List (Binding Expr)) (m : Member)
    (after : List (Binding Expr)) :
    emitBindings ctx (before ++ ⟨m, e⟩ :: after) =
      emitBindings ctx (before ++ ⟨m, e'⟩ :: after) := by
  induction before with
  | nil => simp only [List.nil_append, Expr.emitBindings, h.emit]
  | cons b before ih => simp only [List.cons_append, Expr.emitBindings, ih]

theorem emit_unary (h : Interchangeable ctx e e') (op : UnaryOp) :
    Expr.emit ctx (unary op e) = Expr.emit ctx (unary op e') := by
  have hconst := ne_constant_of_kind h.derived
  have hconst' := ne_constant_of_kind (h.kind ▸ h.derived)
  rcases unary_forms op e with ⟨t, v, -, he⟩ | ⟨t, rfl, -⟩ | hop
  · exact absurd he (hconst v)
  · rw [emit_convert hconst, emit_convert hconst', h.emit]
  · rw [Expr.emit_unary hop, Expr.emit_unary hop, h.emit]

/-- A node is written alike with either child. -/
theorem emit_fill (closure : ctx.evaluate = Expr.evaluate) (h : Interchangeable ctx e e')
    (frame : Frame) : Expr.emit ctx (frame.fill e) = Expr.emit ctx (frame.fill e') := by
  cases frame with
  | member m =>
    simp only [Frame.fill, Expr.emit, h.isParameter, h.captured closure, h.emit]
  | initArg type members before after bindings =>
    simp [Frame.fill, Expr.emit, h.emitAll]
  | initBinding base before m after =>
    simp [Frame.fill, Expr.emit, h.emitBindings]
  | unary op => exact h.emit_unary op
  | callTarget m args =>
    simp only [Frame.fill, Expr.emit, h.captured closure, h.emit]
  | callArg target m before after =>
    cases target <;> simp only [Frame.fill, Expr.emit, h.emitAll]
  | test a b => cases b <;> simp only [Frame.fill, Expr.emit, h.emit]
  | ifTrue c b => cases b <;> simp only [Frame.fill, Expr.emit, h.emit]
  | indexArg target before after => simp only [Frame.fill, Expr.emit, h.emitAll]
  | newArg type members before after => simp only [Frame.fill, Expr.emit, h.emitAll]
  | item before after => simp only [Frame.fill, Expr.emit, h.emitAll]
  | indexTarget args => simp only [Frame.fill, Expr.emit, h.emit]
  | left op r => simp only [Frame.fill, Expr.emit, h.emit]
  | right op l => simp only [Frame.fill, Expr.emit, h.emit]
  | ifFalse c a => simp only [Frame.fill, Expr.emit, h.emit]
  -- what is below these nodes is not written
  | lambda params => rfl
  | invokeTarget args => rfl
  | invokeArg target before after => rfl
  | typeIs type => rfl

theorem evaluate_fill (h : Interchangeable ctx e e') (frame : Frame) :
    (frame.fill e).evaluate = (frame.fill e').evaluate := by
  cases frame with
  | member m => simp only [Frame.fill, Expr.evaluate, h.evaluate]
  | unary op =>
    cases op with
    | convert t => simp only [Frame.fill, Expr.evaluate, h.evaluate]
    | _ => rfl
  | _ => rfl

theorem isSimpleMember_fill (h : Interchangeable ctx e e') (frame : Frame) :
    (frame.fill e).isSimpleMember = (frame.fill e').isSimpleMember := by
  cases frame with
  | unary op =>
    cases op with
    | convert t =>
      have hkind := h.kind
      cases e <;> cases e' <;> first | rfl | cases hkind
    | _ => rfl
  | _ => rfl

/-- Whatever node they are put into, the results can stand for each other as well. -/
theorem fill (closure : ctx.evaluate = Expr.evaluate) (h : Interchangeable ctx e e')
    (frame : Frame) : Interchangeable ctx (frame.fill e) (frame.fill e') where
  emit := h.emit_fill closure frame
  evaluate := h.evaluate_fill frame
  kind := by cases frame <;> rfl
  derived := by cases frame <;> simp [Frame.fill, Expr.kind]
  simple := h.isSimpleMember_fill frame

theorem plug (closure : ctx.evaluate = Expr.evaluate) (h : Interchangeable ctx e e')
    (place : List Frame) : Interchangeable ctx (plug place e) (plug place e') := by
  induction place with
  | nil => exact h
  | cons frame place ih => exact ih.fill closure frame

theorem compile (h : Interchangeable ctx e e') (params : List String) :
    Lambda.compile ctx ⟨params, e⟩ = Lambda.compile ctx ⟨params, e'⟩ := by
  simp only [Lambda.compile, emitText, h.emit, h.simple]

end Interchangeable

theorem captured_chain_of_error {ctx : Context} (closure : ctx.evaluate = evaluate) {v : Value}
    {ms : List Member} {f : Failure} (h : v.follow ms = .error f) :
    ctx.captured (chain v ms) = .error f := by
  obtain ⟨type, name, rfl⟩ := Value.follow_eq_error h
  simp [Context.captured, closure, h]

theorem captured_chain_of_ok {ctx : Context} (closure : ctx.evaluate = evaluate) {v w : Value}
    {ms : List Member} (h : v.follow ms = .ok w) :
    ctx.captured (chain v ms) = .ok (some w) :=
  captured_of_evaluate closure (by rw [evaluate_chain, h])

/-- A member of a captured value is written from its type and what is read. -/
theorem capturedMember_congr (ctx : Context) {v w : Value} {m : Member}
    (type : v.type = w.type) (read : v.read m = w.read m) (simple : Bool) :
    ctx.capturedMember v m simple = ctx.capturedMember w m simple := by
  simp only [Context.capturedMember, type, read]

/-- Chains that read the same can stand for each other. -/
theorem interchangeable_chain {ctx : Context} (closure : ctx.evaluate = evaluate) {v w : Value}
    {ms : List Member} {m : Member} (h : v.SameReads w (ms ++ [m])) :
    Interchangeable ctx (chain v (ms ++ [m])) (chain w (ms ++ [m])) := by
  simp only [chain_append_singleton]
  refine ⟨?_, ?_, rfl, by simp [kind], rfl⟩
  · rcases h.owners with ⟨f, hv, hw⟩ | ⟨v', w', hv, hw, type, read⟩
    · simp [emit, isParameter_chain, captured_chain_of_error closure hv,
        captured_chain_of_error closure hw]
    · simp [emit, isParameter_chain, captured_chain_of_ok closure hv,
        captured_chain_of_ok closure hw, capturedMember_congr ctx type read]
  · simp only [evaluate, evaluate_chain]
    rcases h.owners with ⟨f, hv, hw⟩ | ⟨v', w', hv, hw, -, read⟩
    · rw [hv, hw]
    · rw [hv, hw, ok_bind, ok_bind, read]

/-- Chains that read the same give the same script at every place. -/
theorem compile_plug_chain {ctx : Context} (closure : ctx.evaluate = evaluate) {v w : Value}
    {ms : List Member} (h : v.SameReads w ms) (params : List String) (place : List Frame) :
    Lambda.compile ctx ⟨params, plug place (chain v ms)⟩ =
      Lambda.compile ctx ⟨params, plug place (chain w ms)⟩ := by
  rcases List.eq_nil_or_concat ms with rfl | ⟨ms, m, rfl⟩
  · -- nothing is read, so the whole values are the same
    have heq : v = w := h
    rw [heq]
  · rw [List.concat_eq_append] at h ⊢
    exact ((interchangeable_chain closure h).plug closure place).compile params

end Expr

open LambdaScript.Expr

/-- Captured data that is not read has no influence. A captured chain in the body of a lambda stands
at some place, and at every place where it stands its value can be replaced by one with the same
reads: the script, or the failure, stays the same. In particular it can be replaced by one that
differs only in members that the chain does not read, on any of the objects along it. -/
theorem compile_unread (inline : Bool) (lookup : Lookup) (naming : Naming) (f : Lambda) (v : Value)
    (ms : List Member) :
    (Occurs (chain v ms) f.body → ∃ place, f.body = plug place (chain v ms)) ∧
      ∀ place, f.body = plug place (chain v ms) →
        ∀ w, v.SameReads w ms ∨ v.along ms = w.along ms →
          f.compile (.closure inline lookup naming) =
            { f with body := plug place (chain w ms) }.compile (.closure inline lookup naming) := by
  refine ⟨occurs_iff_exists_plug.mp, ?_⟩
  rintro place hbody w h
  have hreads : v.SameReads w ms := h.elim id Value.sameReads_of_along_eq
  obtain ⟨params, body⟩ := f
  subst hbody
  exact compile_plug_chain rfl hreads params place

def limitClosure (before after : List (Slot Value)) : Value :=
  .record ⟨⟨"Closure"⟩, before ++ [⟨"Settings", .field, some (.record ⟨⟨"Settings"⟩,
    before ++ [⟨"Limit", .property, some (.integer 18)⟩] ++ after⟩)⟩] ++ after⟩

def limitPath : List Member :=
  [⟨⟨"Closure"⟩, "Settings", .field⟩, ⟨⟨"Settings"⟩, "Limit", .property⟩]

/-- A comparison of a member of the parameter with the captured limit. -/
def limitLambda (before after : List (Slot Value)) : Lambda where
  params := ["p"]
  body := binary .lessThan (property (parameter "p") ⟨"Person"⟩ "Age")
    (chain (limitClosure before after) limitPath)

theorem compile_unread_limit :
    (∃ place, (limitLambda [] []).body = plug place (chain (limitClosure [] []) limitPath)) ∧
      (limitLambda [] []).compile {} = .ok "function (p)\x7breturn (p.Age<18);\x7d" ∧
      (limitLambda [] []).compile {} =
        (limitLambda [⟨"Secret", .field, some (.string "s")⟩]
          [⟨"Limit", .field, none⟩]).compile {} := by
  have unread := compile_unread false .empty none (limitLambda [] []) (limitClosure [] []) limitPath
  refine ⟨unread.1 (.child ?_ .self), rfl, ?_⟩
  · simp [limitLambda, children]
  · exact unread.2 [.right .lessThan (property (parameter "p") ⟨"Person"⟩ "Age")] rfl _ (.inr rfl)

end LambdaScript
