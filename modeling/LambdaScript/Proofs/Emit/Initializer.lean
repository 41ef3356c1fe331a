import LambdaScript.Proofs.Emit.Steps
import LambdaScript.Proofs.Text.Numeral

/-! # Object initializers

An object initializer is written like the construction of one object: the members that are bound
come first, and those of the base follow. This needs a base with as many member names as arguments.
With other counts there is no such object. Without bindings the base is then a call of its type, and
with bindings the initializer is refused once the bindings are written.
-/

namespace LambdaScript

/-- The construction of an object with its initializer: first the bindings, then the members of the
base. -/
def Construction.initialized (base : Construction Expr) (bindings : List (Binding Expr)) :
    Construction Expr where
  type := base.type
  members := bindings.map (·.member.name) ++ base.members
  args := bindings.map Binding.value ++ base.args

structure TypeName.Shortens (t : TypeName) (s : String) : Prop where
  plain : '\x60' ∉ s.toList
  rest : ∃ after, t.text.toList = s.toList ++ after ∧ ∀ c, after.head? = some c → c = '\x60'

theorem TypeName.shortens_display (t : TypeName) : t.Shortens t.display := by
  constructor
  · rw [display, String.toList_ofList]
    intro h
    simpa using List.mem_takeWhile_imp h
  · rw [display, String.toList_ofList]
    refine ⟨t.text.toList.dropWhile (· ≠ '\x60'), List.takeWhile_append_dropWhile.symm, ?_⟩
    intro c hc
    simpa using Text.eq_false_of_head?_dropWhile hc

theorem Emit.bind_apply {α β : Type} (x : Emit α) (k : α → Emit β) (hint : Bool) :
    (x >>= k) hint = match x hint with
      | .ok a rest => k a rest
      | .error f rest => .error f rest := by
  change EStateM.bind x k hint = _
  unfold EStateM.bind
  cases x hint <;> rfl

namespace Expr
variable {ctx : Context} {hint rest : Bool} {es : List Expr}

/-- Expressions are written one after the other, each with the hint that the one before it left. -/
inductive Writes (ctx : Context) : Bool → List Expr → List String → Bool → Prop
  | nil (hint : Bool) : Writes ctx hint [] [] hint
  | cons {hint mid rest : Bool} {e : Expr} {es : List Expr} {r : Option String} {ts : List String}
      (first : emit ctx e hint = .ok r mid) (others : Writes ctx mid es ts rest) :
      Writes ctx hint (e :: es) (r.getD "" :: ts) rest

/-- Writing expressions in order stops at the first one that fails. -/
inductive Stops (ctx : Context) : Bool → List Expr → Failure → Bool → Prop
  | here {hint rest : Bool} {e : Expr} {es : List Expr} {f : Failure}
      (fails : emit ctx e hint = .error f rest) : Stops ctx hint (e :: es) f rest
  | later {hint mid rest : Bool} {e : Expr} {es : List Expr} {r : Option String} {f : Failure}
      (first : emit ctx e hint = .ok r mid) (others : Stops ctx mid es f rest) :
      Stops ctx hint (e :: es) f rest

theorem Writes.length_eq {ts : List String} (h : Writes ctx hint es ts rest) :
    ts.length = es.length := by
  induction h with
  | nil hint => rfl
  | cons first others ih => rw [List.length_cons, List.length_cons, ih]

theorem Writes.emitAll_eq {ts : List String} (h : Writes ctx hint es ts rest) :
    emitAll ctx es hint = .ok ts rest := by
  induction h with
  | nil hint => rfl
  | cons first others ih =>
    simp only [emitAll, Emit.bind_apply, first, ih]
    rfl

theorem Stops.emitAll_eq {f : Failure} (h : Stops ctx hint es f rest) :
    emitAll ctx es hint = .error f rest := by
  induction h with
  | here fails => simp only [emitAll, Emit.bind_apply, fails]
  | later first others ih => simp only [emitAll, Emit.bind_apply, first, ih]

/-- All expressions are written, or one of them is the first that fails. -/
theorem writes_or_stops (ctx : Context) (es : List Expr) (hint : Bool) :
    (∃ ts rest, Writes ctx hint es ts rest) ∨ ∃ f rest, Stops ctx hint es f rest := by
  induction es generalizing hint with
  | nil => exact .inl ⟨[], hint, .nil hint⟩
  | cons e es ih =>
    cases he : emit ctx e hint with
    | error f rest => exact .inr ⟨f, rest, .here he⟩
    | ok r mid =>
      rcases ih mid with ⟨ts, rest, hes⟩ | ⟨f, rest, hes⟩
      · exact .inl ⟨_, rest, .cons he hes⟩
      · exact .inr ⟨f, rest, .later he hes⟩

/-- What follows expressions in order is done once they are written, not if one of them fails. -/
theorem emitAll_bind_eq_iff {α : Type} {k : List String → Emit α}
    {res : EStateM.Result Failure Bool α} :
    (emitAll ctx es >>= k) hint = res ↔
      (∃ ts rest, Writes ctx hint es ts rest ∧ res = k ts rest) ∨
        ∃ f rest, Stops ctx hint es f rest ∧ res = .error f rest := by
  rw [Emit.bind_apply]
  constructor
  · rintro rfl
    rcases writes_or_stops ctx es hint with ⟨ts, rest, h⟩ | ⟨f, rest, h⟩
    · exact .inl ⟨ts, rest, h, by rw [h.emitAll_eq]⟩
    · exact .inr ⟨f, rest, h, by rw [h.emitAll_eq]⟩
  · rintro (⟨ts, rest, h, rfl⟩ | ⟨f, rest, h, rfl⟩)
    · rw [h.emitAll_eq]
    · rw [h.emitAll_eq]

variable {base : Construction Expr} {bindings : List (Binding Expr)}

/-- An initializer of a base with as many members as arguments is the construction of one object. -/
theorem emit_memberInit_eq_new (h : base.members.length = base.args.length) :
    emit ctx (memberInit base bindings) = emit ctx (new (base.initialized bindings)) := by
  have hsteps :
      ctx.steps (memberInit base bindings) = ctx.steps (new (base.initialized bindings)) := by
    simp [Context.steps, Context.written, children, Construction.initialized, h]
  rw [emit_eq_steps, emit_eq_steps, hsteps]
  simp only [Emit.hintFor, pure_bind]
  refine Emit.bind_congr_of_returns fun rs hrs => ?_
  have hlength := Emit.length_of_mapM_returns hrs
  congr 1
  by_cases hb : bindings = []
  · simp [Context.compose, Construction.initialized, hb]
  · have hsize : (base.initialized bindings).members.length = (Context.texts rs).length := by
      simpa [Context.texts, hlength, Context.steps, Context.written, children,
        Construction.initialized] using h
    simp only [Context.compose, constructionText, if_pos hsize, h, decide_true, Bool.or_true,
      List.isEmpty_iff, hb, if_true, if_false]
    rfl

/-- With other counts and no bindings, the base is a call of its type. -/
theorem emit_memberInit_nil_eq_iff (h : base.members.length ≠ base.args.length)
    {res : EStateM.Result Failure Bool (Option String)} :
    emit ctx (memberInit base []) hint = res ↔
      (∃ ts rest, Writes ctx hint base.args ts rest ∧
        res = .ok (some ("new " ++ callText base.type.display ts)) rest) ∨
      ∃ f rest, Stops ctx hint base.args f rest ∧ res = .error f rest := by
  have hnone : ([] : List (Binding Expr)).isEmpty = true := rfl
  rw [emit, if_pos hnone, emitAll_bind_eq_iff]
  apply or_congr_left
  apply exists_congr
  intro ts
  apply exists_congr
  intro rest
  apply and_congr_right
  intro hts
  have hlength : base.members.length ≠ ts.length := by rwa [hts.length_eq]
  rw [constructionText, if_neg hlength]
  rfl

/-- With other counts and bindings, the initializer is refused once the bindings are written. -/
theorem emit_memberInit_bindings_eq_iff (h : base.members.length ≠ base.args.length)
    (hbindings : bindings ≠ []) (hargs : base.args ≠ [])
    {res : EStateM.Result Failure Bool (Option String)} :
    emit ctx (memberInit base bindings) hint = res ↔
      (∃ ts rest, Writes ctx hint (bindings.map Binding.value) ts rest ∧
        res = .error (.arity .objectInitializer base.members.length base.args.length) rest) ∨
      ∃ f rest, Stops ctx hint (bindings.map Binding.value) f rest ∧ res = .error f rest := by
  have hbound : ¬ bindings.isEmpty = true := by simpa using hbindings
  have hgiven : ¬ base.args.isEmpty = true := by simpa using hargs
  rw [emit, if_neg hbound, emitBindings_eq, bind_assoc, emitAll_bind_eq_iff]
  simp only [pure_bind, if_neg hgiven, if_neg h]
  rfl

end Expr

open LambdaScript.Expr

/-- Object initializers are written like constructions. If the base has as many members as
arguments, an initializer is written as the construction with the bindings in front: the text, the
failure and the hint that is left are the same, from every hint. If not, an initializer without
bindings is a call of the type of the base, whose name is shortened, or fails like the first
argument that does. With bindings and arguments, it fails like the first binding that does, or else
because of the two counts; the arguments of the base are not written, so only their number
matters. -/
theorem initializer_written_as_construction (ctx : Context) (base : Construction Expr)
    (bindings : List (Binding Expr)) :
    (base.members.length = base.args.length →
      emit ctx (memberInit base bindings) = emit ctx (new (base.initialized bindings))) ∧
    (base.members.length ≠ base.args.length →
      (bindings = [] → ∃ name, base.type.Shortens name ∧ ∀ hint res,
        emit ctx (memberInit base bindings) hint = res ↔
          (∃ ts rest, Writes ctx hint base.args ts rest ∧
            res = .ok (some ("new " ++ name ++ "(" ++ Text.commas ts ++ ")")) rest) ∨
          ∃ f rest, Stops ctx hint base.args f rest ∧ res = .error f rest) ∧
      (bindings ≠ [] → base.args ≠ [] →
        (∀ hint res, emit ctx (memberInit base bindings) hint = res ↔
          (∃ ts rest, Writes ctx hint (bindings.map Binding.value) ts rest ∧
            res = .error (.arity .objectInitializer base.members.length base.args.length) rest) ∨
          ∃ f rest, Stops ctx hint (bindings.map Binding.value) f rest ∧ res = .error f rest) ∧
        ∀ args : List Expr, args.length = base.args.length →
          emit ctx (memberInit { base with args := args } bindings) =
            emit ctx (memberInit base bindings))) := by
  refine ⟨emit_memberInit_eq_new, fun hcounts => ⟨?_, ?_⟩⟩
  · rintro rfl
    refine ⟨base.type.display, base.type.shortens_display, fun hint res => ?_⟩
    rw [emit_memberInit_nil_eq_iff hcounts]
    simp only [callText, String.append_assoc]
  · intro hbindings hargs
    refine ⟨fun hint res => emit_memberInit_bindings_eq_iff hcounts hbindings hargs, ?_⟩
    intro args hlength
    have hother : base.members.length ≠ args.length := by rwa [hlength]
    have hargs' : args ≠ [] := by
      rintro rfl
      exact hargs (List.length_eq_zero_iff.mp hlength.symm)
    funext hint
    rw [emit_memberInit_bindings_eq_iff hother hbindings hargs', hlength]
    exact (emit_memberInit_bindings_eq_iff hcounts hbindings hargs).mp rfl

def pageBase : Construction Expr where
  type := ⟨"Page\x601"⟩
  members := ["size"]
  args := [constant (.integer 10)]

def pageNumber : Binding Expr where
  member := ⟨⟨"Page\x601"⟩, "number", .property⟩
  value := property (parameter "p") ⟨"Query"⟩ "page"

theorem initializer_written_as_construction_page :
    emit {} (memberInit pageBase [pageNumber]) = emit {} (new (pageBase.initialized [pageNumber])) ∧
    (∃ name, pageBase.type.Shortens name ∧
      emit {} (memberInit { pageBase with members := [] } []) true =
        .ok (some ("new " ++ name ++ "(" ++ Text.commas ["10"] ++ ")")) true) ∧
    emit {} (memberInit { pageBase with members := [] } [pageNumber]) true =
      .error (.arity .objectInitializer 0 1) false := by
  obtain ⟨-, hother⟩ :=
    initializer_written_as_construction {} { pageBase with members := [] } []
  obtain ⟨name, hname, hcall⟩ := (hother (by decide)).1 rfl
  obtain ⟨-, hother⟩ :=
    initializer_written_as_construction {} { pageBase with members := [] } [pageNumber]
  obtain ⟨hrefused, -⟩ := (hother (by decide)).2 (List.cons_ne_nil _ _) (List.cons_ne_nil _ _)
  refine ⟨(initializer_written_as_construction {} pageBase [pageNumber]).1 rfl,
    ⟨name, hname, (hcall _ _).mpr (.inl ⟨["10"], true, ?_, rfl⟩)⟩,
    (hrefused _ _).mpr (.inl ⟨["p.page"], false, ?_, rfl⟩)⟩
  · exact .cons (r := some "10") rfl (.nil true)
  · exact .cons (r := some "p.page") rfl (.nil false)

end LambdaScript
