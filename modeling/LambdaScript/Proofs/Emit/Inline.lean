import LambdaScript.Proofs.Emit.Fragments
import LambdaScript.Proofs.Emit.Renaming

/-! # Inline expressions leave out the parameter

The two modes of one context are compared, without the hint. Whenever an expression can be written
inline, both texts are made of the same fragments, in which only the marked ones depend on the names
of the parameters: a function has all of them, an inline expression has the unmarked ones. What
cannot be written inline, but can in a function, is a method called on the parameter itself.

Apart from the parameter, its members and conversions, a node puts the texts of its steps together
in the same way in both modes, and so it does with fragments.
-/

namespace LambdaScript
namespace Expr
variable {ctx : Context} {lookup : Lookup} {naming : Naming}

theorem isConvertedParameter_of_unarmed {e : Expr} (h : unarmed ctx e = .ok none) :
    ctx.inline = true ∧ e.IsConvertedParameter :=
  (settled_of_returns (Emit.returns_of_result h)).text rfl

/-- A member of the parameter is its label, inline, and the path to it otherwise. -/
theorem ConvertedParameter.unarmed_member {name : String} {target : Expr}
    (h : ConvertedParameter name target) (closure : ctx.evaluate = evaluate) (m : Member) :
    unarmed ctx (member target m) =
      .ok (some (pathText (if ctx.inline then none else some name) (ctx.label m false))) := by
  rw [unarmed, emit_member_of_notConstant closure h.evaluate_eq, h.emit_eq]
  rfl

theorem isParameter_eq_false {e : Expr} (h : ¬ e.IsConvertedParameter) : e.isParameter = false := by
  cases e with
  | parameter name => exact absurd ⟨name, .bare⟩ h
  | _ => rfl

/-- Both modes give texts of the same fragments, whatever the parameters are called. -/
structure Fragmented (lookup : Lookup) (naming : Naming) (e : Expr) (r : Option String)
    (fs : List Fragment) : Prop where
  full (names : String → String) :
    unarmed (.closure false lookup naming) (e.rename names) =
      .ok (some (Fragment.concat (some names) fs))
  cut : r.getD "" = Fragment.concat none fs
  named : Fragment.Named (fun name => Occurs (parameter name) e) fs

def Writable (lookup : Lookup) (naming : Naming) (e : Expr) : Prop :=
  ∀ r, unarmed (.closure true lookup naming) e = .ok r → ∃ fs, Fragmented lookup naming e r fs

/-- What steps give in a function: the texts of their fragments, all of them. -/
def shownAll (names : String → String) (fss : List (List Fragment)) : List (Option String) :=
  fss.map fun fs => some (Fragment.concat (some names) fs)

@[simp] theorem texts_shownAll (names : String → String) (fss : List (List Fragment)) :
    Context.texts (shownAll names fss) = fss.map (Fragment.concat (some names)) := by
  simp [Context.texts, shownAll]

structure FragmentedAll (lookup : Lookup) (naming : Naming) (es : List Expr)
    (rs : List (Option String)) (fss : List (List Fragment)) : Prop where
  full (names : String → String) :
    (es.map (rename names)).mapM (unarmed (.closure false lookup naming)) = .ok (shownAll names fss)
  cut : Context.texts rs = fss.map (Fragment.concat none)
  named : ∀ fs ∈ fss, Fragment.Named (fun name => ∃ e ∈ es, Occurs (parameter name) e) fs

theorem fragmentedAll {es : List Expr} {rs : List (Option String)}
    (h : es.mapM (unarmed (.closure true lookup naming)) = .ok rs)
    (each : ∀ e ∈ es, Writable lookup naming e) : ∃ fss, FragmentedAll lookup naming es rs fss := by
  induction es generalizing rs with
  | nil =>
    cases h
    exact ⟨[], fun names => rfl, rfl, by simp⟩
  | cons e es ih =>
    rw [List.mapM_cons] at h
    obtain ⟨r, hr, h⟩ := bind_eq_ok.mp h
    obtain ⟨rs, hrs, h⟩ := bind_eq_ok.mp h
    cases h
    obtain ⟨fs, hfs⟩ := each e (by simp) r hr
    obtain ⟨fss, hfss⟩ := ih hrs fun x hx => each x (by simp [hx])
    refine ⟨fs :: fss, ?_, ?_, ?_⟩
    · intro names
      rw [List.map_cons, List.mapM_cons, hfs.full, hfss.full]
      rfl
    · rw [List.map_cons, ← hfs.cut, ← hfss.cut]
      rfl
    · rw [List.forall_mem_cons]
      constructor
      · exact hfs.named.mono fun name hn => ⟨e, by simp, hn⟩
      · intro gs hgs
        refine (hfss.named gs hgs).mono ?_
        rintro name ⟨x, hx, hn⟩
        exact ⟨x, by simp [hx], hn⟩

/-- A node puts fragments together: whichever mode its steps are shown in, it shows them so too. -/
structure Composed (lookup : Lookup) (naming : Naming) (e : Expr) (fss : List (List Fragment))
    (fs : List Fragment) : Prop where
  text {inline : Bool} {names : Option (String → String)} {rs : List (Option String)}
    (shown : Context.texts rs = fss.map (Fragment.concat names)) :
    Context.compose (.closure inline lookup naming) false e rs =
      .ok (some (Fragment.concat names fs))
  named {P : String → Prop} (each : ∀ gs ∈ fss, Fragment.Named P gs) : Fragment.Named P fs

/-- The parameter, a member access, or a conversion of something that is no constant: these tell
an operand without a text from one with an empty text. -/
def IsPath : Expr → Prop
  | parameter _ => True
  | member _ _ => True
  | unary (.convert _) (constant _) => False
  | unary (.convert _) _ => True
  | _ => False

theorem isPath_convert {t : CastType} {operand : Expr} (h : ∀ v, operand ≠ constant v) :
    IsPath (unary (.convert t) operand) := by
  cases operand with
  | constant v => exact h v rfl
  | _ => trivial

theorem not_isPath_unary {op : UnaryOp} {operand : Expr} (h : ∀ t, op ≠ .convert t) :
    ¬ IsPath (unary op operand) := by
  cases op with
  | convert t => exact absurd rfl (h t)
  | _ => exact id

section
variable {rs : List (Option String)} {r : Option String}

theorem composed_memberInit {base : Construction Expr} {bindings : List (Binding Expr)}
    (h : Context.compose (.closure true lookup naming) false (memberInit base bindings) rs = .ok r)
    (fss : List (List Fragment)) :
    ∃ fs, Composed lookup naming (memberInit base bindings) fss fs := by
  simp only [Context.compose] at h
  by_cases hb : bindings.isEmpty = true
  · refine ⟨Fragment.construction base.type base.members fss, fun shown => ?_,
      Fragment.named_construction⟩
    simp [Context.compose, hb, shown]
  · rw [if_neg hb] at h
    split at h
    · next hl =>
      refine ⟨Fragment.object (List.zipWith Fragment.pair
        (bindings.map (·.member.name) ++ base.members) fss), fun shown => ?_,
        fun each => Fragment.named_object (Fragment.named_pairs each)⟩
      simp only [Context.compose, hb, hl, if_true, if_false, Bool.false_eq_true, shown,
        Fragment.concat_object, Fragment.concat_pairs]
    · cases h

theorem composed_unary {op : UnaryOp} {operand : Expr} (he : ¬ (unary op operand).IsPath)
    (h : Context.compose (.closure true lookup naming) false (unary op operand) rs = .ok r)
    (fss : List (List Fragment)) : ∃ fs, Composed lookup naming (unary op operand) fss fs := by
  rcases unary_forms op operand with ⟨t, v, rfl, rfl⟩ | ⟨t, rfl, hv⟩ | hop
  · obtain ⟨text, ht, -⟩ := bind_eq_ok.mp h
    refine ⟨[.text text], fun shown => ?_, fun each => by simp [Fragment.parameter?]⟩
    simp [Context.compose, ht]
  · exact absurd (isPath_convert hv) he
  · rw [Context.compose_unary hop] at h
    cases ha : op.affixes? with
    | none => simp [ha] at h
    | some affixes =>
      refine ⟨.text affixes.1 :: fss.headD [] ++ [.text affixes.2], fun shown => ?_,
        fun each => ?_⟩
      · simp [Context.compose_unary hop, ha, shown, String.append_assoc]
      · simpa [Fragment.parameter?] using Fragment.named_headD each

theorem composed_call {target : Expr} {m : Method} {args : List Expr}
    (h : Context.compose (.closure true lookup naming) false (call (some target) m args) rs =
      .ok r) (fss : List (List Fragment)) :
    ∃ fs, Composed lookup naming (call (some target) m args) fss fs := by
  rw [Context.compose] at h
  obtain ⟨owner, hc, h⟩ := bind_eq_ok.mp h
  have howner (inline : Bool) :
      Context.captured (.closure inline lookup naming) target = .ok owner := hc
  rw [Context.lookup_closure] at h
  cases hm : lookup.resolveMethod m (owner.map Value.type) with
  | some reference =>
    refine ⟨Fragment.call [.text (reference.function m)] fss, fun shown => ?_,
      Fragment.named_call (by simp [Fragment.parameter?])⟩
    simp [Context.compose, howner, hm, shown]
  | none =>
    simp only [hm] at h
    split at h
    · cases h
    · next ht =>
      have hbare : target.isConvertedParameter = false := by
        simpa [Context.isTextless] using ht
      refine ⟨Fragment.call (.text "(" :: fss.headD [] ++ [.text (")." ++ m.name)]) fss.tail,
        fun shown => ?_, fun each => ?_⟩
      · simp [Context.compose, howner, hm, Context.isTextless, hbare, shown, String.append_assoc]
      · refine Fragment.named_call ?_ (Fragment.named_tail each)
        simpa [Fragment.parameter?] using Fragment.named_headD each

/-- Every other node that is not refused inline puts fragments together. -/
theorem exists_composed {e : Expr} (he : ¬ e.IsPath)
    (h : Context.compose (.closure true lookup naming) false e rs = .ok r)
    (fss : List (List Fragment)) : ∃ fs, Composed lookup naming e fss fs := by
  cases e with
  | parameter name => exact absurd trivial he
  | member target m => exact absurd trivial he
  | index target args =>
    refine ⟨fss.headD [] ++ .text "[" :: Fragment.commas fss.tail ++ [.text "]"],
      fun shown => ?_, fun each => ?_⟩
    · simp [Context.compose, shown, String.append_assoc]
    · simpa [Fragment.parameter?, Fragment.named_commas (Fragment.named_tail each)] using
        Fragment.named_headD each
  | new base =>
    refine ⟨Fragment.construction base.type base.members fss, fun shown => ?_,
      Fragment.named_construction⟩
    simp [Context.compose, shown]
  | memberInit base bindings => exact composed_memberInit h fss
  | newArray items =>
    refine ⟨.text "[" :: Fragment.commas fss ++ [.text "]"], fun shown => ?_, fun each => ?_⟩
    · simp [Context.compose, shown, String.append_assoc]
    · simp [Fragment.parameter?, Fragment.named_commas each]
  | constant v =>
    obtain ⟨t, ht, -⟩ := bind_eq_ok.mp h
    refine ⟨[.text t], fun shown => ?_, fun each => by simp [Fragment.parameter?]⟩
    simp [Context.compose, ht]
  | binary op left right =>
    cases hform : op.form? with
    | none => simp [Context.compose, hform] at h
    | some form =>
      refine ⟨Fragment.operation form (fss.headD []) (fss.tail.headD []), fun shown => ?_,
        fun each => ?_⟩
      · simp [Context.compose, hform, shown]
      · exact Fragment.named_operation (Fragment.named_headD each)
          (Fragment.named_headD (Fragment.named_tail each))
  | unary op operand => exact composed_unary he h fss
  | call target m args =>
    cases target with
    | none =>
      cases hm : lookup.resolveMethod m none with
      | none => simp [Context.compose, hm] at h
      | some reference =>
        refine ⟨Fragment.call [.text (reference.function m)] fss, fun shown => ?_,
          Fragment.named_call (by simp [Fragment.parameter?])⟩
        simp [Context.compose, hm, shown]
    | some target => exact composed_call h fss
  | conditional test ifTrue ifFalse =>
    refine ⟨Fragment.conditional (fss.headD []) (fss.tail.headD [])
      (ifFalse.map fun _ => fss.tail.tail.headD []), fun shown => ?_, fun each => ?_⟩
    · cases ifFalse <;> simp [Context.compose, shown]
    · have htail := Fragment.named_tail each
      refine Fragment.named_conditional (Fragment.named_headD each) (Fragment.named_headD htail) ?_
      intro fs hfs
      obtain ⟨_, -, rfl⟩ := Option.map_eq_some_iff.mp hfs
      exact Fragment.named_headD (Fragment.named_tail htail)
  | lambda params body => cases h
  | invoke target args => cases h
  | typeIs operand type => cases h

end

/-- Only a member access looks at the mode for what is written before it. -/
theorem written_of_mode {e : Expr} (he : ∀ target m, e ≠ member target m) (inline : Bool) :
    Context.written (.closure inline lookup naming) e =
      Context.written (.closure true lookup naming) e := by
  cases e with
  | member target m => exact absurd rfl (he target m)
  | unary op operand =>
    rcases unary_forms op operand with ⟨t, v, rfl, rfl⟩ | ⟨t, rfl, hv⟩ | hop
    · rfl
    · rw [Context.written_convert hv, Context.written_convert hv]
    · rw [Context.written_unary hop, Context.written_unary hop]
  | call target m args => cases target <;> rfl
  | _ => rfl

/-- A node that is not refused inline has the same steps in a function. -/
theorem steps_of_composed {e : Expr} (he : ∀ target m, e ≠ member target m) {simple : Bool}
    {rs : List (Option String)} {r : Option String}
    (h : Context.compose (.closure true lookup naming) simple e rs = .ok r) :
    Context.steps (.closure false lookup naming) e =
      Context.steps (.closure true lookup naming) e := by
  cases e with
  | member target m => exact absurd rfl (he target m)
  | call target m args =>
    cases target with
    | none => rfl
    | some target =>
      obtain ⟨owner, hc, h⟩ := bind_eq_ok.mp h
      have hfull : Context.captured (.closure false lookup naming) target = .ok owner := hc
      simp only [Context.steps, hc, hfull, Context.lookup_closure] at h ⊢
      split at h
      · next hm => simp [hm]
      · next hm =>
        split at h
        · cases h
        · next ht =>
          have hnever : Context.isTextless (.closure false lookup naming) target = false := rfl
          simp [hm, ht, hnever]
  | _ => exact @written_of_mode lookup naming _ he false

theorem FragmentedAll.named_steps {e : Expr} {rs : List (Option String)}
    {fss : List (List Fragment)}
    (h : FragmentedAll lookup naming (Context.steps (.closure true lookup naming) e) rs fss) :
    ∀ fs ∈ fss, Fragment.Named (fun name => Occurs (parameter name) e) fs := by
  intro fs hfs
  refine (h.named fs hfs).mono ?_
  rintro name ⟨c, hc, hn⟩
  exact .child (Context.mem_children_of_mem_steps hc) hn

/-- The induction step for all nodes that put fragments together. -/
theorem writable_composed {e : Expr} (he : ¬ e.IsPath)
    (inner : ∀ c ∈ e.children, Writable lookup naming c) : Writable lookup naming e := by
  intro r h
  rw [unarmed_eq_steps] at h
  obtain ⟨rs, hrs, h⟩ := bind_eq_ok.mp h
  obtain ⟨fss, hfss⟩ :=
    fragmentedAll hrs fun c hc => inner c (Context.mem_children_of_mem_steps hc)
  obtain ⟨fs, hfs⟩ := exists_composed he h fss
  have hparameter : ∀ name, e ≠ parameter name := by
    rintro name rfl
    exact he trivial
  have hmember : ∀ target m, e ≠ member target m := by
    rintro target m rfl
    exact he trivial
  refine ⟨fs, ?_, ?_, hfs.named hfss.named_steps⟩
  · intro names
    rw [unarmed_eq_steps, steps_rename rfl, steps_of_composed hmember h, hfss.full, ok_bind,
      compose_rename rfl (.inr hparameter)]
    exact hfs.text (texts_shownAll names fss)
  · rw [hfs.text hfss.cut] at h
    cases h
    rfl

theorem writable_member_of_parameter {target : Expr} {m : Member}
    (hq : target.IsConvertedParameter) : Writable lookup naming (member target m) := by
  intro r h
  obtain ⟨q, hq⟩ := hq
  rw [hq.unarmed_member rfl] at h
  cases h
  refine ⟨[.path q, .text (naming.label m false)], ?_, ?_, ?_⟩
  · intro names
    rw [rename, (hq.rename names).unarmed_member rfl]
    simp [Fragment.shown, pathText]
  · simp [Fragment.shown, pathText]
  · have hchild : target ∈ (member target m).children := by simp [children]
    simpa [Fragment.parameter?] using Occurs.child hchild hq.occurs

/-- Captured owners are the same in both modes and under all names of the parameters. -/
theorem unarmed_member_rename {target : Expr} (h : ¬ target.IsConvertedParameter) (m : Member)
    (names : String → String) :
    unarmed (.closure false lookup naming) (rename names (member target m)) = do
      match ← Context.captured (.closure true lookup naming) target with
      | some owner =>
        return some (← Context.capturedMember (.closure true lookup naming) owner m false)
      | none =>
        return some (pathText (← unarmed (.closure false lookup naming) (rename names target))
          (naming.label m false)) := by
  rw [rename, unarmed_member, isParameter_rename, isParameter_eq_false h, Bool.and_false,
    captured_rename names rfl]
  rfl

theorem writable_member {target : Expr} {m : Member} (inner : Writable lookup naming target) :
    Writable lookup naming (member target m) := by
  by_cases hq : target.IsConvertedParameter
  · exact writable_member_of_parameter hq
  intro r h
  rw [unarmed_member, isParameter_eq_false hq, Bool.and_false] at h
  obtain ⟨owner, hc, h⟩ := bind_eq_ok.mp h
  cases owner with
  | some owner =>
    obtain ⟨t, ht, h⟩ := bind_eq_ok.mp h
    cases h
    refine ⟨[.text t], ?_, by simp, by simp [Fragment.parameter?]⟩
    intro names
    rw [unarmed_member_rename hq, hc, ok_bind]
    simp [ht]
  | none =>
    obtain ⟨object, ho, h⟩ := bind_eq_ok.mp h
    cases h
    cases object with
    | none => exact absurd (isConvertedParameter_of_unarmed ho).2 hq
    | some object =>
      obtain ⟨fs, hfs⟩ := inner _ ho
      have hcut : object = Fragment.concat none fs := hfs.cut
      refine ⟨fs ++ [.text ".", .text (naming.label m false)], ?_, ?_, ?_⟩
      · intro names
        rw [unarmed_member_rename hq, hc, ok_bind, hfs.full]
        simp [pathText, String.append_assoc]
      · simp [pathText, hcut, String.append_assoc]
      · have hnamed : Fragment.Named (fun name => Occurs (parameter name) (member target m)) fs :=
          hfs.named.mono fun _ hn => .child (by simp [children]) hn
        simpa [Fragment.parameter?] using hnamed

theorem writable_convert {t : CastType} {operand : Expr} (hv : ∀ v, operand ≠ constant v)
    (inner : Writable lookup naming operand) :
    Writable lookup naming (unary (.convert t) operand) := by
  intro r h
  rw [unarmed_convert hv] at h
  obtain ⟨fs, hfs⟩ := inner r h
  refine ⟨fs, ?_, hfs.cut, hfs.named.mono fun _ hn => .child (by simp [children]) hn⟩
  intro names
  rw [rename, unarmed_convert (rename_ne_constant names hv), hfs.full]

/-- Whatever can be written inline is made of fragments. -/
theorem writable (e : Expr) : Writable lookup naming e := by
  induction e using children_induction with
  | step e ih =>
  by_cases he : e.IsPath
  · cases e with
    | parameter name =>
      intro r h
      cases h
      exact ⟨[.occurrence name], fun names => by simp [rename, ConvertedParameter.bare.unarmed_eq,
        Fragment.shown], rfl, by simpa [Fragment.parameter?] using Occurs.self⟩
    | member target m => exact writable_member (ih target (by simp [children]))
    | unary op operand =>
      rcases unary_forms op operand with ⟨t, v, rfl, rfl⟩ | ⟨t, rfl, hv⟩ | hop
      · exact absurd he id
      · exact writable_convert hv (ih operand (by simp [children]))
      · exact writable_composed (not_isPath_unary hop) ih
    | _ => exact absurd he id
  · exact writable_composed he ih

end Expr
end LambdaScript
