import LambdaScript.Proofs.Emit.Unarmed
import LambdaScript.Proofs.Expr.Evaluation
import LambdaScript.Proofs.Expr.Rebuild
import LambdaScript.Proofs.Reading.Spelling

/-! # Bracketed expressions

Expressions of names, integers, strings, member accesses, rows, objects, calls and conditionals are
always written, and their texts can be told apart: what is read from a text is the expression, up to
the types that declare its members and methods and the types of its constructions.
-/

namespace LambdaScript.Expr
open Reading

/-- An expression whose text consists of names, integers, strings and what dots and brackets make of
them. A member is accessed on an expression that has no value. -/
inductive Bracketed : Expr → Prop
  | parameter {name : String} (valid : isName name.toList = true) : Bracketed (parameter name)
  | integer (n : Int64) : Bracketed (constant (.integer n))
  | string {s : String} (unquoted : '"' ∉ s.toList) : Bracketed (constant (.string s))
  | member {target : Expr} {m : Member} (inner : Bracketed target)
      (unknown : ∀ v, target.evaluate ≠ .ok v) (valid : isName m.name.toList = true) :
      Bracketed (member target m)
  | index {target : Expr} {args : List Expr} (inner : Bracketed target)
      (each : ∀ e ∈ args, Bracketed e) : Bracketed (index target args)
  | newArray {items : List Expr} (each : ∀ e ∈ items, Bracketed e) : Bracketed (newArray items)
  | new {base : Construction Expr} (fits : base.members.length = base.args.length)
      (valid : ∀ name ∈ base.members, isName name.toList = true)
      (each : ∀ e ∈ base.args, Bracketed e) : Bracketed (new base)
  | call {target : Expr} {m : Method} {args : List Expr} (inner : Bracketed target)
      (valid : isName m.name.toList = true) (each : ∀ e ∈ args, Bracketed e) :
      Bracketed (call (some target) m args)
  | conditional {test ifTrue : Expr} {ifFalse : Option Expr} (inner : Bracketed test)
      (first : Bracketed ifTrue) (second : ∀ e ∈ ifFalse, Bracketed e) :
      Bracketed (conditional test ifTrue ifFalse)

/-- The node with its members, methods and constructions known by name alone. -/
def dropDeclaration : Expr → Expr
  | member target m => member target (.ofName m.name)
  | call target m args => call target (.ofName m.name) args
  | new base => new { base with type := ⟨""⟩ }
  | e => e

def undeclared : Expr → Expr := rebuild dropDeclaration

theorem undeclared_eq (e : Expr) : e.undeclared = dropDeclaration (e.mapChildren undeclared) :=
  rebuild_eq e

/-- A bracketed expression is a constant or does not reduce to one. -/
theorem Bracketed.evaluate_or {e : Expr} (h : Bracketed e) :
    (∃ v, e.evaluate = .ok v) ∨ ∃ k, e.evaluate = .error (.notConstant k) := by
  induction h with
  | integer n => exact .inl ⟨_, rfl⟩
  | string unquoted => exact .inl ⟨_, rfl⟩
  | member inner unknown valid ih =>
    obtain ⟨k, hk⟩ := ih.resolve_left fun ⟨v, hv⟩ => unknown v hv
    exact .inr ⟨k, by rw [evaluate, hk, error_bind]⟩
  | _ => exact .inr ⟨_, rfl⟩

theorem Bracketed.captured {e : Expr} (h : Bracketed e) :
    ∃ owner, Context.captured (.closure false .empty none) e = .ok owner := by
  obtain ⟨v, hv⟩ | ⟨k, hk⟩ := h.evaluate_or
  · exact ⟨some v, captured_of_evaluate rfl hv⟩
  · exact ⟨none, captured_of_notConstant rfl hk⟩

mutual

def spelling : Expr → String
  | parameter name => name
  | constant v => (v.literal true).getD ""
  | member target m => pathText (some (spelling target)) m.name
  | index target args => spelling target ++ "[" ++ Text.commas (spellings args) ++ "]"
  | newArray items => "[" ++ Text.commas (spellings items) ++ "]"
  | new ⟨_, members, args⟩ => objectText (List.zipWith pairText members (spellings args))
  | call (some target) m args =>
    callText ("(" ++ spelling target ++ ")." ++ m.name) (spellings args)
  | conditional test ifTrue none => conditionalText (spelling test) (spelling ifTrue) none
  | conditional test ifTrue (some ifFalse) =>
    conditionalText (spelling test) (spelling ifTrue) (some (spelling ifFalse))
  | _ => ""

def spellings : List Expr → List String
  | [] => []
  | e :: es => spelling e :: spellings es

end

theorem spellings_eq_map (es : List Expr) : spellings es = es.map spelling := by
  induction es with
  | nil => rfl
  | cons e es ih => rw [spellings, ih, List.map_cons]

theorem spellings_undeclared {es : List Expr} (h : ∀ e ∈ es, e.undeclared.spelling = e.spelling) :
    spellings (es.map undeclared) = spellings es := by
  rw [spellings_eq_map, spellings_eq_map, List.map_map]
  exact List.map_congr_left h

/-- The text does not depend on declarations. -/
theorem spelling_undeclared (e : Expr) : e.undeclared.spelling = e.spelling := by
  induction e using children_induction with
  | step e ih =>
  have all (es : List Expr) (h : ∀ c ∈ es, c ∈ e.children) :
      spellings (es.map undeclared) = spellings es :=
    spellings_undeclared fun c hc => ih c (h c hc)
  rw [undeclared_eq]
  cases e with
  | member target m =>
    simp only [mapChildren, dropDeclaration, spelling, ih target (by simp [children])]
    rfl
  | index target args =>
    simp only [mapChildren, dropDeclaration, spelling, ih target (by simp [children]),
      all args (by simp +contextual [children])]
  | new base => simp only [mapChildren, dropDeclaration, spelling, all base.args fun _ h => h]
  | newArray items => simp only [mapChildren, dropDeclaration, spelling, all items fun _ h => h]
  | call target m args =>
    cases target with
    | none => rfl
    | some target =>
      simp only [mapChildren, dropDeclaration, Option.map, spelling,
        ih target (by simp [children]), all args (by simp +contextual [children])]
      rfl
  | conditional test ifTrue ifFalse =>
    cases ifFalse with
    | none =>
      simp only [mapChildren, dropDeclaration, Option.map, spelling, ih test (by simp [children]),
        ih ifTrue (by simp [children])]
    | some ifFalse =>
      simp only [mapChildren, dropDeclaration, Option.map, spelling, ih test (by simp [children]),
        ih ifTrue (by simp [children]), ih ifFalse (by simp [children])]
  | _ => rfl

theorem unarmedAll_eq_spellings {ctx : Context} {es : List Expr}
    (h : ∀ e ∈ es, unarmed ctx e = .ok (some e.spelling)) :
    unarmedAll ctx es = .ok (spellings es) := by
  induction es with
  | nil => rfl
  | cons e es ih =>
    rw [List.forall_mem_cons] at h
    rw [unarmedAll_cons, h.1, ih h.2]
    rfl

/-- A bracketed expression is always written. -/
theorem Bracketed.unarmed_eq {e : Expr} (h : Bracketed e) :
    unarmed (.closure false .empty none) e = .ok (some e.spelling) := by
  induction h with
  | parameter valid => rfl
  | integer n => rfl
  | string unquoted => rfl
  | member inner unknown valid ih =>
    obtain ⟨k, hk⟩ := inner.evaluate_or.resolve_left fun ⟨v, hv⟩ => unknown v hv
    rw [unarmed_member, captured_of_notConstant rfl hk, ih]
    rfl
  | index inner each ih ihs =>
    rw [unarmed_index, ih, unarmedAll_eq_spellings ihs]
    rfl
  | newArray each ihs =>
    rw [unarmed_newArray, unarmedAll_eq_spellings ihs]
    rfl
  | new fits valid each ihs =>
    rw [unarmed_new, unarmedAll_eq_spellings ihs, ok_bind, constructionText, spellings_eq_map,
      if_pos (by rw [List.length_map, fits]), ← spellings_eq_map]
    rfl
  | call inner valid each ih ihs =>
    obtain ⟨owner, howner⟩ := inner.captured
    rw [unarmed_call_path howner (by simp [Lookup.resolveMethod, Lookup.empty]), ih,
      unarmedAll_eq_spellings ihs]
    rfl
  | @conditional test ifTrue ifFalse inner first second ihtest ihtrue ihfalse =>
    cases ifFalse with
    | none =>
      rw [unarmed_conditional_none, ihtest, ihtrue]
      rfl
    | some ifFalse =>
      rw [unarmed_conditional_some, ihtest, ihtrue, ihfalse ifFalse rfl]
      rfl

theorem spells_spellings {es : List Expr} (h : ∀ e ∈ es, Spells e.spelling e.undeclared) :
    List.Forall₂ Spells (spellings es) (es.map undeclared) := by
  rw [spellings_eq_map, List.forall₂_map_left_iff, List.forall₂_map_right_iff]
  exact List.forall₂_same.mpr h

/-- The text of a bracketed expression is read back, up to declarations. -/
theorem Bracketed.spells {e : Expr} (h : Bracketed e) : Spells e.spelling e.undeclared := by
  induction h with
  | parameter valid => exact spells_parameter valid
  | integer n => exact spells_integer n
  | string unquoted => exact spells_string unquoted
  | member inner unknown valid ih =>
    rw [undeclared_eq]
    exact ih.member valid
  | index inner each ih ihs =>
    rw [undeclared_eq]
    exact ih.index (spells_spellings ihs)
  | newArray each ihs =>
    rw [undeclared_eq]
    exact spells_newArray (spells_spellings ihs)
  | new fits valid each ihs =>
    rw [undeclared_eq]
    exact spells_construction (by rw [List.length_map, fits]) valid (spells_spellings ihs)
  | call inner valid each ih ihs =>
    rw [undeclared_eq]
    exact ih.call valid (spells_spellings ihs)
  | @conditional test ifTrue ifFalse inner first second ihtest ihtrue ihfalse =>
    rw [undeclared_eq]
    cases ifFalse with
    | none => exact ihtest.conditional_none ihtrue
    | some ifFalse => exact ihtest.conditional_some ihtrue (ihfalse ifFalse rfl)

/-- Bracketed expressions are written with the same text exactly if they are equal up to
declarations. -/
theorem same_text_iff_undeclared_eq {e e' : Expr} (he : Bracketed e) (he' : Bracketed e') :
    (∃ t, unarmed (.closure false .empty none) e = .ok (some t) ∧
      unarmed (.closure false .empty none) e' = .ok (some t)) ↔ e.undeclared = e'.undeclared := by
  rw [he.unarmed_eq, he'.unarmed_eq]
  constructor
  · rintro ⟨t, ht, ht'⟩
    cases ht
    have hread := he.spells.read?
    rw [← Option.some.inj (Except.ok.inj ht'), he'.spells.read?] at hread
    exact (Option.some.inj hread).symm
  · intro h
    refine ⟨e.spelling, rfl, ?_⟩
    rw [← e.spelling_undeclared, h, e'.spelling_undeclared]

def cityTest (owner : TypeName) (kind : MemberKind) : Expr :=
  conditional
    (call (some (member (parameter "p") ⟨owner, "City", kind⟩)) ⟨owner, "has"⟩
      [constant (.string "York")])
    (newArray [constant (.integer (-1)), new ⟨owner, ["a"], [index (parameter "q") []]⟩]) none

theorem bracketed_cityTest (owner : TypeName) (kind : MemberKind) :
    Bracketed (cityTest owner kind) := by
  have hnames : ∀ name ∈ ["p", "q", "a", "City", "has"], isName name.toList = true := by decide
  have hcity : Bracketed (member (parameter "p") ⟨owner, "City", kind⟩) :=
    .member (.parameter (hnames _ (by simp))) (by simp [evaluate]) (hnames _ (by simp))
  have hobject : Bracketed (new ⟨owner, ["a"], [index (parameter "q") []]⟩) :=
    .new rfl (by simpa using hnames "a" (by simp))
      (by simpa using .index (.parameter (hnames _ (by simp))) (by simp))
  have hcall : Bracketed (call (some (member (parameter "p") ⟨owner, "City", kind⟩))
      ⟨owner, "has"⟩ [constant (.string "York")]) :=
    .call hcity (hnames _ (by simp)) (by simpa using .string (by decide))
  exact .conditional hcall (.newArray (by simpa using ⟨.integer (-1), hobject⟩)) (by simp)

/-- Two tests that differ in their declarations have one text, and only declarations can differ. -/
theorem same_text_cityTest :
    Bracketed (cityTest ⟨"Person"⟩ .property) ∧ Bracketed (cityTest ⟨"Row"⟩ .field) ∧
      unarmed (.closure false .empty none) (cityTest ⟨"Person"⟩ .property) =
        .ok (some "(((p.City).has(\"York\"))?([-1,\x7ba:q[]\x7d]))") ∧
      unarmed (.closure false .empty none) (cityTest ⟨"Row"⟩ .field) =
        .ok (some "(((p.City).has(\"York\"))?([-1,\x7ba:q[]\x7d]))") ∧
      (cityTest ⟨"Person"⟩ .property).undeclared = (cityTest ⟨"Row"⟩ .field).undeclared :=
  have h := bracketed_cityTest
  ⟨h _ _, h _ _, rfl, rfl, (same_text_iff_undeclared_eq (h _ _) (h _ _)).mp ⟨_, rfl, rfl⟩⟩

end LambdaScript.Expr
