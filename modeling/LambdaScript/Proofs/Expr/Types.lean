import LambdaScript.Proofs.Expr.Evaluation
import LambdaScript.Proofs.Value.Literal

/-! # Types of captured values

A captured value lies inside of some constant, or is the result of a conversion. The types that an
expression can meet are therefore known before it is evaluated: those of the records and
enumerations inside its constants, the enumerations that it converts to, and the host's types of
plain values. `meets_of_evaluate` says that evaluation meets no other type.
-/

namespace LambdaScript
namespace Value

def isNamed : Value → Bool
  | enumeration _ _ => true
  | record _ => true
  | _ => false

/-- The types of the values that do not name their own. -/
def plainTypes : List TypeName :=
  [⟨"Object"⟩, ⟨"String"⟩, ⟨"Char"⟩, ⟨"Boolean"⟩, ⟨"Int64"⟩, ⟨"Double"⟩, ⟨"DateTime"⟩,
    ⟨"TimeSpan"⟩, ⟨"Array"⟩]

theorem type_mem_plainTypes {v : Value} (h : v.isNamed = false) : v.type ∈ plainTypes := by
  cases v with
  | enumeration type n => cases h
  | record r => cases h
  | _ => simp [type, plainTypes]

/-- What is read from a value lies inside of it. -/
theorem inside_of_read {v w : Value} {m : Member} (h : v.read m = .ok w) : Inside w v := by
  cases v with
  | record r =>
    cases hr : r.get? m.name with
    | none => simp [read, hr] at h
    | some u =>
      have hu : u = w := by simpa [read, hr] using h
      subst hu
      obtain ⟨s, hs, hvalue⟩ := Option.bind_eq_some_iff.mp hr
      exact .slot (List.mem_of_find?_eq_some hs) hvalue .self
  | _ => cases h

/-- Only a conversion to an enumeration makes a value that names its type, and the type is the
target. -/
theorem convert?_eq_some {v w : Value} {t : CastType} (h : v.convert? t = some w) :
    w.isNamed = false ∨ ∃ type n, t = .enumeration type ∧ w = enumeration type n := by
  cases t with
  | enumeration type =>
    obtain ⟨n, -, rfl⟩ := Option.map_eq_some_iff.mp h
    exact .inr ⟨type, n, rfl, rfl⟩
  | guid =>
    cases v with
    | string s =>
      cases h
      exact .inl rfl
    | _ => cases h
  | instant =>
    cases v with
    | instant t =>
      cases h
      exact .inl rfl
    | _ => cases h
  | duration =>
    cases v with
    | duration d =>
      cases h
      exact .inl rfl
    | _ => cases h
  | nullable inner => cases h
  | array item => cases h
  | object type => cases h
  | _ =>
    obtain ⟨x, -, rfl⟩ := Option.map_eq_some_iff.mp h
    exact .inl rfl

/-- A conversion leaves null as it is or is one to the type inside all nullable ones. -/
theorem convert_eq_ok {v w : Value} {t : CastType} (h : v.convert t = .ok w) :
    w = null ∨ v.convert? t.core = some w := by
  induction t with
  | nullable inner ih =>
    cases v with
    | null =>
      cases h
      exact .inl rfl
    | _ => exact ih h
  | _ =>
    simp only [convert] at h
    split at h
    · next hsome =>
      cases h
      exact .inr hsome
    · cases h

end Value

namespace Expr
open Value

/-- The types of the values that can be captured in an expression. -/
inductive Meets (e : Expr) : TypeName → Prop
  /-- The type of a record or an enumeration inside a constant. -/
  | named {c v : Value} (mem : Occurs (constant c) e) (inside : Inside v c)
      (named : v.isNamed = true) : Meets e v.type
  /-- The target of a conversion to an enumeration, which may be nullable. -/
  | target {t : CastType} {operand : Expr} {type : TypeName}
      (mem : Occurs (unary (.convert t) operand) e) (core : t.core = .enumeration type) :
      Meets e type
  /-- The type of a plain value. -/
  | plain {type : TypeName} (mem : type ∈ plainTypes) : Meets e type

theorem Meets.mono {x e : Expr} {type : TypeName} (h : Meets x type) (hx : Occurs x e) :
    Meets e type := by
  cases h with
  | named mem inside named => exact .named (mem.trans hx) inside named
  | target mem core => exact .target (mem.trans hx) core
  | plain mem => exact .plain mem

theorem meets_of_inside {c v : Value} {e : Expr} (mem : Occurs (constant c) e)
    (inside : Inside v c) : Meets e v.type := by
  cases hv : v.isNamed with
  | true => exact .named mem inside hv
  | false => exact .plain (type_mem_plainTypes hv)

/-- A conversion gives a value of a type that is met, and no record. -/
theorem meets_of_convert {v w : Value} {t : CastType} {operand : Expr}
    (h : v.convert t = .ok w) :
    (∀ r, w ≠ record r) ∧ Meets (unary (.convert t) operand) w.type := by
  rcases convert_eq_ok h with rfl | hconvert
  · exact ⟨by simp, .plain (type_mem_plainTypes rfl)⟩
  · rcases convert?_eq_some hconvert with hplain | ⟨type, n, htarget, rfl⟩
    · refine ⟨?_, .plain (type_mem_plainTypes hplain)⟩
      rintro r rfl
      cases hplain
    · exact ⟨by simp, .target .self htarget⟩

/-- A value lies inside of a constant, or a conversion made it and nothing can be read from it. -/
theorem origin_of_evaluate {e : Expr} {v : Value} (h : e.evaluate = .ok v) :
    (∃ c, Occurs (constant c) e ∧ Inside v c) ∨ ((∀ r, v ≠ record r) ∧ Meets e v.type) := by
  fun_induction evaluate e generalizing v with
  | case1 c =>
    cases h
    exact .inl ⟨c, .self, .self⟩
  | case2 target m ih =>
    have htarget : target ∈ (member target m).children := by simp [children]
    obtain ⟨owner, howner, hread⟩ := bind_eq_ok.mp h
    rcases ih howner with ⟨c, hc, hinside⟩ | ⟨hplain, -⟩
    · exact .inl ⟨c, .child htarget hc, (inside_of_read hread).trans hinside⟩
    · cases owner with
      | record r => exact absurd rfl (hplain r)
      | _ => cases hread
  | case3 t operand ih =>
    obtain ⟨w, -, hconvert⟩ := bind_eq_ok.mp h
    exact .inr (meets_of_convert hconvert)
  | case4 e => cases h

theorem meets_of_evaluate {e : Expr} {v : Value} (h : e.evaluate = .ok v) : Meets e v.type := by
  rcases origin_of_evaluate h with ⟨c, hc, hinside⟩ | ⟨-, hmeets⟩
  · exact meets_of_inside hc hinside
  · exact hmeets

end Expr
end LambdaScript
