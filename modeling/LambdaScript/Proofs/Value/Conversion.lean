import LambdaScript.Value.Convert

/-! # Values of a type

Conversion to a type gives a value of that type, and leaves the values of the type as they are. So
the values of a type are those that conversion to it can give, and they are also those that it does
not change.
-/

namespace LambdaScript
namespace Value

/-- The values of a type. Arrays and objects are no targets of conversions and have none. -/
inductive Inhabits : Value → CastType → Prop
  | string (s : String) : Inhabits (string s) .string
  | guid (s : String) : Inhabits (string s) .guid
  | char (c : Char) : Inhabits (char c) .char
  | boolean (b : Bool) : Inhabits (boolean b) .boolean
  | integer (n : Int64) : Inhabits (integer n) .integer
  | float (x : Binary64) : Inhabits (float x) .float
  | instant (t : Instant) : Inhabits (instant t) .instant
  | duration (d : Duration) : Inhabits (duration d) .duration
  | enumeration (type : TypeName) (n : Int64) :
      Inhabits (enumeration type n) (.enumeration type)
  | null (inner : CastType) : Inhabits null (.nullable inner)
  | nullable {v : Value} {inner : CastType} (h : Inhabits v inner) : Inhabits v (.nullable inner)

/-- A nullable type is the type inside it for all values but null. -/
theorem convert_nullable {v : Value} (h : v ≠ null) (inner : CastType) :
    v.convert (.nullable inner) = v.convert inner := by
  cases v with
  | null => exact absurd rfl h
  | _ => rfl

/-- What is converted to a type that is not nullable is a value of it, and is not null. -/
theorem inhabits_of_convert? {v w : Value} {t : CastType} (h : v.convert? t = some w) :
    w.Inhabits t ∧ w ≠ null := by
  cases t with
  | guid =>
    cases v with
    | string s =>
      cases h
      exact ⟨.guid s, by simp⟩
    | _ => cases h
  | instant =>
    cases v with
    | instant t =>
      cases h
      exact ⟨.instant t, by simp⟩
    | _ => cases h
  | duration =>
    cases v with
    | duration d =>
      cases h
      exact ⟨.duration d, by simp⟩
    | _ => cases h
  | nullable inner => cases h
  | array item => cases h
  | object type => cases h
  -- the other types are made of what the value becomes, by the constructor of their values
  | _ =>
    obtain ⟨x, -, rfl⟩ := Option.map_eq_some_iff.mp h
    exact ⟨by constructor, by simp⟩

/-- What is converted to a type is a value of it, and null comes from null alone. -/
theorem inhabits_of_convert {v w : Value} {t : CastType} (h : v.convert t = .ok w) :
    w.Inhabits t ∧ (w = null → v = null) := by
  induction t with
  | nullable inner ih =>
    by_cases hv : v = null
    · subst hv
      cases h
      exact ⟨.null inner, id⟩
    · rw [convert_nullable hv] at h
      exact ⟨.nullable (ih h).1, (ih h).2⟩
  | _ =>
    simp only [convert] at h
    split at h
    · next hsome =>
      cases h
      have hw := inhabits_of_convert? hsome
      exact ⟨hw.1, fun hnull => absurd hnull hw.2⟩
    · cases h

/-- The values of a type stay as they are. -/
theorem convert_of_inhabits {v : Value} {t : CastType} (h : v.Inhabits t) :
    v.convert t = .ok v := by
  induction h with
  | @nullable v inner h ih =>
    by_cases hv : v = null
    · subst hv
      rfl
    · rw [convert_nullable hv, ih]
  | _ => rfl

/-- Conversion to a type is a retraction onto the values of the type. What it gives is a value of
the type, is null only if null is converted, and is not changed by converting it again. The values
of the type are exactly those that it leaves as they are. -/
theorem convert_retraction (t : CastType) :
    (∀ v w : Value, v.convert t = .ok w →
      w.Inhabits t ∧ (w = null → v = null) ∧ w.convert t = .ok w) ∧
    ∀ v : Value, v.Inhabits t ↔ v.convert t = .ok v := by
  constructor
  · intro v w h
    have hw := inhabits_of_convert h
    exact ⟨hw.1, hw.2, convert_of_inhabits hw.1⟩
  · intro v
    exact ⟨convert_of_inhabits, fun h => (inhabits_of_convert h).1⟩

theorem convert_retraction_color :
    (string " 7 ").convert (.nullable (.nullable (.enumeration ⟨"Color"⟩))) =
        .ok (enumeration ⟨"Color"⟩ 7) ∧
      (enumeration ⟨"Color"⟩ 7).Inhabits (.nullable (.nullable (.enumeration ⟨"Color"⟩))) ∧
      (enumeration ⟨"Color"⟩ 7).convert (.nullable (.nullable (.enumeration ⟨"Color"⟩))) =
        .ok (enumeration ⟨"Color"⟩ 7) := by
  have h : (string " 7 ").convert (.nullable (.nullable (.enumeration ⟨"Color"⟩))) =
      .ok (enumeration ⟨"Color"⟩ 7) := rfl
  have hcolor := (convert_retraction _).1 _ _ h
  exact ⟨h, hcolor.1, hcolor.2.2⟩

end Value
end LambdaScript
