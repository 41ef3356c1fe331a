import LambdaScript.Proofs.Emit.Unarmed
import LambdaScript.Proofs.Expr.Core
import LambdaScript.Proofs.Text.Join
import Mathlib.Data.List.Induction

/-! # Paths from the parameter

Member accesses from the parameter, with conversions anywhere between them, are written as the path
of their labels: conversions leave no trace, and annotations are never looked up, because nothing
on the path is known. Each access puts one label behind the path so far, and only the outermost one
can get the hint.
-/

namespace LambdaScript

/-- The path of texts, with dots between them. There is none of no texts. -/
def dotted (texts : List String) : Option String :=
  if texts = [] then none else some (Text.joinWith "." texts)

/-- An access puts its label behind the path of its object. -/
theorem pathText_dotted (texts : List String) (label : String) :
    some (pathText (dotted texts) label) = dotted (texts ++ [label]) := by
  by_cases h : texts = []
  · subst h
    rfl
  · simp [dotted, h, pathText, Text.joinWith_concat h]

def accesses : List Layer → List Member
  | [] => []
  | .access m :: layers => m :: accesses layers
  | .cast _ :: layers => accesses layers

theorem accesses_append (inner outer : List Layer) :
    accesses (inner ++ outer) = accesses inner ++ accesses outer := by
  fun_induction accesses inner with
  | case1 => rfl
  | case2 m layers ih => rw [List.cons_append, accesses, ih, List.cons_append]
  | case3 t layers ih => rw [List.cons_append, accesses, ih]

/-- What a path starts with: the parameter, which has no text inline. -/
def Context.root (ctx : Context) (name : String) : List String := if ctx.inline then [] else [name]

namespace Expr
variable {ctx : Context}

/-- What is read or converted from a parameter is no constant. -/
theorem core_under_ne (name : String) (layers : List Layer) (v : Value) :
    ((parameter name).under layers).core ≠ constant v := by
  rw [core_under]
  exact Expr.noConfusion

/-- The step of an access on a path: the hint is for its own label, not for the path before it. -/
theorem result_access (closure : ctx.evaluate = evaluate) (name : String) (layers : List Layer)
    (m : Member) (hint : Bool) :
    (emit ctx (member ((parameter name).under layers) m)).result hint = do
      let object ← unarmed ctx ((parameter name).under layers)
      return some (pathText object (ctx.label m hint)) := by
  have hvalue := evaluate_of_core_ne (core_under_ne name layers)
  rw [emit_member_of_notConstant closure hvalue]
  change (emit ctx _ >>= _).result false = _
  rw [result_emit_bind]
  rfl

/-- The step of a conversion on a path, which leaves no trace. -/
theorem emit_cast (name : String) (layers : List Layer) (t : CastType) :
    emit ctx (unary (.convert t) ((parameter name).under layers)) =
      emit ctx ((parameter name).under layers) := by
  apply emit_convert
  intro v hv
  exact core_under_ne name layers v (congrArg core hv)

/-- A path is written as the labels of its accesses behind the parameter. -/
theorem unarmed_path (closure : ctx.evaluate = evaluate) (name : String) (layers : List Layer) :
    unarmed ctx ((parameter name).under layers) =
      .ok (dotted (ctx.root name ++ (accesses layers).map (ctx.label · false))) := by
  induction layers using List.reverseRecOn with
  | nil =>
    rw [under_nil, ConvertedParameter.bare.unarmed_eq]
    cases h : ctx.inline <;> simp [Context.root, h, accesses, dotted, Text.joinWith]
  | append_singleton layers layer ih =>
    rw [under_concat, accesses_append]
    cases layer with
    | access m =>
      rw [unarmed, Layer.around, result_access closure, ih, ok_bind, pathText_dotted,
        List.append_assoc]
      simp [accesses]
    | cast t =>
      rw [unarmed, Layer.around, emit_cast, ← unarmed, ih]
      simp [accesses]

/-- A path is written as its outermost access is, without the conversions around that. -/
theorem emit_casts (name : String) (layers : List Layer) (casts : List CastType) :
    emit ctx ((parameter name).under (layers ++ casts.map .cast)) =
      emit ctx ((parameter name).under layers) := by
  induction casts using List.reverseRecOn with
  | nil => simp
  | append_singleton casts t ih =>
    rw [List.map_append, ← List.append_assoc, List.map_singleton, under_concat, Layer.around,
      emit_cast, ih]

/-- At most one conversion may stand around a simple member access. -/
theorem isSimpleMember_casts (target : Expr) (m : Member) (casts : List CastType) :
    ((member target m).under (casts.map .cast)).isSimpleMember = decide (casts.length ≤ 1) := by
  rcases List.eq_nil_or_concat casts with rfl | ⟨casts, t, rfl⟩
  · rfl
  rcases List.eq_nil_or_concat casts with rfl | ⟨casts, u, rfl⟩
  · rfl
  · simp only [List.concat_eq_append, List.map_append, List.map_singleton, under_concat]
    simp [Layer.around, isSimpleMember]

/-- The text of a path, with the hint for its outermost access alone. -/
theorem result_path (closure : ctx.evaluate = evaluate) (name : String) (inner : List Layer)
    (m : Member) (casts : List CastType) (hint : Bool) :
    (emit ctx ((parameter name).under (inner ++ .access m :: casts.map .cast))).result hint =
      .ok (some (Text.joinWith "." (ctx.root name ++ (accesses inner).map (ctx.label · false) ++
        [ctx.label m hint]))) := by
  have hsplit : inner ++ .access m :: casts.map .cast =
      inner ++ [.access m] ++ casts.map .cast := by
    simp
  rw [hsplit, emit_casts, under_concat, Layer.around, result_access closure,
    unarmed_path closure, ok_bind, pathText_dotted]
  simp [dotted]

end Expr

open LambdaScript.Expr

example :
    Lambda.compile (.closure true .empty (some fun m simple => if simple then "$" else m.name))
      ⟨["p"], (parameter "p").under
        [.cast (.object ⟨"Person"⟩), .access ⟨⟨"Person"⟩, "Address", .property⟩,
          .access ⟨⟨"Address"⟩, "City", .property⟩, .cast .string]⟩ = .ok "Address.$" := rfl

end LambdaScript
