import LambdaScript.Proofs.Emit.Unarmed
import LambdaScript.Proofs.Expr.Renaming

/-! # Writing renamed expressions

Renaming the parameters goes into the steps of a node and leaves the rest of it alone, so only a
parameter that has a text is written otherwise. An inline expression has none.
-/

namespace LambdaScript
namespace Expr
variable {ctx : Context} {lookup : Lookup} {naming : Naming}

theorem ConvertedParameter.rename {name : String} {e : Expr} (h : ConvertedParameter name e)
    (names : String → String) : ConvertedParameter (names name) (e.rename names) := by
  induction h with
  | bare => exact .bare
  | convert type _ ih => exact .convert type ih

theorem isConvertedParameter_rename (names : String → String) (e : Expr) :
    (rename names e).isConvertedParameter = e.isConvertedParameter := by
  fun_induction isConvertedParameter e with
  | case1 name => rfl
  | case2 t operand ih => exact ih
  | case3 e hparameter hconvert =>
    unfold rename
    split <;> simp_all [isConvertedParameter]

theorem isTextless_rename (names : String → String) (e : Expr) :
    ctx.isTextless (e.rename names) = ctx.isTextless e := by
  rw [Context.isTextless, isConvertedParameter_rename, Context.isTextless]

/-- The steps of a renamed node are the renamed steps of the node. -/
theorem steps_rename (closure : ctx.evaluate = evaluate) (names : String → String) (e : Expr) :
    ctx.steps (e.rename names) = (ctx.steps e).map (rename names) := by
  cases e with
  | member target m =>
    simp only [rename, Context.steps, Context.written, captured_rename names closure,
      isParameter_rename]
    split
    · rfl
    · split <;> rfl
  | memberInit base bindings =>
    simp only [rename, Context.steps, Context.written, isEmpty_renameBindings, length_renameAll,
      map_value_renameBindings, List.map_append, ← renameAll_eq_map]
    split
    · rfl
    · rfl
  | binary op left right =>
    simp only [rename, Context.steps, Context.written]
    split <;> rfl
  | unary op operand =>
    rcases unary_forms op operand with ⟨t, v, rfl, rfl⟩ | ⟨t, rfl, hv⟩ | hop
    · rfl
    · rw [rename, Context.steps_convert hv, Context.steps_convert (rename_ne_constant names hv)]
      rfl
    · rw [rename, Context.steps_unary hop, Context.steps_unary hop]
      split <;> rfl
  | call target m args =>
    cases target with
    | none =>
      simp only [rename, Context.steps, Context.written, renameAll_eq_map]
      split <;> rfl
    | some target =>
      simp only [rename, Context.steps, captured_rename names closure, isTextless_rename,
        renameAll_eq_map]
      cases ctx.captured target with
      | error f => rfl
      | ok owner =>
        dsimp only
        rw [apply_ite (List.map _), apply_ite (List.map _)]
        rfl
  | conditional test ifTrue ifFalse => cases ifFalse <;> rfl
  | parameter name => rfl
  | index target args => simp [rename, Context.steps, Context.written, children, renameAll_eq_map]
  | new base => simp [rename, Context.steps, Context.written, children, renameAll_eq_map]
  | newArray items => simp [rename, Context.steps, Context.written, children, renameAll_eq_map]
  | constant v => rfl
  | lambda params body => rfl
  | invoke target args => rfl
  | typeIs operand type => rfl

/-- A node is put together without its names, but for a parameter that has a text. -/
theorem compose_rename (closure : ctx.evaluate = evaluate) {e : Expr}
    (h : ctx.inline = true ∨ ∀ name, e ≠ parameter name) (names : String → String) (simple : Bool)
    (rs : List (Option String)) :
    ctx.compose simple (e.rename names) rs = ctx.compose simple e rs := by
  cases e with
  | parameter name =>
    rcases h with h | h
    · simp only [rename, Context.compose, h, if_true]
    · exact absurd rfl (h name)
  | member target m =>
    simp only [rename, Context.compose, captured_rename names closure, isParameter_rename]
  | memberInit base bindings =>
    simp only [rename, Context.compose, isEmpty_renameBindings, isEmpty_renameAll,
      length_renameAll, map_name_renameBindings]
  | unary op operand =>
    rcases unary_forms op operand with ⟨t, v, rfl, rfl⟩ | ⟨t, rfl, hv⟩ | hop
    · rfl
    · rw [rename, Context.compose_convert hv, Context.compose_convert (rename_ne_constant names hv)]
    · rw [rename, Context.compose_unary hop, Context.compose_unary hop]
  | call target m args =>
    cases target with
    | none => rfl
    | some target =>
      simp only [rename, Context.compose, captured_rename names closure, isTextless_rename]
  | conditional test ifTrue ifFalse => cases ifFalse <;> rfl
  | _ => rfl

/-- Inline, the names do not matter. -/
theorem unarmed_inline_rename (names : String → String) (e : Expr) :
    unarmed (.closure true lookup naming) (e.rename names) =
      unarmed (.closure true lookup naming) e := by
  induction e using children_induction with
  | step e ih =>
  have hnode (rs : List (Option String)) :
      Context.compose (.closure true lookup naming) false (e.rename names) rs =
        Context.compose (.closure true lookup naming) false e rs :=
    compose_rename rfl (.inl rfl) names false rs
  rw [unarmed_eq_steps, unarmed_eq_steps, steps_rename rfl, List.mapM_map]
  simp only [hnode]
  congr 1
  apply mapM_congr
  intro c hc
  exact ih c (Context.mem_children_of_mem_steps hc)

end Expr
end LambdaScript
