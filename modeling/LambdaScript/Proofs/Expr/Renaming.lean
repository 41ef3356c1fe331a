import LambdaScript.Proofs.Expr.Evaluation

/-! # Other names for the parameters

Renaming gives new names to all parameters of an expression and changes nothing else. Evaluation
does not see the names: it fails at every parameter, and with the same failure.
-/

namespace LambdaScript.Expr

mutual

/-- The expression with its parameters renamed. The names that a nested lambda binds are left. -/
def rename (names : String → String) : Expr → Expr
  | parameter name => parameter (names name)
  | member target m => member (rename names target) m
  | index target args => index (rename names target) (renameAll names args)
  | new ⟨type, members, args⟩ => new ⟨type, members, renameAll names args⟩
  | memberInit ⟨type, members, args⟩ bindings =>
    memberInit ⟨type, members, renameAll names args⟩ (renameBindings names bindings)
  | newArray items => newArray (renameAll names items)
  | constant v => constant v
  | binary op left right => binary op (rename names left) (rename names right)
  | unary op operand => unary op (rename names operand)
  | call none m args => call none m (renameAll names args)
  | call (some target) m args => call (some (rename names target)) m (renameAll names args)
  | conditional test ifTrue none => conditional (rename names test) (rename names ifTrue) none
  | conditional test ifTrue (some ifFalse) =>
    conditional (rename names test) (rename names ifTrue) (some (rename names ifFalse))
  | lambda params body => lambda params (rename names body)
  | invoke target args => invoke (rename names target) (renameAll names args)
  | typeIs operand type => typeIs (rename names operand) type

def renameAll (names : String → String) : List Expr → List Expr
  | [] => []
  | e :: es => rename names e :: renameAll names es

def renameBindings (names : String → String) : List (Binding Expr) → List (Binding Expr)
  | [] => []
  | ⟨m, e⟩ :: bindings => ⟨m, rename names e⟩ :: renameBindings names bindings

end

variable (names : String → String)

theorem renameAll_eq_map (es : List Expr) : renameAll names es = es.map (rename names) := by
  induction es with
  | nil => rfl
  | cons e es ih => rw [renameAll, ih, List.map_cons]

@[simp] theorem length_renameAll (es : List Expr) : (renameAll names es).length = es.length := by
  rw [renameAll_eq_map, List.length_map]

@[simp] theorem isEmpty_renameAll (es : List Expr) :
    (renameAll names es).isEmpty = es.isEmpty := by
  cases es <;> rfl

@[simp] theorem isEmpty_renameBindings (bs : List (Binding Expr)) :
    (renameBindings names bs).isEmpty = bs.isEmpty := by
  cases bs <;> rfl

theorem map_value_renameBindings (bs : List (Binding Expr)) :
    (renameBindings names bs).map Binding.value = renameAll names (bs.map Binding.value) := by
  induction bs with
  | nil => rfl
  | cons b bs ih => rw [renameBindings, List.map_cons, List.map_cons, renameAll, ih]

theorem map_name_renameBindings (bs : List (Binding Expr)) :
    (renameBindings names bs).map (·.member.name) = bs.map (·.member.name) := by
  induction bs with
  | nil => rfl
  | cons b bs ih => rw [renameBindings, List.map_cons, List.map_cons, ih]

@[simp] theorem isParameter_rename (e : Expr) : (rename names e).isParameter = e.isParameter := by
  unfold rename
  split <;> rfl

theorem rename_ne_constant {e : Expr} (h : ∀ v, e ≠ constant v) (v : Value) :
    rename names e ≠ constant v := by
  intro hv
  unfold rename at hv
  split at hv <;> simp_all

theorem evaluate_rename (e : Expr) : (rename names e).evaluate = e.evaluate := by
  fun_induction evaluate e with
  | case1 v => rfl
  | case2 target m ih => rw [rename, evaluate, ih]
  | case3 t operand ih => rw [rename, evaluate, ih]
  | case4 e hconstant hmember hconvert =>
    unfold rename
    split <;> simp_all [evaluate, kind]

@[simp] theorem captured_rename {ctx : Context} (closure : ctx.evaluate = evaluate) (e : Expr) :
    ctx.captured (rename names e) = ctx.captured e := by
  rw [Context.captured, Context.captured, closure, evaluate_rename]

theorem renameAll_id {es : List Expr} (h : ∀ e ∈ es, rename id e = e) : renameAll id es = es := by
  rw [renameAll_eq_map, List.map_congr_left h, List.map_id']

theorem renameBindings_id {bs : List (Binding Expr)}
    (h : ∀ e ∈ bs.map Binding.value, rename id e = e) : renameBindings id bs = bs := by
  induction bs with
  | nil => rfl
  | cons b bs ih =>
    rw [List.map_cons, List.forall_mem_cons] at h
    rw [renameBindings, h.1, ih h.2]

theorem rename_id (e : Expr) : rename id e = e := by
  induction e using children_induction with
  | step e ih =>
  cases e with
  | parameter name => rfl
  | member target m => rw [rename, ih target (by simp [children])]
  | index target args =>
    rw [rename, ih target (by simp [children]),
      renameAll_id fun e he => ih e (by simp [children, he])]
  | new base =>
    have hargs : renameAll id base.args = base.args := renameAll_id ih
    rw [rename, hargs]
  | memberInit base bindings =>
    rw [rename, renameAll_id fun e he => ih e (List.mem_append_right _ he),
      renameBindings_id fun e he => ih e (List.mem_append_left _ he)]
  | newArray items =>
    have hitems : renameAll id items = items := renameAll_id ih
    rw [rename, hitems]
  | constant v => rfl
  | binary op left right =>
    rw [rename, ih left (by simp [children]), ih right (by simp [children])]
  | unary op operand => rw [rename, ih operand (by simp [children])]
  | call target m args =>
    have hargs : renameAll id args = args := renameAll_id fun e he => ih e (by simp [children, he])
    cases target with
    | none => rw [rename, hargs]
    | some target => rw [rename, hargs, ih target (by simp [children])]
  | conditional test ifTrue ifFalse =>
    cases ifFalse with
    | none => rw [rename, ih test (by simp [children]), ih ifTrue (by simp [children])]
    | some ifFalse =>
      rw [rename, ih test (by simp [children]), ih ifTrue (by simp [children]),
        ih ifFalse (by simp [children])]
  | lambda params body => rw [rename, ih body (by simp [children])]
  | invoke target args =>
    rw [rename, ih target (by simp [children]),
      renameAll_id fun e he => ih e (by simp [children, he])]
  | typeIs operand type => rw [rename, ih operand (by simp [children])]

end LambdaScript.Expr
