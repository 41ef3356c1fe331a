import LambdaScript.Expr

/-! # Nodes of expressions

The nodes of an expression are the expression itself and the nodes of its children. Children are
listed in the order in which they are written, so that a statement about all nodes is proved from
the children to the node, whichever of the lists of a node a child stands in.
-/

namespace LambdaScript.Expr

/-- The direct subexpressions: targets before arguments, bindings before base arguments. -/
def children : Expr → List Expr
  | parameter _ => []
  | member target _ => [target]
  | index target args => target :: args
  | new base => base.args
  | memberInit base bindings => bindings.map Binding.value ++ base.args
  | newArray items => items
  | constant _ => []
  | binary _ left right => [left, right]
  | unary _ operand => [operand]
  | call target _ args => target.toList ++ args
  | conditional test ifTrue ifFalse => test :: ifTrue :: ifFalse.toList
  | lambda _ body => [body]
  | invoke target args => target :: args
  | typeIs operand _ => [operand]

theorem sizeOf_lt_of_mem_children {c e : Expr} (h : c ∈ e.children) : sizeOf c < sizeOf e := by
  cases e with
  | parameter name => simp [children] at h
  | member target m =>
    simp only [children, List.mem_singleton] at h
    subst h
    simp only [member.sizeOf_spec]
    omega
  | index target args =>
    rcases List.mem_cons.mp h with rfl | h
    · simp only [index.sizeOf_spec]
      omega
    · have := List.sizeOf_lt_of_mem h
      simp only [index.sizeOf_spec]
      omega
  | new base =>
    rcases base with ⟨type, members, args⟩
    have := List.sizeOf_lt_of_mem (show c ∈ args from h)
    simp only [new.sizeOf_spec, Construction.mk.sizeOf_spec]
    omega
  | memberInit base bindings =>
    rcases base with ⟨type, members, args⟩
    simp only [memberInit.sizeOf_spec, Construction.mk.sizeOf_spec]
    rcases List.mem_append.mp h with h | h
    · obtain ⟨⟨m, value⟩, hb, rfl⟩ := List.mem_map.mp h
      have := List.sizeOf_lt_of_mem hb
      simp only [Binding.mk.sizeOf_spec] at this ⊢
      omega
    · have := List.sizeOf_lt_of_mem (show c ∈ args from h)
      omega
  | newArray items =>
    have := List.sizeOf_lt_of_mem (show c ∈ items from h)
    simp only [newArray.sizeOf_spec]
    omega
  | constant v => simp [children] at h
  | binary op left right =>
    simp only [children, List.mem_cons, List.not_mem_nil, or_false] at h
    rcases h with rfl | rfl <;> simp only [binary.sizeOf_spec] <;> omega
  | unary op operand =>
    simp only [children, List.mem_singleton] at h
    subst h
    simp only [unary.sizeOf_spec]
    omega
  | call target m args =>
    simp only [call.sizeOf_spec]
    rcases List.mem_append.mp h with h | h
    · rw [Option.mem_toList] at h
      subst h
      simp only [Option.some.sizeOf_spec]
      omega
    · have := List.sizeOf_lt_of_mem h
      omega
  | conditional test ifTrue ifFalse =>
    simp only [children, List.mem_cons, Option.mem_toList] at h
    simp only [conditional.sizeOf_spec]
    rcases h with rfl | rfl | rfl
    · omega
    · omega
    · simp only [Option.some.sizeOf_spec]
      omega
  | lambda params body =>
    simp only [children, List.mem_singleton] at h
    subst h
    simp only [lambda.sizeOf_spec]
    omega
  | invoke target args =>
    rcases List.mem_cons.mp h with rfl | h
    · simp only [invoke.sizeOf_spec]
      omega
    · have := List.sizeOf_lt_of_mem h
      simp only [invoke.sizeOf_spec]
      omega
  | typeIs operand type =>
    simp only [children, List.mem_singleton] at h
    subst h
    simp only [typeIs.sizeOf_spec]
    omega

/-- What holds of an expression whenever it holds of its children holds of all expressions. -/
@[elab_as_elim]
theorem children_induction {P : Expr → Prop} (step : ∀ e, (∀ c ∈ e.children, P c) → P e)
    (e : Expr) : P e :=
  step e fun c _ => children_induction step c
termination_by sizeOf e
decreasing_by exact sizeOf_lt_of_mem_children ‹_›

/-- `x` is a node of an expression. -/
inductive Occurs (x : Expr) : Expr → Prop
  | self : Occurs x x
  | child {c e : Expr} (mem : c ∈ e.children) (inner : Occurs x c) : Occurs x e

theorem Occurs.trans {x y z : Expr} (hx : Occurs x y) (hy : Occurs y z) : Occurs x z := by
  induction hy with
  | self => exact hx
  | child mem _ ih => exact .child mem ih

/-- The parameter of a given name under any number of conversions. -/
inductive ConvertedParameter (name : String) : Expr → Prop
  | bare : ConvertedParameter name (parameter name)
  | convert {e : Expr} (type : CastType) (inner : ConvertedParameter name e) :
      ConvertedParameter name (unary (.convert type) e)

def IsConvertedParameter (e : Expr) : Prop := ∃ name, ConvertedParameter name e

theorem ConvertedParameter.occurs {name : String} {e : Expr} (h : ConvertedParameter name e) :
    Occurs (parameter name) e := by
  induction h with
  | bare => exact .self
  | convert type _ ih => exact .child (by simp [children]) ih

end LambdaScript.Expr
