import LambdaScript.Proofs.Expr.Nodes

/-! # Rebuilding expressions

A change that looks at one node is made at all nodes of an expression, from the leaves up. The
children of a rebuilt node are the rebuilt children, whichever of its lists they stand in.
-/

namespace LambdaScript.Expr

/-- The node with other children in place of its own. -/
def mapChildren (f : Expr → Expr) : Expr → Expr
  | parameter name => parameter name
  | member target m => member (f target) m
  | index target args => index (f target) (args.map f)
  | new base => new { base with args := base.args.map f }
  | memberInit base bindings =>
    memberInit { base with args := base.args.map f }
      (bindings.map fun b => { b with value := f b.value })
  | newArray items => newArray (items.map f)
  | constant v => constant v
  | binary op left right => binary op (f left) (f right)
  | unary op operand => unary op (f operand)
  | call target m args => call (target.map f) m (args.map f)
  | conditional test ifTrue ifFalse => conditional (f test) (f ifTrue) (ifFalse.map f)
  | lambda params body => lambda params (f body)
  | invoke target args => invoke (f target) (args.map f)
  | typeIs operand type => typeIs (f operand) type

theorem children_mapChildren (f : Expr → Expr) (e : Expr) :
    (e.mapChildren f).children = e.children.map f := by
  cases e with
  | call target m args => cases target <;> simp [mapChildren, children]
  | conditional test ifTrue ifFalse => cases ifFalse <;> simp [mapChildren, children]
  | _ => simp [mapChildren, children]

@[simp] theorem kind_mapChildren (f : Expr → Expr) (e : Expr) :
    (e.mapChildren f).kind = e.kind := by
  cases e <;> rfl

mutual

/-- The expression with a change made at every node, to the children before the node. -/
def rebuild (change : Expr → Expr) : Expr → Expr
  | parameter name => change (parameter name)
  | member target m => change (member (rebuild change target) m)
  | index target args => change (index (rebuild change target) (rebuildAll change args))
  | new ⟨type, members, args⟩ => change (new ⟨type, members, rebuildAll change args⟩)
  | memberInit ⟨type, members, args⟩ bindings =>
    change (memberInit ⟨type, members, rebuildAll change args⟩ (rebuildBindings change bindings))
  | newArray items => change (newArray (rebuildAll change items))
  | constant v => change (constant v)
  | binary op left right => change (binary op (rebuild change left) (rebuild change right))
  | unary op operand => change (unary op (rebuild change operand))
  | call none m args => change (call none m (rebuildAll change args))
  | call (some target) m args =>
    change (call (some (rebuild change target)) m (rebuildAll change args))
  | conditional test ifTrue none =>
    change (conditional (rebuild change test) (rebuild change ifTrue) none)
  | conditional test ifTrue (some ifFalse) =>
    change (conditional (rebuild change test) (rebuild change ifTrue)
      (some (rebuild change ifFalse)))
  | lambda params body => change (lambda params (rebuild change body))
  | invoke target args => change (invoke (rebuild change target) (rebuildAll change args))
  | typeIs operand type => change (typeIs (rebuild change operand) type)

def rebuildAll (change : Expr → Expr) : List Expr → List Expr
  | [] => []
  | e :: es => rebuild change e :: rebuildAll change es

def rebuildBindings (change : Expr → Expr) : List (Binding Expr) → List (Binding Expr)
  | [] => []
  | ⟨m, e⟩ :: bindings => ⟨m, rebuild change e⟩ :: rebuildBindings change bindings

end

variable {change : Expr → Expr}

theorem rebuildAll_eq_map (es : List Expr) : rebuildAll change es = es.map (rebuild change) := by
  induction es with
  | nil => rfl
  | cons e es ih => rw [rebuildAll, ih, List.map_cons]

theorem rebuildBindings_eq_map (bs : List (Binding Expr)) :
    rebuildBindings change bs = bs.map fun b => { b with value := rebuild change b.value } := by
  induction bs with
  | nil => rfl
  | cons b bs ih => rw [rebuildBindings, ih, List.map_cons]

/-- A rebuilt expression is the change of its node over the rebuilt children. -/
theorem rebuild_eq (e : Expr) : rebuild change e = change (e.mapChildren (rebuild change)) := by
  cases e with
  | call target m args =>
    cases target <;> simp only [rebuild, rebuildAll_eq_map, mapChildren, Option.map]
  | conditional test ifTrue ifFalse =>
    cases ifFalse <;> simp only [rebuild, mapChildren, Option.map]
  | _ => simp only [rebuild, rebuildAll_eq_map, rebuildBindings_eq_map, mapChildren]

end LambdaScript.Expr
