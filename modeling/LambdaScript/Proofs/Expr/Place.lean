import LambdaScript.Proofs.Expr.Nodes

/-! # Places in expressions

A place is an expression with a hole: the frames from the root down to the hole, each a node with
one child missing. The expressions that occur in an expression are those that it has at some place,
so what is said for every place is said for every position, also below nodes that have no script.
-/

namespace LambdaScript.Expr

/-- A node with one child missing. In a list, the children before and after it stay. -/
inductive Frame where
  | member (m : Member)
  | indexTarget (args : List Expr)
  | indexArg (target : Expr) (before after : List Expr)
  | newArg (type : TypeName) (members : List String) (before after : List Expr)
  | initArg (type : TypeName) (members : List String) (before after : List Expr)
      (bindings : List (Binding Expr))
  | initBinding (base : Construction Expr) (before : List (Binding Expr)) (m : Member)
      (after : List (Binding Expr))
  | item (before after : List Expr)
  | left (op : BinaryOp) (right : Expr)
  | right (op : BinaryOp) (left : Expr)
  | unary (op : UnaryOp)
  | callTarget (method : Method) (args : List Expr)
  | callArg (target : Option Expr) (method : Method) (before after : List Expr)
  | test (ifTrue : Expr) (ifFalse : Option Expr)
  | ifTrue (test : Expr) (ifFalse : Option Expr)
  | ifFalse (test ifTrue : Expr)
  | lambda (params : List String)
  | invokeTarget (args : List Expr)
  | invokeArg (target : Expr) (before after : List Expr)
  | typeIs (type : TypeName)

def Frame.fill : Frame → Expr → Expr
  | .member m, e => .member e m
  | .indexTarget args, e => .index e args
  | .indexArg target before after, e => .index target (before ++ e :: after)
  | .newArg type members before after, e => .new ⟨type, members, before ++ e :: after⟩
  | .initArg type members before after bindings, e =>
    .memberInit ⟨type, members, before ++ e :: after⟩ bindings
  | .initBinding base before m after, e => .memberInit base (before ++ ⟨m, e⟩ :: after)
  | .item before after, e => .newArray (before ++ e :: after)
  | .left op r, e => .binary op e r
  | .right op l, e => .binary op l e
  | .unary op, e => .unary op e
  | .callTarget method args, e => .call (some e) method args
  | .callArg target method before after, e => .call target method (before ++ e :: after)
  | .test a b, e => .conditional e a b
  | .ifTrue c b, e => .conditional c e b
  | .ifFalse c a, e => .conditional c a (some e)
  | .lambda params, e => .lambda params e
  | .invokeTarget args, e => .invoke e args
  | .invokeArg target before after, e => .invoke target (before ++ e :: after)
  | .typeIs type, e => .typeIs e type

/-- The expression that has `e` at a place, which is given from the root down. -/
def plug (place : List Frame) (e : Expr) : Expr := place.foldr Frame.fill e

theorem Frame.mem_children_fill (frame : Frame) (e : Expr) : e ∈ (frame.fill e).children := by
  cases frame <;> simp [fill, children]

theorem exists_fill_of_mem_children {c e : Expr} (h : c ∈ e.children) :
    ∃ frame : Frame, e = frame.fill c := by
  cases e with
  | parameter name => simp [children] at h
  | member target m =>
    simp only [children, List.mem_singleton] at h
    exact ⟨.member m, by rw [h]; rfl⟩
  | index target args =>
    rcases List.mem_cons.mp h with rfl | h
    · exact ⟨.indexTarget args, rfl⟩
    · obtain ⟨before, after, rfl⟩ := List.append_of_mem h
      exact ⟨.indexArg target before after, rfl⟩
  | new base =>
    obtain ⟨type, members, args⟩ := base
    obtain ⟨before, after, rfl⟩ := List.append_of_mem (show c ∈ args from h)
    exact ⟨.newArg type members before after, rfl⟩
  | memberInit base bindings =>
    rcases List.mem_append.mp h with h | h
    · obtain ⟨⟨m, value⟩, hb, rfl⟩ := List.mem_map.mp h
      obtain ⟨before, after, rfl⟩ := List.append_of_mem hb
      exact ⟨.initBinding base before m after, rfl⟩
    · obtain ⟨type, members, args⟩ := base
      obtain ⟨before, after, rfl⟩ := List.append_of_mem (show c ∈ args from h)
      exact ⟨.initArg type members before after bindings, rfl⟩
  | newArray items =>
    obtain ⟨before, after, rfl⟩ := List.append_of_mem (show c ∈ items from h)
    exact ⟨.item before after, rfl⟩
  | constant v => simp [children] at h
  | binary op left right =>
    simp only [children, List.mem_cons, List.not_mem_nil, or_false] at h
    rcases h with rfl | rfl
    · exact ⟨.left op right, rfl⟩
    · exact ⟨.right op left, rfl⟩
  | unary op operand =>
    simp only [children, List.mem_singleton] at h
    exact ⟨.unary op, by rw [h]; rfl⟩
  | call target m args =>
    rcases List.mem_append.mp h with h | h
    · rw [Option.mem_toList] at h
      exact ⟨.callTarget m args, by rw [h]; rfl⟩
    · obtain ⟨before, after, rfl⟩ := List.append_of_mem h
      exact ⟨.callArg target m before after, rfl⟩
  | conditional test ifTrue ifFalse =>
    simp only [children, List.mem_cons, Option.mem_toList] at h
    rcases h with rfl | rfl | rfl
    · exact ⟨.test ifTrue ifFalse, rfl⟩
    · exact ⟨.ifTrue test ifFalse, rfl⟩
    · exact ⟨.ifFalse test ifTrue, rfl⟩
  | lambda params body =>
    simp only [children, List.mem_singleton] at h
    exact ⟨.lambda params, by rw [h]; rfl⟩
  | invoke target args =>
    rcases List.mem_cons.mp h with rfl | h
    · exact ⟨.invokeTarget args, rfl⟩
    · obtain ⟨before, after, rfl⟩ := List.append_of_mem h
      exact ⟨.invokeArg target before after, rfl⟩
  | typeIs operand type =>
    simp only [children, List.mem_singleton] at h
    exact ⟨.typeIs type, by rw [h]; rfl⟩

/-- What occurs in an expression stands at one of its places, and the other way round. -/
theorem occurs_iff_exists_plug {x e : Expr} : Occurs x e ↔ ∃ place, e = plug place x := by
  constructor
  · intro h
    induction h with
    | self => exact ⟨[], rfl⟩
    | child mem _ ih =>
      obtain ⟨place, rfl⟩ := ih
      obtain ⟨frame, rfl⟩ := exists_fill_of_mem_children mem
      exact ⟨frame :: place, rfl⟩
  · rintro ⟨place, rfl⟩
    induction place with
    | nil => exact .self
    | cons frame place ih => exact .child (frame.mem_children_fill _) ih

end LambdaScript.Expr
