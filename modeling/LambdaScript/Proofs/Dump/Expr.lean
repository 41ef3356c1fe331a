import LambdaScript.Dump.Expr
import LambdaScript.Proofs.Dump.Value
import LambdaScript.Proofs.Expr.Nodes

/-! # Dumps of expressions

The dump of an expression is the text of a tree, and expressions are told apart by their dumps if
the values of their constants are.
-/

namespace LambdaScript
open Dump (Tree)

namespace Construction
variable {α : Type}

def tree (base : Construction Tree) : Tree :=
  .node "NewObject"
    [("ty", base.type.tree), ("members", .list (base.members.map .quoted)),
      ("args", .list base.args)]

theorem text_tree (base : Construction Tree) :
    base.tree.text = Expr.constructionDump base.type base.members (base.args.map Tree.text) := by
  simp [tree, Expr.constructionDump, Tree.text, Tree.textParts, Tree.textItems_eq_map,
    TypeName.faithful.text, Dump.strings, Function.comp_def]

theorem proper_tree {base : Construction Tree} (h : ∀ t ∈ base.args, t.Proper) :
    base.tree.Proper := by
  have hmembers : ∀ t ∈ base.members.map Tree.quoted, t.Proper :=
    List.forall_mem_map.mpr fun s _ => .quoted s
  exact .node (by simp [TypeName.faithful.proper, Tree.Proper.list hmembers, Tree.Proper.list h])

theorem tree_injective : Function.Injective tree := by
  intro base base' h
  simp only [tree, Tree.node.injEq, List.cons.injEq, Prod.mk.injEq, Tree.list.injEq,
    true_and, and_true] at h
  obtain ⟨htype, hmembers, hargs⟩ := h
  cases base
  cases base'
  congr
  · exact TypeName.faithful.injective htype
  · exact List.map_injective_iff.mpr (fun s s' hs => Tree.quoted.inj hs) hmembers

end Construction

namespace Binding

def tree (b : Binding Tree) : Tree :=
  .node "MemberBinding" [("member", b.member.tree), ("value", b.value)]

theorem proper_tree {b : Binding Tree} (h : b.value.Proper) : b.tree.Proper :=
  .node (by simp [Member.faithful.proper, h])

end Binding

namespace Expr

mutual

def tree : Expr → Tree
  | parameter name => .wrap "Parameter" (.quoted name)
  | member target m => .node "Member" [("target", tree target), ("member", m.tree)]
  | index target args => .node "Index" [("target", tree target), ("args", .list (trees args))]
  | new ⟨type, members, args⟩ => .wrap "New" (Construction.tree ⟨type, members, trees args⟩)
  | memberInit ⟨type, members, args⟩ bindings =>
    .node "MemberInit"
      [("new", Construction.tree ⟨type, members, trees args⟩),
        ("bindings", .list (treeBindings bindings))]
  | newArray items => .wrap "NewArray" (.list (trees items))
  | constant v => .wrap "Constant" v.tree
  | binary op left right =>
    .node "Binary" [("op", .word op.dump), ("left", tree left), ("right", tree right)]
  | unary op operand => .node "Unary" [("op", op.tree), ("operand", tree operand)]
  | call target m args =>
    .node "Call"
      [("target", .option (treeOption target)), ("method", m.tree), ("args", .list (trees args))]
  | conditional test ifTrue ifFalse =>
    .node "Conditional"
      [("test", tree test), ("if_true", tree ifTrue), ("if_false", .option (treeOption ifFalse))]
  | lambda params body =>
    .wrap "Lambda"
      (.node "Lambda" [("params", .list (params.map .quoted)), ("body", tree body)])
  | invoke target args => .node "Invoke" [("target", tree target), ("args", .list (trees args))]
  | typeIs operand t => .node "TypeIs" [("operand", tree operand), ("ty", t.tree)]

def trees : List Expr → List Tree
  | [] => []
  | e :: es => tree e :: trees es

def treeOption : Option Expr → Option Tree
  | none => none
  | some e => some (tree e)

def treeBindings : List (Binding Expr) → List Tree
  | [] => []
  | ⟨m, e⟩ :: bindings => Binding.tree ⟨m, tree e⟩ :: treeBindings bindings

end

theorem trees_eq_map (es : List Expr) : trees es = es.map tree := by
  induction es with
  | nil => rfl
  | cons e es ih => rw [trees, ih, List.map_cons]

theorem treeBindings_eq_map (bindings : List (Binding Expr)) :
    treeBindings bindings = bindings.map fun b => Binding.tree ⟨b.member, b.value.tree⟩ := by
  induction bindings with
  | nil => rfl
  | cons b bindings ih => rw [treeBindings, ih, List.map_cons]

theorem dumpAll_eq_map (es : List Expr) : dumpAll es = es.map dump := by
  induction es with
  | nil => rfl
  | cons e es ih => rw [dumpAll, ih, List.map_cons]

theorem text_trees {es : List Expr} (h : ∀ e ∈ es, e.tree.text = e.dump) :
    Tree.textItems (trees es) = dumpAll es := by
  rw [Tree.textItems_eq_map, trees_eq_map, dumpAll_eq_map, List.map_map]
  exact List.map_congr_left h

theorem text_treeOption {e : Option Expr} (h : ∀ c, e = some c → c.tree.text = c.dump) :
    (Tree.option (treeOption e)).text = Dump.option (dumpOption e) := by
  cases e with
  | none => rfl
  | some c => exact congrArg (Dump.wrap "Some") (h c rfl)

theorem text_treeBindings {bindings : List (Binding Expr)}
    (h : ∀ e ∈ bindings.map Binding.value, e.tree.text = e.dump) :
    Tree.textItems (treeBindings bindings) = dumpBindings bindings := by
  induction bindings with
  | nil => rfl
  | cons b bindings ih =>
    rw [List.map_cons, List.forall_mem_cons] at h
    rw [treeBindings, Tree.textItems, dumpBindings, ih h.2]
    simp [Binding.tree, Tree.text, Tree.textParts, Member.faithful.text, h.1]

theorem text_tree (e : Expr) : e.tree.text = e.dump := by
  induction e using children_induction with
  | step e ih =>
  cases e with
  | parameter name => rfl
  | member target m =>
    simp only [tree, dump, Tree.text, Tree.textParts, Member.faithful.text,
      ih target List.mem_cons_self]
  | index target args =>
    have hargs := text_trees fun e he => ih e (List.mem_cons_of_mem target he)
    simp only [tree, dump, Tree.text, Tree.textParts, hargs, ih target List.mem_cons_self]
  | new base =>
    have hargs : Tree.textItems (trees base.args) = dumpAll base.args := text_trees ih
    simp only [tree, dump, Tree.text, Construction.text_tree, ← Tree.textItems_eq_map, hargs]
  | memberInit base bindings =>
    have hargs := text_trees fun e he => ih e (List.mem_append_right _ he)
    have hbindings := text_treeBindings fun e he => ih e (List.mem_append_left _ he)
    simp only [tree, dump, Tree.text, Tree.textParts, Construction.text_tree,
      ← Tree.textItems_eq_map, hargs, hbindings]
  | newArray items =>
    have hitems : Tree.textItems (trees items) = dumpAll items := text_trees ih
    simp only [tree, dump, Tree.text, hitems]
  | constant v => simp only [tree, dump, Tree.text, Value.text_tree]
  | binary op left right =>
    have hright := ih right (List.mem_cons_of_mem left List.mem_cons_self)
    simp only [tree, dump, Tree.text, Tree.textParts, hright, ih left List.mem_cons_self]
  | unary op operand =>
    simp only [tree, dump, Tree.text, Tree.textParts, UnaryOp.faithful.text,
      ih operand List.mem_cons_self]
  | call target m args =>
    have htarget := text_treeOption fun e (he : target = some e) =>
      ih e (List.mem_append_left _ (Option.mem_toList.mpr he))
    have hargs := text_trees fun e he => ih e (List.mem_append_right _ he)
    simp only [tree, dump, Tree.text, Tree.textParts, Method.faithful.text, htarget, hargs]
  | conditional test ifTrue ifFalse =>
    have htrue := ih ifTrue (List.mem_cons_of_mem test List.mem_cons_self)
    have hfalse := text_treeOption fun e (he : ifFalse = some e) =>
      ih e (List.mem_cons_of_mem _ (List.mem_cons_of_mem _ (Option.mem_toList.mpr he)))
    simp only [tree, dump, Tree.text, Tree.textParts, htrue, hfalse, ih test List.mem_cons_self]
  | lambda params body =>
    have hparams : Tree.textItems (params.map .quoted) = params.map Text.quoted := by
      rw [Tree.textItems_eq_map, List.map_map]
      rfl
    simp only [tree, dump, Tree.text, Tree.textParts, lambdaDump, Dump.strings, hparams,
      ih body List.mem_cons_self]
  | invoke target args =>
    have hargs := text_trees fun e he => ih e (List.mem_cons_of_mem target he)
    simp only [tree, dump, Tree.text, Tree.textParts, hargs, ih target List.mem_cons_self]
  | typeIs operand t =>
    simp only [tree, dump, Tree.text, Tree.textParts, TypeName.faithful.text,
      ih operand List.mem_cons_self]

theorem proper_tree (e : Expr) : e.tree.Proper := by
  induction e using children_induction with
  | step e ih =>
  have hlist {es : List Expr} (hes : ∀ c ∈ es, c.tree.Proper) : (Tree.list (trees es)).Proper := by
    rw [trees_eq_map]
    exact .list (List.forall_mem_map.mpr hes)
  have hoption {c : Option Expr} (hc : ∀ c' ∈ c.toList, c'.tree.Proper) :
      (Tree.option (treeOption c)).Proper := by
    apply Tree.Proper.option
    cases c with
    | none => nofun
    | some c =>
      rintro t ⟨⟩
      exact hc c (Option.mem_toList.mpr rfl)
  have hconstruction {base : Construction Expr} (hargs : ∀ c ∈ base.args, c.tree.Proper) :
      (Construction.tree ⟨base.type, base.members, trees base.args⟩).Proper := by
    apply Construction.proper_tree
    rw [trees_eq_map]
    exact List.forall_mem_map.mpr hargs
  cases e with
  | parameter name => exact .wrap (.quoted name)
  | member target m =>
    exact .node (by simp [Member.faithful.proper, ih target List.mem_cons_self])
  | index target args =>
    have hargs := hlist fun e he => ih e (List.mem_cons_of_mem target he)
    exact .node (by simp [hargs, ih target List.mem_cons_self])
  | new base => exact .wrap (hconstruction ih)
  | memberInit base bindings =>
    have hargs := hconstruction fun e he => ih e (List.mem_append_right _ he)
    have hbindings : (Tree.list (treeBindings bindings)).Proper := by
      rw [treeBindings_eq_map]
      apply Tree.Proper.list
      rw [List.forall_mem_map]
      exact fun b hb =>
        Binding.proper_tree (ih b.value (List.mem_append_left _ (List.mem_map_of_mem hb)))
    exact .node (by simp [hargs, hbindings])
  | newArray items => exact .wrap (hlist ih)
  | constant v => exact .wrap v.proper_tree
  | binary op left right =>
    have hright := ih right (List.mem_cons_of_mem left List.mem_cons_self)
    exact .node (by simp [BinaryOp.faithful.proper, ih left List.mem_cons_self, hright])
  | unary op operand =>
    exact .node (by simp [UnaryOp.faithful.proper, ih operand List.mem_cons_self])
  | call target m args =>
    have htarget := hoption fun e he => ih e (List.mem_append_left _ he)
    have hargs := hlist fun e he => ih e (List.mem_append_right _ he)
    exact .node (by simp [Method.faithful.proper, htarget, hargs])
  | conditional test ifTrue ifFalse =>
    have htrue := ih ifTrue (List.mem_cons_of_mem test List.mem_cons_self)
    have hfalse := hoption fun e he => ih e (List.mem_cons_of_mem _ (List.mem_cons_of_mem _ he))
    exact .node (by simp [ih test List.mem_cons_self, htrue, hfalse])
  | lambda params body =>
    have hparams : (Tree.list (params.map .quoted)).Proper :=
      .list (List.forall_mem_map.mpr fun s _ => .quoted s)
    exact .wrap (.node (by simp [hparams, ih body List.mem_cons_self]))
  | invoke target args =>
    have hargs := hlist fun e he => ih e (List.mem_cons_of_mem target he)
    exact .node (by simp [hargs, ih target List.mem_cons_self])
  | typeIs operand t =>
    exact .node (by simp [TypeName.faithful.proper, ih operand List.mem_cons_self])

/-- The values of all constants in an expression are plain. -/
def Plain (e : Expr) : Prop := ∀ v, Occurs (constant v) e → v.Plain

theorem Plain.child {c e : Expr} (h : e.Plain) (hc : c ∈ e.children) : c.Plain :=
  fun v hv => h v (.child hc hv)

/-- Expressions of two lists are told apart by their trees. -/
def Apart (es es' : List Expr) : Prop := ∀ c ∈ es, ∀ c' ∈ es', c.tree = c'.tree → c = c'

namespace Apart
variable {c c' : Expr} {as as' es es' : List Expr}

theorem head (h : Apart (c :: es) (c' :: es')) (heq : c.tree = c'.tree) : c = c' :=
  h c List.mem_cons_self c' List.mem_cons_self heq

theorem tail (h : Apart (c :: es) (c' :: es')) : Apart es es' :=
  fun e he e' he' => h e (List.mem_cons_of_mem c he) e' (List.mem_cons_of_mem c' he')

theorem front (h : Apart (as ++ es) (as' ++ es')) : Apart as as' :=
  fun e he e' he' => h e (List.mem_append_left es he) e' (List.mem_append_left es' he')

theorem back (h : Apart (as ++ es) (as' ++ es')) : Apart es es' :=
  fun e he e' he' => h e (List.mem_append_right as he) e' (List.mem_append_right as' he')

theorem eq_of_trees (apart : Apart es es') (h : trees es = trees es') : es = es' := by
  rw [trees_eq_map, trees_eq_map] at h
  exact Dump.eq_of_map_eq apart h

theorem eq_of_treeOption {e e' : Option Expr} (apart : Apart e.toList e'.toList)
    (h : Tree.option (treeOption e) = Tree.option (treeOption e')) : e = e' := by
  have heq := Tree.option_injective h
  cases e with
  | none =>
    cases e' with
    | none => rfl
    | some c' => cases heq
  | some c =>
    cases e' with
    | none => cases heq
    | some c' => exact congrArg some (apart.head (Option.some_inj.mp heq))

theorem eq_of_construction {base base' : Construction Expr} (apart : Apart base.args base'.args)
    (h : Construction.tree ⟨base.type, base.members, trees base.args⟩ =
      Construction.tree ⟨base'.type, base'.members, trees base'.args⟩) : base = base' := by
  have heq := Construction.tree_injective h
  rw [Construction.mk.injEq] at heq
  obtain ⟨htype, hmembers, hargs⟩ := heq
  cases base
  cases base'
  congr
  exact apart.eq_of_trees hargs

theorem eq_of_treeBindings {bindings bindings' : List (Binding Expr)}
    (apart : Apart (bindings.map Binding.value) (bindings'.map Binding.value))
    (h : treeBindings bindings = treeBindings bindings') : bindings = bindings' := by
  rw [treeBindings_eq_map, treeBindings_eq_map] at h
  apply Dump.eq_of_map_eq _ h
  intro b hb b' hb' heq
  simp only [Binding.tree, Tree.node.injEq, List.cons.injEq, Prod.mk.injEq, true_and,
    and_true] at heq
  obtain ⟨hmember, hvalue⟩ := heq
  have hsame := apart _ (List.mem_map_of_mem hb) _ (List.mem_map_of_mem hb') hvalue
  cases b
  cases b'
  congr
  exact Member.faithful.injective hmember

end Apart

/-- Expressions with plain constants are told apart by their trees. -/
theorem eq_of_tree {e e' : Expr} (he : e.Plain) (he' : e'.Plain) (h : e.tree = e'.tree) :
    e = e' := by
  induction e using children_induction generalizing e' with
  | step e ih =>
  -- of two nodes of one kind, the lists that the children stand in match
  have apart : Apart e.children e'.children :=
    fun c hc c' hc' => ih c hc (he.child hc) (he'.child hc')
  cases e with
  | parameter name =>
    cases e' with
    | parameter name' => rw [Tree.quoted.inj (Tree.wrap.inj h).2]
    | _ => simp [tree] at h
  | member target m =>
    cases e' with
    | member target' m' =>
      simp only [tree, Tree.node.injEq, List.cons.injEq, Prod.mk.injEq, true_and, and_true] at h
      obtain ⟨htarget, hm⟩ := h
      rw [apart.head htarget, Member.faithful.injective hm]
    | _ => simp [tree] at h
  | index target args =>
    cases e' with
    | index target' args' =>
      simp only [tree, Tree.node.injEq, List.cons.injEq, Prod.mk.injEq, Tree.list.injEq,
        true_and, and_true] at h
      obtain ⟨htarget, hargs⟩ := h
      rw [apart.head htarget, apart.tail.eq_of_trees hargs]
    | _ => simp [tree] at h
  | new base =>
    cases e' with
    | new base' => exact congrArg new (apart.eq_of_construction (Tree.wrap.inj h).2)
    | _ => simp [tree] at h
  | memberInit base bindings =>
    cases e' with
    | memberInit base' bindings' =>
      simp only [tree, Tree.node.injEq, List.cons.injEq, Prod.mk.injEq, Tree.list.injEq,
        true_and, and_true] at h
      obtain ⟨hbase, hbindings⟩ := h
      rw [apart.back.eq_of_construction hbase, apart.front.eq_of_treeBindings hbindings]
    | _ => simp [tree] at h
  | newArray items =>
    cases e' with
    | newArray items' =>
      exact congrArg newArray (apart.eq_of_trees (Tree.list.inj (Tree.wrap.inj h).2))
    | _ => simp [tree] at h
  | constant v =>
    cases e' with
    | constant v' => rw [Value.eq_of_tree (he v .self) (he' v' .self) (Tree.wrap.inj h).2]
    | _ => simp [tree] at h
  | binary op left right =>
    cases e' with
    | binary op' left' right' =>
      simp only [tree, Tree.node.injEq, List.cons.injEq, Prod.mk.injEq, true_and, and_true] at h
      obtain ⟨hop, hleft, hright⟩ := h
      rw [BinaryOp.faithful.injective hop, apart.head hleft, apart.tail.head hright]
    | _ => simp [tree] at h
  | unary op operand =>
    cases e' with
    | unary op' operand' =>
      simp only [tree, Tree.node.injEq, List.cons.injEq, Prod.mk.injEq, true_and, and_true] at h
      obtain ⟨hop, hoperand⟩ := h
      rw [UnaryOp.faithful.injective hop, apart.head hoperand]
    | _ => simp [tree] at h
  | call target m args =>
    cases e' with
    | call target' m' args' =>
      simp only [tree, Tree.node.injEq, List.cons.injEq, Prod.mk.injEq, Tree.list.injEq,
        true_and, and_true] at h
      obtain ⟨htarget, hm, hargs⟩ := h
      rw [apart.front.eq_of_treeOption htarget, Method.faithful.injective hm,
        apart.back.eq_of_trees hargs]
    | _ => simp [tree] at h
  | conditional test ifTrue ifFalse =>
    cases e' with
    | conditional test' ifTrue' ifFalse' =>
      simp only [tree, Tree.node.injEq, List.cons.injEq, Prod.mk.injEq, true_and, and_true] at h
      obtain ⟨htest, htrue, hfalse⟩ := h
      rw [apart.head htest, apart.tail.head htrue, apart.tail.tail.eq_of_treeOption hfalse]
    | _ => simp [tree] at h
  | lambda params body =>
    cases e' with
    | lambda params' body' =>
      simp only [tree, Tree.wrap.injEq, Tree.node.injEq, List.cons.injEq, Prod.mk.injEq,
        Tree.list.injEq, true_and, and_true] at h
      obtain ⟨hparams, hbody⟩ := h
      rw [List.map_injective_iff.mpr (fun s s' hs => Tree.quoted.inj hs) hparams,
        apart.head hbody]
    | _ => simp [tree] at h
  | invoke target args =>
    cases e' with
    | invoke target' args' =>
      simp only [tree, Tree.node.injEq, List.cons.injEq, Prod.mk.injEq, Tree.list.injEq,
        true_and, and_true] at h
      obtain ⟨htarget, hargs⟩ := h
      rw [apart.head htarget, apart.tail.eq_of_trees hargs]
    | _ => simp [tree] at h
  | typeIs operand t =>
    cases e' with
    | typeIs operand' t' =>
      simp only [tree, Tree.node.injEq, List.cons.injEq, Prod.mk.injEq, true_and, and_true] at h
      obtain ⟨hoperand, ht⟩ := h
      rw [apart.head hoperand, TypeName.faithful.injective ht]
    | _ => simp [tree] at h

/-- Expressions with plain constants are told apart by their dumps. -/
theorem eq_of_dump {e e' : Expr} (he : e.Plain) (he' : e'.Plain) (h : e.dump = e'.dump) :
    e = e' := by
  apply eq_of_tree he he'
  apply Tree.text_injective e.proper_tree e'.proper_tree
  rw [text_tree, text_tree, h]

end Expr

/-- Lambdas with plain constants are told apart by their dumps. -/
theorem Lambda.eq_of_dump {f g : Lambda} (hf : f.body.Plain) (hg : g.body.Plain)
    (h : f.dump = g.dump) : f = g := by
  have hplain {params : List String} {body : Expr} (hbody : body.Plain) :
      (Expr.lambda params body).Plain := by
    intro v hv
    cases hv with
    | child mem inner =>
      cases List.mem_singleton.mp mem
      exact hbody v inner
  have heq := Expr.eq_of_dump (hplain hf) (hplain hg) (congrArg (Dump.wrap "Lambda") h)
  cases f
  cases g
  cases heq
  rfl

end LambdaScript
