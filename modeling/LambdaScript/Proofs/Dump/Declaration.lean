import LambdaScript.Dump.Declaration
import LambdaScript.Proofs.Dump.Tree
import Mathlib.Data.List.Nodup

/-! # Dumps of declarations and operators

The dump of a type, a member, a method, a conversion target or an operator is the text of a tree,
and different ones have different trees.
-/

namespace LambdaScript
open Dump (Tree Faithful)

namespace TypeName

def tree (t : TypeName) : Tree := .node "TypeRef" [("name", .quoted t.text)]

theorem faithful : Faithful dump tree := by
  constructor
  · exact fun t => rfl
  · exact fun t => .node (by simp [Tree.Proper.quoted])
  · intro t u h
    cases t
    cases u
    simpa [tree] using h

end TypeName

namespace MemberKind

theorem faithful : Faithful dump fun k => .word k.dump := by
  constructor
  · exact fun k => rfl
  · intro k
    cases k with
    | field => exact .word
    | property => exact .word
  · intro k l h
    cases k <;> cases l <;> simp [dump] at h ⊢

end MemberKind

namespace Member

def tree (m : Member) : Tree :=
  .node "MemberRef"
    [("declaring_type", m.owner.tree), ("name", .quoted m.name), ("kind", .word m.kind.dump)]

theorem faithful : Faithful dump tree := by
  constructor
  · exact fun m => rfl
  · exact fun m => .node
      (by simp [Tree.Proper.quoted, TypeName.faithful.proper, MemberKind.faithful.proper])
  · intro m n h
    simp only [tree, Tree.node.injEq, List.cons.injEq, Prod.mk.injEq, Tree.quoted.injEq,
      true_and, and_true] at h
    obtain ⟨howner, hname, hkind⟩ := h
    cases m
    cases n
    congr
    · exact TypeName.faithful.injective howner
    · exact MemberKind.faithful.injective hkind

end Member

namespace Method

def tree (m : Method) : Tree :=
  .node "MethodRef" [("declaring_type", m.owner.tree), ("name", .quoted m.name)]

theorem faithful : Faithful dump tree := by
  constructor
  · exact fun m => rfl
  · exact fun m => .node (by simp [Tree.Proper.quoted, TypeName.faithful.proper])
  · intro m n h
    simp only [tree, Tree.node.injEq, List.cons.injEq, Prod.mk.injEq, Tree.quoted.injEq,
      true_and, and_true] at h
    obtain ⟨howner, hname⟩ := h
    cases m
    cases n
    congr
    exact TypeName.faithful.injective howner

end Method

namespace CastType

def tree : CastType → Tree
  | enumeration t => .wrap "Enum" t.tree
  | nullable t => .wrap "Nullable" (tree t)
  | array t => .wrap "Array" (tree t)
  | object t => .wrap "Object" t.tree
  | t => .word t.dump

theorem faithful : Faithful dump tree := by
  constructor
  · intro t
    induction t with
    | nullable t ih => rw [tree, Tree.text, ih, dump]
    | array t ih => rw [tree, Tree.text, ih, dump]
    | _ => rfl
  · intro t
    induction t with
    | enumeration t => exact .wrap (TypeName.faithful.proper t)
    | nullable t ih => exact .wrap ih
    | array t ih => exact .wrap ih
    | object t => exact .wrap (TypeName.faithful.proper t)
    | _ => exact .word
  · intro t u h
    induction t generalizing u with
    | enumeration t =>
      cases u with
      | enumeration u => rw [TypeName.faithful.injective (Tree.wrap.inj h).2]
      | _ => simp [tree] at h
    | nullable t ih =>
      cases u with
      | nullable u => rw [ih (Tree.wrap.inj h).2]
      | _ => simp [tree] at h
    | array t ih =>
      cases u with
      | array u => rw [ih (Tree.wrap.inj h).2]
      | _ => simp [tree] at h
    | object t =>
      cases u with
      | object u => rw [TypeName.faithful.injective (Tree.wrap.inj h).2]
      | _ => simp [tree] at h
    | _ => cases u <;> simp [tree, dump] at h ⊢

end CastType

namespace BinaryOp

theorem mem_all (op : BinaryOp) : op ∈ all := by
  cases op <;> decide

theorem faithful : Faithful dump fun op => .word op.dump := by
  have hnodup : (all.map dump).Nodup := by decide +kernel
  have hwords : ∀ op ∈ all, Tree.IsName op.dump ∧ op.dump.toList ≠ [] := by decide +kernel
  constructor
  · exact fun op => rfl
  · exact fun op => .word (hwords op op.mem_all).1 (hwords op op.mem_all).2
  · intro op op' h
    exact List.inj_on_of_nodup_map hnodup op.mem_all op'.mem_all (Tree.word.inj h)

end BinaryOp

namespace UnaryOp

def tree : UnaryOp → Tree
  | convert t => .wrap "Convert" t.tree
  | convertChecked t => .wrap "ConvertChecked" t.tree
  | typeAs t => .wrap "TypeAs" t.tree
  | unbox t => .wrap "Unbox" t.tree
  | op => .word op.dump

theorem mem_plain_iff (op : UnaryOp) : op ∈ plain ↔ op.tree.mark = none := by
  cases op <;> simp [plain, tree, Tree.mark]

theorem tree_of_mem_plain {op : UnaryOp} (h : op ∈ plain) : op.tree = .word op.dump := by
  cases op with
  | convert t => simp [plain] at h
  | convertChecked t => simp [plain] at h
  | typeAs t => simp [plain] at h
  | unbox t => simp [plain] at h
  | _ => rfl

theorem tree_injective : Function.Injective tree := by
  intro op op' h
  -- only the tree of a plain operator is a word, so both are plain or neither is
  by_cases hop : op ∈ plain
  · have hop' : op' ∈ plain := by rwa [mem_plain_iff, ← h, ← mem_plain_iff]
    have hnodup : (plain.map dump).Nodup := by decide +kernel
    rw [tree_of_mem_plain hop, tree_of_mem_plain hop'] at h
    exact List.inj_on_of_nodup_map hnodup hop hop' (Tree.word.inj h)
  · have hop' : op' ∉ plain := by rwa [mem_plain_iff, ← h, ← mem_plain_iff]
    cases op with
    | convert t =>
      cases op' with
      | convert t' => rw [CastType.faithful.injective (Tree.wrap.inj h).2]
      | convertChecked t' | typeAs t' | unbox t' => simp [tree] at h
      | _ => exact absurd (by decide) hop'
    | convertChecked t =>
      cases op' with
      | convertChecked t' => rw [CastType.faithful.injective (Tree.wrap.inj h).2]
      | convert t' | typeAs t' | unbox t' => simp [tree] at h
      | _ => exact absurd (by decide) hop'
    | typeAs t =>
      cases op' with
      | typeAs t' => rw [TypeName.faithful.injective (Tree.wrap.inj h).2]
      | convert t' | convertChecked t' | unbox t' => simp [tree] at h
      | _ => exact absurd (by decide) hop'
    | unbox t =>
      cases op' with
      | unbox t' => rw [TypeName.faithful.injective (Tree.wrap.inj h).2]
      | convert t' | convertChecked t' | typeAs t' => simp [tree] at h
      | _ => exact absurd (by decide) hop'
    | _ => exact absurd (by decide) hop

theorem text_tree (op : UnaryOp) : op.tree.text = op.dump := by
  have hconvert : Text.title "convert" = "Convert" := by decide +kernel
  have hconvertChecked : Text.title "convert_checked" = "ConvertChecked" := by decide +kernel
  have htypeAs : Text.title "type_as" = "TypeAs" := by decide +kernel
  have hunbox : Text.title "unbox" = "Unbox" := by decide +kernel
  cases op with
  | convert t => rw [tree, Tree.text, CastType.faithful.text, dump, name, hconvert]
  | convertChecked t => rw [tree, Tree.text, CastType.faithful.text, dump, name, hconvertChecked]
  | typeAs t => rw [tree, Tree.text, TypeName.faithful.text, dump, name, htypeAs]
  | unbox t => rw [tree, Tree.text, TypeName.faithful.text, dump, name, hunbox]
  | _ => rfl

theorem proper_tree (op : UnaryOp) : op.tree.Proper := by
  have hwords : ∀ op ∈ plain, Tree.IsName op.dump ∧ op.dump.toList ≠ [] := by decide +kernel
  by_cases hop : op ∈ plain
  · rw [tree_of_mem_plain hop]
    exact .word (hwords op hop).1 (hwords op hop).2
  · cases op with
    | convert t => exact .wrap (CastType.faithful.proper t)
    | convertChecked t => exact .wrap (CastType.faithful.proper t)
    | typeAs t => exact .wrap (TypeName.faithful.proper t)
    | unbox t => exact .wrap (TypeName.faithful.proper t)
    | _ => exact absurd (by decide) hop

theorem faithful : Faithful dump tree := ⟨text_tree, proper_tree, tree_injective⟩

end UnaryOp

end LambdaScript
