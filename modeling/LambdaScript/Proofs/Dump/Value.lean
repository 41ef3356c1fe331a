import LambdaScript.Dump.Value
import LambdaScript.Proofs.Dump.Declaration
import LambdaScript.Proofs.Number.Layout
import LambdaScript.Proofs.Time.InstantText
import LambdaScript.Proofs.Value.Literal
import LambdaScript.Proofs.Value.Rounding

/-! # Dumps of values

The dump of a value is the text of a tree. Two kinds of values are told apart by no text: NaNs, and
instants that are out of range or have a leap second inside of a minute. Without them, values are
told apart by their dumps.
-/

namespace LambdaScript
open Dump (Tree Faithful)

/-- A number is read back from its detailed text. -/
theorem Binary64.read?_detailedText {x : Binary64} (h : x.isNaN = false) :
    read? x.detailedText.toList = some x := by
  cases hx : x.isFinite with
  | true => exact (read?_text hx "inf").2
  | false =>
    rcases isFinite_eq_false_iff.mp hx with hnan | ⟨negative, rfl⟩
    · rw [h] at hnan
      cases hnan
    · cases negative <;> decide

namespace Dump

theorem proper_intText (n : ℤ) : (Tree.word (Text.intText n)).Proper := by
  apply proper_word ['-'] (by decide)
  · exact fun c hc => (Text.mem_intText hc).imp_right List.mem_singleton.mpr
  · intro hnil
    have hread := Text.readInt?_intText n
    rw [hnil] at hread
    cases hread

theorem proper_detailedText (x : Binary64) : (Tree.word x.detailedText).Proper := by
  cases hx : x.isFinite with
  | true =>
    obtain ⟨n, htext, hn, -⟩ := Binary64.exists_detailed_numeral hx
    apply proper_word ['-', '.', 'e'] (by decide)
    · rw [htext]
      exact fun c => hn.mem_text
    · obtain ⟨c, cs, hcs, -⟩ := hn.exists_chars_eq_cons
      rw [htext, hcs]
      exact List.append_ne_nil_of_right_ne_nil _ (List.cons_ne_nil c cs)
  | false =>
    have hword (s : String) (hs : s ∈ ["NaN", "-inf", "inf"]) : (Tree.word s).Proper := by
      simp only [List.mem_cons, List.not_mem_nil, or_false] at hs
      rcases hs with rfl | rfl | rfl
      · exact .word
      · exact .word
      · exact .word
    apply hword
    rw [Binary64.detailedText, if_neg (by simp [hx]), Binary64.nonFiniteText]
    split
    · simp
    · split <;> simp

theorem proper_instant (t : Instant) : (Tree.word (String.ofList t.text)).Proper := by
  apply proper_word ['-', '+', ':', '.', 'T', 'Z'] (by decide)
  · rw [String.toList_ofList]
    exact t.isTextChar_of_mem_text
  · rw [String.toList_ofList]
    exact List.append_ne_nil_of_right_ne_nil _ (List.cons_ne_nil _ _)

end Dump

namespace Duration

def tree (d : Duration) : Tree :=
  .node "TimeDelta"
    [("secs", .word (Text.intText (d.nanos / 1000000000))),
      ("nanos", .word (Text.intText (d.nanos % 1000000000)))]

theorem faithful : Faithful dump tree := by
  constructor
  · exact fun d => rfl
  · exact fun d => .node (by simp [Dump.proper_intText])
  · intro d e h
    simp only [tree, Tree.node.injEq, List.cons.injEq, Prod.mk.injEq, Tree.word.injEq,
      true_and, and_true] at h
    have hsecs := Text.intText_injective h.1
    have hnanos := Text.intText_injective h.2
    cases d
    cases e
    congr
    dsimp only at hsecs hnanos
    omega

end Duration

namespace Slot
variable {α β γ : Type}

theorem map_congr {f g : α → β} {s : Slot α} (h : ∀ a, s.value = some a → f a = g a) :
    s.map f = s.map g := by
  rw [map, map, Option.map_congr h]

theorem map_map (g : β → γ) (f : α → β) (s : Slot α) : (s.map f).map g = s.map (g ∘ f) := by
  simp [map]

theorem eq_of_map_eq {f : α → β} {s t : Slot α}
    (inj : ∀ a, s.value = some a → ∀ b, t.value = some b → f a = f b → a = b)
    (h : s.map f = t.map f) : s = t := by
  obtain ⟨name, kind, value⟩ := s
  obtain ⟨name', kind', value'⟩ := t
  simp only [map, mk.injEq] at h
  obtain ⟨rfl, rfl, hvalue⟩ := h
  congr
  cases value with
  | none => exact (Option.map_eq_none_iff.mp hvalue.symm).symm
  | some a =>
    cases value' with
    | none => cases hvalue
    | some b => exact congrArg some (inj a rfl b rfl (Option.some_inj.mp hvalue))

def tree (s : Slot Tree) : Tree :=
  .node "ValueMember"
    [("name", .quoted s.name), ("kind", .word s.kind.dump), ("value", .option s.value)]

theorem text_tree (s : Slot Tree) : s.tree.text = (s.map Tree.text).dump := by
  simp [tree, dump, map, Tree.text, Tree.textParts, Tree.text_option]

theorem proper_tree {s : Slot Tree} (h : ∀ t, s.value = some t → t.Proper) : s.tree.Proper :=
  .node (by simp [Tree.Proper.quoted, MemberKind.faithful.proper, Tree.Proper.option h])

theorem tree_injective : Function.Injective tree := by
  intro s t h
  simp only [tree, Tree.node.injEq, List.cons.injEq, Prod.mk.injEq, Tree.quoted.injEq,
    true_and, and_true] at h
  obtain ⟨hname, hkind, hvalue⟩ := h
  cases s
  cases t
  congr
  · exact MemberKind.faithful.injective hkind
  · exact Tree.option_injective hvalue

end Slot

namespace Value

mutual

def tree : Value → Tree
  | null => .word "Null"
  | string s => .wrap "String" (.quoted s)
  | char c => .wrap "Char" (.quotedChar c)
  | boolean b => .wrap "Boolean" (.word (Dump.bool b))
  | integer n => .wrap "Integer" (.word (Text.intText n.toInt))
  | float x => .wrap "Float" (.word x.detailedText)
  | instant t => .wrap "Instant" (.word (String.ofList t.text))
  | duration d => .wrap "Duration" d.tree
  | enumeration t n => .node "Enum" [("ty", t.tree), ("value", .word (Text.intText n.toInt))]
  | array items => .wrap "Array" (.list (treeItems items))
  | record ⟨t, slots⟩ =>
    .wrap "Structured"
      (.node "StructuredValue" [("ty", t.tree), ("members", .list (treeSlots slots))])

def treeItems : List Value → List Tree
  | [] => []
  | v :: vs => tree v :: treeItems vs

def treeSlots : List (Slot Value) → List Tree
  | [] => []
  | ⟨name, kind, none⟩ :: slots => Slot.tree ⟨name, kind, none⟩ :: treeSlots slots
  | ⟨name, kind, some v⟩ :: slots => Slot.tree ⟨name, kind, some (tree v)⟩ :: treeSlots slots

end

theorem treeItems_eq_map (vs : List Value) : treeItems vs = vs.map tree := by
  induction vs with
  | nil => rfl
  | cons v vs ih => rw [treeItems, ih, List.map_cons]

theorem treeSlots_eq_map (slots : List (Slot Value)) :
    treeSlots slots = slots.map fun s => (s.map tree).tree := by
  induction slots with
  | nil => rfl
  | cons s slots ih =>
    obtain ⟨name, kind, value⟩ := s
    cases value <;> rw [treeSlots, ih] <;> rfl

theorem dumpItems_eq_map (vs : List Value) : dumpItems vs = vs.map dump := by
  induction vs with
  | nil => rfl
  | cons v vs ih => rw [dumpItems, ih, List.map_cons]

theorem dumpSlots_eq_map (slots : List (Slot Value)) :
    dumpSlots slots = slots.map (Slot.map dump) := by
  induction slots with
  | nil => rfl
  | cons s slots ih =>
    obtain ⟨name, kind, value⟩ := s
    cases value <;> rw [dumpSlots, ih] <;> rfl

theorem mem_parts_of_slot {r : Record Value} {s : Slot Value} {v : Value} (hs : s ∈ r.slots)
    (hv : s.value = some v) : v ∈ (record r).parts := by
  obtain ⟨name, kind, value⟩ := s
  subst hv
  exact List.mem_map.mpr ⟨_, Record.mem_listing_iff.mpr ⟨kind, hs⟩, rfl⟩

theorem text_tree (v : Value) : v.tree.text = v.dump := by
  induction v using parts_induction with
  | step v ih =>
  cases v with
  | duration d => rw [tree, dump, Tree.text, Duration.faithful.text]
  | array items =>
    rw [tree, dump, Tree.text, Tree.text, Tree.textItems_eq_map, treeItems_eq_map,
      dumpItems_eq_map, List.map_map]
    congr 2
    exact List.map_congr_left ih
  | record r =>
    have hslots : (treeSlots r.slots).map Tree.text = (dumpSlots r.slots).map Slot.dump := by
      rw [treeSlots_eq_map, dumpSlots_eq_map, List.map_map, List.map_map]
      apply List.map_congr_left
      intro s hs
      change (s.map tree).tree.text = (s.map dump).dump
      rw [Slot.text_tree, Slot.map_map]
      congr 1
      exact Slot.map_congr fun v hv => ih v (mem_parts_of_slot hs hv)
    simp only [tree, dump, Tree.text, Tree.textParts, Tree.textItems_eq_map, hslots, Record.dump,
      TypeName.faithful.text]
  | _ => rfl

theorem proper_tree (v : Value) : v.tree.Proper := by
  induction v using parts_induction with
  | step v ih =>
  cases v with
  | null => exact .word
  | string s => exact .wrap (.quoted s)
  | char c => exact .wrap (.quotedChar c)
  | boolean b => cases b <;> exact .wrap (.word)
  | integer n => exact .wrap (Dump.proper_intText _)
  | float x => exact .wrap (Dump.proper_detailedText x)
  | instant t => exact .wrap (Dump.proper_instant t)
  | duration d => exact .wrap (Duration.faithful.proper d)
  | enumeration t n =>
    exact .node (by simp [TypeName.faithful.proper, Dump.proper_intText])
  | array items =>
    rw [tree, treeItems_eq_map]
    exact .wrap (.list (List.forall_mem_map.mpr ih))
  | record r =>
    have hslots : ∀ t ∈ treeSlots r.slots, t.Proper := by
      rw [treeSlots_eq_map, List.forall_mem_map]
      intro s hs
      apply Slot.proper_tree
      intro t ht
      obtain ⟨v, hv, rfl⟩ := Option.map_eq_some_iff.mp ht
      exact ih v (mem_parts_of_slot hs hv)
    exact .wrap (.node (by simp [TypeName.faithful.proper, Tree.Proper.list hslots]))

/-- Nothing in a value is a NaN or an instant that no text denotes. -/
structure Plain (v : Value) : Prop where
  number : ∀ x, Inside (float x) v → x.isNaN = false
  denotable : ∀ t, Inside (instant t) v → t.Denotable

theorem Plain.inside {u v : Value} (h : v.Plain) (hu : Inside u v) : u.Plain :=
  ⟨fun x hx => h.number x (hx.trans hu), fun t ht => h.denotable t (ht.trans hu)⟩

/-- Plain values are told apart by their trees. -/
theorem eq_of_tree {v w : Value} (hv : v.Plain) (hw : w.Plain) (h : v.tree = w.tree) : v = w := by
  induction v using parts_induction generalizing w with
  | step v ih =>
  cases v with
  | null =>
    cases w with
    | null => rfl
    | _ => simp [tree] at h
  | string s =>
    cases w with
    | string s' => rw [Tree.quoted.inj (Tree.wrap.inj h).2]
    | _ => simp [tree] at h
  | char c =>
    cases w with
    | char c' => rw [Tree.quotedChar.inj (Tree.wrap.inj h).2]
    | _ => simp [tree] at h
  | boolean b =>
    cases w with
    | boolean b' => cases b <;> cases b' <;> simp [tree, Dump.bool] at h ⊢
    | _ => simp [tree] at h
  | integer n =>
    cases w with
    | integer n' =>
      have hn := Text.intText_injective (Tree.word.inj (Tree.wrap.inj h).2)
      rw [Int64.toInt_inj.mp hn]
    | _ => simp [tree] at h
  | float x =>
    cases w with
    | float x' =>
      have hx := Binary64.read?_detailedText (hv.number x .self)
      rw [Tree.word.inj (Tree.wrap.inj h).2,
        Binary64.read?_detailedText (hw.number x' .self)] at hx
      rw [Option.some_inj.mp hx]
    | _ => simp [tree] at h
  | instant t =>
    cases w with
    | instant t' =>
      have ht := (hv.denotable t .self).read?_text
      rw [String.ofList_inj.mp (Tree.word.inj (Tree.wrap.inj h).2),
        (hw.denotable t' .self).read?_text] at ht
      rw [Option.some_inj.mp ht]
    | _ => simp [tree] at h
  | duration d =>
    cases w with
    | duration d' => rw [Duration.faithful.injective (Tree.wrap.inj h).2]
    | _ => simp [tree] at h
  | enumeration t n =>
    cases w with
    | enumeration t' n' =>
      simp only [tree, Tree.node.injEq, List.cons.injEq, Prod.mk.injEq, Tree.word.injEq,
        true_and, and_true] at h
      rw [TypeName.faithful.injective h.1, Int64.toInt_inj.mp (Text.intText_injective h.2)]
    | _ => simp [tree] at h
  | array items =>
    cases w with
    | array items' =>
      have hitems := Tree.list.inj (Tree.wrap.inj h).2
      rw [treeItems_eq_map, treeItems_eq_map] at hitems
      congr 1
      apply Dump.eq_of_map_eq _ hitems
      exact fun u hu u' hu' =>
        ih u hu (hv.inside (.item hu .self)) (hw.inside (.item hu' .self))
    | _ => simp [tree] at h
  | record r =>
    cases w with
    | record r' =>
      obtain ⟨type, slots⟩ := r
      obtain ⟨type', slots'⟩ := r'
      simp only [tree, Tree.wrap.injEq, Tree.node.injEq, List.cons.injEq, Prod.mk.injEq,
        Tree.list.injEq, treeSlots_eq_map, true_and, and_true] at h
      obtain ⟨htype, hslots⟩ := h
      congr
      · exact TypeName.faithful.injective htype
      · apply Dump.eq_of_map_eq _ hslots
        intro s hs s' hs' heq
        apply Slot.eq_of_map_eq _ (Slot.tree_injective heq)
        exact fun u hu u' hu' => ih u (mem_parts_of_slot hs hu)
          (hv.inside (.slot hs hu .self)) (hw.inside (.slot hs' hu' .self))
    | _ => simp [tree] at h

/-- Plain values are told apart by their dumps. -/
theorem eq_of_dump {v w : Value} (hv : v.Plain) (hw : w.Plain) (h : v.dump = w.dump) : v = w := by
  apply eq_of_tree hv hw
  apply Tree.text_injective v.proper_tree w.proper_tree
  rw [text_tree, text_tree, h]

example : (float (.nan false)).dump = (float (.nan true)).dump := by decide +kernel

end Value
end LambdaScript
