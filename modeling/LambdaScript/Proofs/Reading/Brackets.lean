import LambdaScript.Proofs.Reading.Formula

/-! # Formulas that need brackets

Since no brackets are written, the grammar regroups the operations of a text. A formula keeps its
value if it needs no brackets: factors and what is subtracted contain no sums and no differences.
The condition is exact for the outlines of formulas: every other outline has a formula whose text
denotes another integer. It is found by zeros and ones at the leaves: zeros drop an operand, and
ones can be placed such that the value is read in front of all that follows, or after all before it.
-/

namespace LambdaScript.Reading

/-- The operations of a formula, without the operands. -/
inductive Outline where
  | leaf
  | node (op : Operation) (left right : Outline)
deriving DecidableEq

def Formula.outline : Formula → Outline
  | name _ => .leaf
  | number _ _ => .leaf
  | operation op left right => .node op left.outline right.outline

namespace Outline

/-- Whether there are neither sums nor differences. -/
def isProduct : Outline → Bool
  | leaf => true
  | node .multiply left right => left.isProduct && right.isProduct
  | node _ _ _ => false

/-- Whether no brackets are needed: factors and what is subtracted have no sums or differences. -/
def isBracketless : Outline → Bool
  | leaf => true
  | node .add left right => left.isBracketless && right.isBracketless
  | node .subtract left right => left.isBracketless && right.isProduct
  | node .multiply left right => left.isProduct && right.isProduct

end Outline

namespace Formula
variable {ρ : String → Int}

theorem tally_of_isProduct {e : Formula} (h : e.outline.isProduct = true) (s : Tally) :
    e.tally ρ s = s.operand (e.value ρ) := by
  induction e generalizing s with
  | name x => rfl
  | number n nonneg => exact tally_number n nonneg s
  | operation op left right ihl ihr =>
    cases op with
    | add => cases h
    | subtract => cases h
    | multiply =>
      rw [outline, Outline.isProduct, Bool.and_eq_true] at h
      rw [tally_operation, ihl h.1, ihr h.2]
      exact Tally.operand_operand s _ _

/-- Without brackets, a formula is added to the terms in front of it. -/
theorem result_of_isBracketless {e : Formula} (h : e.outline.isBracketless = true) (a : Int) :
    (e.tally ρ ⟨a, 1⟩).result = a + e.value ρ := by
  induction e generalizing a with
  | name x => simp [Tally.operand, Tally.result, value]
  | number n nonneg => simp [Tally.operand, Tally.result, value]
  | operation op left right ihl ihr =>
    cases op with
    | add =>
      rw [outline, Outline.isBracketless, Bool.and_eq_true] at h
      rw [tally_operation, Tally.operation, ihr h.2, ihl h.1, Int.add_assoc]
      rfl
    | subtract =>
      rw [outline, Outline.isBracketless, Bool.and_eq_true] at h
      rw [tally_operation, tally_of_isProduct h.2, Tally.operation, ihl h.1]
      simp only [Tally.operand, Tally.result, value, Operation.apply]
      omega
    | multiply =>
      have hproduct : (operation .multiply left right).outline.isProduct = true := h
      rw [tally_of_isProduct hproduct]
      simp [Tally.operand, Tally.result]

theorem reading_of_isBracketless {e : Formula} (h : e.outline.isBracketless = true) :
    e.reading ρ = e.value ρ := by
  rw [reading, Tally.start, result_of_isBracketless h, Int.zero_add]

end Formula

namespace Outline
variable {ρ : String → Int}

def zeros : Outline → Formula
  | leaf => .number 0 (by decide)
  | node op left right => .operation op left.zeros right.zeros

/-- A formula of value one that starts with it: later terms are zero, and all factors are one. -/
def ones : Outline → Formula
  | leaf => .number 1 (by decide)
  | node .multiply left right => .operation .multiply left.ones right.ones
  | node op left right => .operation op left.ones right.zeros

/-- A formula of value one or minus one that ends with it: the first term is zero. -/
def late : Outline → Formula
  | leaf => .number 1 (by decide)
  | node .multiply left right =>
    if left.isProduct then .operation .multiply left.ones right.late
    else .operation .multiply left.late right.ones
  | node op left right => .operation op left.zeros right.ones

theorem outline_zeros (s : Outline) : s.zeros.outline = s := by
  induction s with
  | leaf => rfl
  | node op left right ihl ihr => rw [zeros, Formula.outline, ihl, ihr]

theorem outline_ones (s : Outline) : s.ones.outline = s := by
  induction s with
  | leaf => rfl
  | node op left right ihl ihr =>
    cases op <;> simp [ones, Formula.outline, ihl, ihr, outline_zeros]

theorem outline_late (s : Outline) : s.late.outline = s := by
  induction s with
  | leaf => rfl
  | node op left right ihl ihr =>
    cases op with
    | add => simp [late, Formula.outline, outline_zeros, outline_ones]
    | subtract => simp [late, Formula.outline, outline_zeros, outline_ones]
    | multiply =>
      rw [late]
      split <;> simp [Formula.outline, ihl, ihr, outline_ones]

@[simp] theorem value_zeros (s : Outline) : s.zeros.value ρ = 0 := by
  induction s with
  | leaf => rfl
  | node op left right ihl ihr =>
    cases op <;> simp [zeros, Formula.value, ihl, ihr, Operation.apply]

/-- Zeros cancel the last term and add nothing. -/
@[simp] theorem tally_zeros (s : Outline) (t : Tally) : s.zeros.tally ρ t = ⟨t.total, 0⟩ := by
  induction s generalizing t with
  | leaf => simp [zeros, Tally.operand]
  | node op left right ihl ihr =>
    cases op <;> simp [zeros, ihl, ihr, Tally.operation, Tally.result]

@[simp] theorem value_ones (s : Outline) : s.ones.value ρ = 1 := by
  induction s with
  | leaf => rfl
  | node op left right ihl ihr =>
    cases op <;> simp [ones, Formula.value, ihl, ihr, Operation.apply]

theorem tally_ones_of_isProduct {s : Outline} (h : s.isProduct = true) (t : Tally) :
    s.ones.tally ρ t = t := by
  rw [Formula.tally_of_isProduct (by rwa [outline_ones]), value_ones]
  simp [Tally.operand]

/-- Beyond a product, ones complete the last term and leave a zero after it. -/
theorem tally_ones {s : Outline} (h : s.isProduct = false) (t : Tally) :
    s.ones.tally ρ t = ⟨t.result, 0⟩ := by
  induction s generalizing t with
  | leaf => cases h
  | node op left right ihl ihr =>
    have hleft : (left.ones.tally ρ t).result = t.result := by
      cases hl : left.isProduct with
      | true => rw [tally_ones_of_isProduct hl]
      | false => simp [ihl hl, Tally.result]
    cases op with
    | add => simp [ones, Tally.operation, hleft]
    | subtract => simp [ones, Tally.operation, hleft]
    | multiply =>
      rw [ones, Formula.tally_operation, Tally.operation]
      cases hr : right.isProduct with
      | false => rw [ihr hr, hleft]
      | true =>
        rw [isProduct, hr, Bool.and_true] at h
        rw [tally_ones_of_isProduct hr, ihl h]

theorem result_tally_ones (s : Outline) (t : Tally) : (s.ones.tally ρ t).result = t.result := by
  cases hs : s.isProduct with
  | true => rw [tally_ones_of_isProduct hs]
  | false => simp [tally_ones hs, Tally.result]

theorem value_late (s : Outline) : s.late.value ρ = 1 ∨ s.late.value ρ = -1 := by
  induction s with
  | leaf => exact .inl rfl
  | node op left right ihl ihr =>
    cases op with
    | add => simp [late, Formula.value, Operation.apply]
    | subtract => simp [late, Formula.value, Operation.apply]
    | multiply =>
      rw [late]
      split
      · simpa [Formula.value, Operation.apply] using ihr
      · simpa [Formula.value, Operation.apply] using ihl

/-- A late one replaces the last term, whatever it is. -/
theorem result_tally_late {s : Outline} (h : s.isProduct = false) (t : Tally) :
    (s.late.tally ρ t).result = t.total + s.late.value ρ := by
  induction s generalizing t with
  | leaf => cases h
  | node op left right ihl ihr =>
    cases op with
    | add =>
      simp only [late, Formula.tally_operation, result_tally_ones]
      simp [Tally.operation, Tally.result, Formula.value, Operation.apply]
    | subtract =>
      simp only [late, Formula.tally_operation, result_tally_ones]
      simp [Tally.operation, Tally.result, Formula.value, Operation.apply]
    | multiply =>
      rw [late]
      split
      · next hl =>
        rw [isProduct, hl, Bool.true_and] at h
        rw [Formula.tally_operation, tally_ones_of_isProduct hl, Tally.operation, ihr h]
        simp [Formula.value, Operation.apply]
      · next hl =>
        rw [Formula.tally_operation, Tally.operation, result_tally_ones,
          ihl (Bool.not_eq_true _ ▸ hl)]
        simp [Formula.value, Operation.apply]

theorem reading_operation_zeros (op : Operation) (hop : op ≠ .multiply) (e : Formula)
    (s : Outline) : (Formula.operation op e s.zeros).reading ρ = e.reading ρ := by
  cases op with
  | multiply => exact absurd rfl hop
  | add => simp [Formula.reading, Tally.operation, Tally.result]
  | subtract => simp [Formula.reading, Tally.operation, Tally.result]

/-- An outline that needs brackets has a formula whose text is read as another integer. -/
theorem exists_reading_ne {s : Outline} (h : s.isBracketless = false) :
    ∃ e : Formula, e.outline = s ∧ ∀ ρ, e.reading ρ ≠ e.value ρ := by
  induction s with
  | leaf => cases h
  | node op left right ihl ihr =>
    cases op with
    | add =>
      rw [isBracketless, Bool.and_eq_false_iff] at h
      rcases h with h | h
      · obtain ⟨e, rfl, he⟩ := ihl h
        refine ⟨.operation .add e right.zeros, by rw [Formula.outline, outline_zeros], fun ρ => ?_⟩
        rw [reading_operation_zeros .add (by decide)]
        simpa [Formula.value, Operation.apply] using he ρ
      · obtain ⟨e, rfl, he⟩ := ihr h
        refine ⟨.operation .add left.zeros e, by rw [Formula.outline, outline_zeros], fun ρ => ?_⟩
        simpa [Formula.reading, Formula.value, Operation.apply, Tally.operation, Tally.result,
          Tally.start] using he ρ
    | subtract =>
      rw [isBracketless, Bool.and_eq_false_iff] at h
      rcases h with h | h
      · obtain ⟨e, rfl, he⟩ := ihl h
        refine ⟨.operation .subtract e right.zeros, by rw [Formula.outline, outline_zeros],
          fun ρ => ?_⟩
        rw [reading_operation_zeros .subtract (by decide)]
        simpa [Formula.value, Operation.apply] using he ρ
      · refine ⟨.operation .subtract left.zeros right.late,
          by rw [Formula.outline, outline_zeros, outline_late], fun ρ => ?_⟩
        rw [Formula.reading, Formula.tally_operation, result_tally_late h]
        simp only [tally_zeros, Tally.operation, Tally.result, Tally.start, Formula.value,
          value_zeros, Operation.apply]
        have hv : right.late.value ρ = 1 ∨ right.late.value ρ = -1 := right.value_late
        omega
    | multiply =>
      rw [isBracketless, Bool.and_eq_false_iff] at h
      rcases h with h | h
      · refine ⟨.operation .multiply left.ones right.zeros,
          by rw [Formula.outline, outline_ones, outline_zeros], fun ρ => ?_⟩
        rw [Formula.reading, Formula.tally_operation, tally_ones h, Tally.operation, tally_zeros]
        simp [Tally.result, Tally.start, Formula.value, Operation.apply]
      · refine ⟨.operation .multiply left.zeros right.late,
          by rw [Formula.outline, outline_zeros, outline_late], fun ρ => ?_⟩
        rw [Formula.reading, Formula.tally_operation, result_tally_late h]
        simp only [tally_zeros, Tally.operation, Tally.start, Formula.value, value_zeros,
          Operation.apply]
        have hv : right.late.value ρ = 1 ∨ right.late.value ρ = -1 := right.value_late
        omega

end Outline

open LambdaScript.Expr

/-- A formula is always written, and its text denotes one integer: what is read from left to right.
Exactly if the outline of the formula needs no brackets is this the value of the formula, for the
formula and all others of that outline, whatever the names stand for. -/
theorem denotes_value_iff_isBracketless (e : Formula) (ρ : String → Int) :
    ∃ t, unarmed (.closure false .empty none) e.toExpr = .ok (some t) ∧
      (∀ z, Denotes ρ t z ↔ z = e.reading ρ) ∧
      (e.outline.isBracketless = true ↔
        ∀ (e' : Formula) (ρ' : String → Int) (t' : String), e'.outline = e.outline →
          unarmed (.closure false .empty none) e'.toExpr = .ok (some t') →
            Denotes ρ' t' (e'.value ρ')) := by
  refine ⟨e.text, e.unarmed_toExpr _ _, fun z => Formula.denotes_text_iff, ?_⟩
  constructor
  · intro h e' ρ' t' he ht
    rw [e'.unarmed_toExpr] at ht
    cases ht
    rw [← he] at h
    exact Formula.denotes_text_iff.mpr (Formula.reading_of_isBracketless h).symm
  · intro h
    cases hs : e.outline.isBracketless with
    | true => rfl
    | false =>
      obtain ⟨e', he, hne⟩ := Outline.exists_reading_ne hs
      have hdenotes := h e' ρ e'.text he (e'.unarmed_toExpr _ _)
      exact absurd (Formula.denotes_text_iff.mp hdenotes).symm (hne ρ)

def groupedProduct : Formula :=
  .operation .multiply
    (.operation .add (.name ⟨"a", by decide⟩) (.name ⟨"b", by decide⟩)) (.name ⟨"c", by decide⟩)

/-- The text `a+b*c` of that product denotes three, where the product is four. -/
theorem groupedProduct_loses_grouping :
    unarmed (.closure false .empty none) groupedProduct.toExpr = .ok (some "a+b*c") ∧
      groupedProduct.value (fun x => if x = "c" then 2 else 1) = 4 ∧
      ∀ z, Denotes (fun x => if x = "c" then 2 else 1) "a+b*c" z ↔ z = 3 := by
  refine ⟨rfl, by decide, fun z => ?_⟩
  have htext : groupedProduct.text = "a+b*c" := rfl
  have hreading : groupedProduct.reading (fun x => if x = "c" then 2 else 1) = 3 := by decide
  rw [← htext, Formula.denotes_text_iff, hreading]

end LambdaScript.Reading
