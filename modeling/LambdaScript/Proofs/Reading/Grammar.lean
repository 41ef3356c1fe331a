import LambdaScript.Proofs.Reading.Token

/-! # Reading arithmetic

Sums, differences and products of integers as the grammar of scripts reads them: `*` binds tighter
than `+` and `-`, all of them group from left to right, and parentheses group what they enclose.
What is read without parentheses can also be computed token by token, so it has at most one value.
-/

namespace LambdaScript.Reading
open Text

inductive Operation where
  | add | subtract | multiply
deriving DecidableEq

namespace Operation

def symbol : Operation → Char
  | add => '+'
  | subtract => '-'
  | multiply => '*'

def token (op : Operation) : Token := .mark [op.symbol]

def apply : Operation → Int → Int → Int
  | add, a, b => a + b
  | subtract, a, b => a - b
  | multiply, a, b => a * b

end Operation

/-- How tightly an expression is bound. -/
inductive Level where
  | operand | product | sum

/-- Tokens are read as an integer at a level, with values for the names. -/
inductive Reads (ρ : String → Int) : Level → List Token → Int → Prop
  | name (x : String) : Reads ρ .operand [.word x] (ρ x)
  | numeral (ds : List Char) : Reads ρ .operand [.numeral ds] (ofDigits ds)
  | group {ts z} (inner : Reads ρ .sum ts z) :
      Reads ρ .operand (.mark ['('] :: ts ++ [.mark [')']]) z
  | factor {ts z} (inner : Reads ρ .operand ts z) : Reads ρ .product ts z
  | times {ts us a b} (left : Reads ρ .product ts a) (right : Reads ρ .operand us b) :
      Reads ρ .product (ts ++ Operation.multiply.token :: us) (a * b)
  | term {ts z} (inner : Reads ρ .product ts z) : Reads ρ .sum ts z
  | plus {ts us a b} (left : Reads ρ .sum ts a) (right : Reads ρ .product us b) :
      Reads ρ .sum (ts ++ Operation.add.token :: us) (a + b)
  | minus {ts us a b} (left : Reads ρ .sum ts a) (right : Reads ρ .product us b) :
      Reads ρ .sum (ts ++ Operation.subtract.token :: us) (a - b)

def Denotes (ρ : String → Int) (t : String) (z : Int) : Prop :=
  ∃ ts, tokens? t.toList = some ts ∧ Reads ρ .sum ts z

variable {ρ : String → Int}

/-- The state of a reading from left to right: the sum of the terms that are complete, and the
product of the factors of the last one. -/
structure Tally where
  total : Int
  term : Int

namespace Tally

def start : Tally := ⟨0, 1⟩

def result (s : Tally) : Int := s.total + s.term

/-- An operand is a factor of the last term. -/
def operand (s : Tally) (z : Int) : Tally := ⟨s.total, s.term * z⟩

/-- A sum or a difference completes the last term. -/
def operation (s : Tally) : Operation → Tally
  | .add => ⟨s.result, 1⟩
  | .subtract => ⟨s.result, -1⟩
  | .multiply => s

def step (ρ : String → Int) (s : Tally) : Token → Tally
  | .word x => s.operand (ρ x)
  | .numeral ds => s.operand (ofDigits ds)
  | .mark m =>
    if m = ['+'] then s.operation .add
    else if m = ['-'] then s.operation .subtract
    else s

@[simp] theorem step_token (s : Tally) (op : Operation) : s.step ρ op.token = s.operation op := by
  cases op <;> rfl

@[simp] theorem operand_operand (s : Tally) (a b : Int) :
    (s.operand a).operand b = s.operand (a * b) := by
  simp [operand, Int.mul_assoc]

end Tally

/-- What reading tokens at a level does to the state. -/
def Level.Tallied (ρ : String → Int) (ts : List Token) (z : Int) : Level → Prop
  | .operand | .product => ∀ s : Tally, ts.foldl (Tally.step ρ) s = s.operand z
  | .sum => (ts.foldl (Tally.step ρ) .start).result = z

theorem Reads.tallied {level : Level} {ts : List Token} {z : Int} (h : Reads ρ level ts z)
    (flat : Token.mark ['('] ∉ ts) : level.Tallied ρ ts z := by
  induction h with
  | name x => exact fun s => rfl
  | numeral ds => exact fun s => rfl
  | group inner _ => simp at flat
  | factor inner ih => exact ih flat
  | times left right ihl ihr =>
    simp only [List.mem_append, List.mem_cons, not_or] at flat
    intro s
    rw [List.foldl_append, List.foldl_cons, ihl flat.1, ihr flat.2.2, Tally.step_token]
    exact Tally.operand_operand s _ _
  | term inner ih =>
    rw [Level.Tallied, ih flat .start]
    simp [Tally.operand, Tally.result, Tally.start]
  | plus left right ihl ihr =>
    simp only [List.mem_append, List.mem_cons, not_or] at flat
    have hleft := ihl flat.1
    rw [Level.Tallied] at hleft ⊢
    rw [List.foldl_append, List.foldl_cons, ihr flat.2.2, Tally.step_token]
    simp [Tally.operation, Tally.operand, Tally.result, ← hleft]
  | minus left right ihl ihr =>
    simp only [List.mem_append, List.mem_cons, not_or] at flat
    have hleft := ihl flat.1
    rw [Level.Tallied] at hleft ⊢
    rw [List.foldl_append, List.foldl_cons, ihr flat.2.2, Tally.step_token]
    simp [Tally.operation, Tally.operand, Tally.result, ← hleft, Int.sub_eq_add_neg]

/-- Without parentheses, tokens are read as one integer only. -/
theorem Reads.eq_result {ts : List Token} {z : Int} (h : Reads ρ .sum ts z)
    (flat : Token.mark ['('] ∉ ts) : z = (ts.foldl (Tally.step ρ) .start).result :=
  (h.tallied flat).symm

theorem Reads.product_times {level : Level} {ts us : List Token} {a b : Int}
    (hts : Reads ρ .product ts a) (hus : Reads ρ level us b) (hl : level = .product) :
    ∃ c, Reads ρ .product (ts ++ Operation.multiply.token :: us) c := by
  induction hus with
  | factor inner => exact ⟨_, .times hts inner⟩
  | times left right ih _ =>
    obtain ⟨c, hc⟩ := ih hl
    have h := hc.times right
    rw [List.append_assoc] at h
    exact ⟨_, h⟩
  | _ => cases hl

/-- A product that follows a sum is read with the last term of the sum. -/
theorem Reads.sum_times {ts us : List Token} {a b : Int} (hts : Reads ρ .sum ts a)
    (hus : Reads ρ .product us b) :
    ∃ c, Reads ρ .sum (ts ++ Operation.multiply.token :: us) c := by
  cases hts with
  | term inner =>
    obtain ⟨c, hc⟩ := inner.product_times hus rfl
    exact ⟨c, .term hc⟩
  | plus left right =>
    obtain ⟨c, hc⟩ := right.product_times hus rfl
    have h := left.plus hc
    rw [← List.cons_append, ← List.append_assoc] at h
    exact ⟨_, h⟩
  | minus left right =>
    obtain ⟨c, hc⟩ := right.product_times hus rfl
    have h := left.minus hc
    rw [← List.cons_append, ← List.append_assoc] at h
    exact ⟨_, h⟩

theorem Reads.sum_join_product (op : Operation) {ts us : List Token} {a b : Int}
    (hts : Reads ρ .sum ts a) (hus : Reads ρ .product us b) :
    ∃ c, Reads ρ .sum (ts ++ op.token :: us) c := by
  cases op with
  | add => exact ⟨_, hts.plus hus⟩
  | subtract => exact ⟨_, hts.minus hus⟩
  | multiply => exact hts.sum_times hus

/-- Two readable rows of tokens with an operation between them are readable, in some grouping. -/
theorem Reads.sum_join (op : Operation) {level : Level} {ts us : List Token} {a b : Int}
    (hts : Reads ρ .sum ts a) (hus : Reads ρ level us b) (hl : level = .sum) :
    ∃ c, Reads ρ .sum (ts ++ op.token :: us) c := by
  induction hus with
  | term inner => exact hts.sum_join_product op inner
  | plus left right ih _ =>
    obtain ⟨c, hc⟩ := ih hl
    have h := hc.plus right
    rw [List.append_assoc] at h
    exact ⟨_, h⟩
  | minus left right ih _ =>
    obtain ⟨c, hc⟩ := ih hl
    have h := hc.minus right
    rw [List.append_assoc] at h
    exact ⟨_, h⟩
  | _ => cases hl

end LambdaScript.Reading
