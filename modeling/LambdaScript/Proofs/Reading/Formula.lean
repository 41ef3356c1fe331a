import LambdaScript.Proofs.Emit.Unarmed
import LambdaScript.Proofs.Expr.Evaluation
import LambdaScript.Proofs.Reading.Grammar

/-! # Formulas and their texts

A formula is an expression of integer arithmetic. It is written without brackets, its text is cut
into the tokens of its operands and operations, and these denote one integer: what they are read as
token by token.
-/

namespace LambdaScript.Reading
open Text

/-- A name that the script reads as one token. -/
structure Identifier where
  name : String
  valid : isName name.toList = true

theorem Identifier.exists_head (x : Identifier) :
    ∃ c cs, x.name.toList = c :: cs ∧ isNamePart c = true := by
  have hvalid := x.valid
  cases hx : x.name.toList with
  | nil => simp [hx, isName] at hvalid
  | cons c cs =>
    rw [hx, isName, Bool.and_eq_true] at hvalid
    exact ⟨c, cs, rfl, isNamePart_of_isNameStart hvalid.1⟩

inductive Formula where
  | name (x : Identifier)
  | number (n : Int64) (nonneg : 0 ≤ n.toInt)
  | operation (op : Operation) (left right : Formula)

def Operation.operator : Operation → BinaryOp
  | add => .add
  | subtract => .subtract
  | multiply => .multiply

namespace Formula

def toExpr : Formula → Expr
  | name x => .parameter x.name
  | number n _ => .constant (.integer n)
  | operation op left right => .binary op.operator left.toExpr right.toExpr

def value (ρ : String → Int) : Formula → Int
  | name x => ρ x.name
  | number n _ => n.toInt
  | operation op left right => op.apply (left.value ρ) (right.value ρ)

def text : Formula → String
  | name x => x.name
  | number n _ => intText n.toInt
  | operation op left right => left.text ++ String.singleton op.symbol ++ right.text

def tokens : Formula → List Token
  | name x => [.word x.name]
  | number n _ => [.numeral (digits n.toInt.natAbs)]
  | operation op left right => left.tokens ++ op.token :: right.tokens

/-- The text is what the expression is written as. -/
theorem unarmed_toExpr (lookup : Lookup) (naming : Naming) (e : Formula) :
    Expr.unarmed (.closure false lookup naming) e.toExpr = .ok (some e.text) := by
  induction e with
  | name x => rfl
  | number n nonneg => rfl
  | operation op left right ihl ihr =>
    rw [toExpr, Expr.unarmed_binary, ihl, ihr]
    cases op <;> rfl

theorem exists_head (e : Formula) : ∃ c cs, e.text.toList = c :: cs ∧ isNamePart c = true := by
  induction e with
  | name x => exact x.exists_head
  | number n nonneg =>
    obtain ⟨c, cs, hn, hc⟩ := exists_digits_eq_cons n.toInt.natAbs
    exact ⟨c, cs, by rw [text, toList_intText nonneg, hn], isNamePart_of_isDigit hc⟩
  | operation op left right ihl _ =>
    obtain ⟨c, cs, hl, hc⟩ := ihl
    exact ⟨c, _, by rw [text, String.toList_append, String.toList_append, hl]; rfl, hc⟩

/-- Neither a name nor a number goes on with a character. -/
def Ends (c : Char) : Prop := isNamePart c = false ∧ c ≠ '.'

theorem ends_symbol (op : Operation) : Ends op.symbol := by
  cases op <;> exact ⟨by decide, by decide⟩

theorem token_mem_marks (op : Operation) : [op.symbol] ∈ marks := by
  cases op <;> decide

/-- A formula in front of what ends it is cut into its tokens. -/
theorem tokens?_append (e : Formula) (rest : List Char)
    (hrest : ∀ c, rest.head? = some c → Ends c) :
    tokens? (e.text.toList ++ rest) = (tokens? rest).map (e.tokens ++ ·) := by
  induction e generalizing rest with
  | name x =>
    rw [text, tokens?_word x.valid fun c hc => (hrest c hc).1, String.ofList_toList]
    rfl
  | number n nonneg =>
    rw [text, toList_intText nonneg, tokens?_digits hrest]
    rfl
  | operation op left right ihl ihr =>
    obtain ⟨c, cs, hr, hc⟩ := right.exists_head
    have hsymbol : ∀ d, (op.symbol :: (right.text.toList ++ rest)).head? = some d → Ends d := by
      rintro d ⟨⟩
      exact ends_symbol op
    have hmark : tokens? (op.symbol :: (right.text.toList ++ rest)) =
        (tokens? (right.text.toList ++ rest)).map (op.token :: ·) := by
      rw [hr]
      exact tokens?_mark (token_mem_marks op) hc
    rw [text, String.toList_append, String.toList_append, String.toList_singleton,
      List.append_assoc, List.append_assoc, List.singleton_append, ihl _ hsymbol, hmark,
      ihr rest hrest, Option.map_map, Option.map_map]
    simp [Function.comp_def, tokens]

theorem tokens?_text (e : Formula) : tokens? e.text.toList = some e.tokens := by
  have h := e.tokens?_append [] (by simp)
  simpa using h

theorem reads_tokens (ρ : String → Int) (e : Formula) : ∃ z, Reads ρ .sum e.tokens z := by
  induction e with
  | name x => exact ⟨_, .term (.factor (.name x.name))⟩
  | number n nonneg => exact ⟨_, .term (.factor (.numeral _))⟩
  | operation op left right ihl ihr =>
    obtain ⟨a, ha⟩ := ihl
    obtain ⟨b, hb⟩ := ihr
    exact ha.sum_join op hb rfl

theorem not_mem_tokens (e : Formula) : Token.mark ['('] ∉ e.tokens := by
  induction e with
  | name x => simp [tokens]
  | number n nonneg => simp [tokens]
  | operation op left right ihl ihr =>
    cases op <;> simp [tokens, ihl, ihr, Operation.token, Operation.symbol]

/-- What the tokens of a formula do to the state of a reading. -/
def tally (ρ : String → Int) (e : Formula) (s : Tally) : Tally := e.tokens.foldl (Tally.step ρ) s

def reading (ρ : String → Int) (e : Formula) : Int := (e.tally ρ .start).result

/-- The text of a formula denotes one integer. -/
theorem denotes_text_iff {ρ : String → Int} {e : Formula} {z : Int} :
    Denotes ρ e.text z ↔ z = e.reading ρ := by
  constructor
  · rintro ⟨ts, hts, hz⟩
    rw [tokens?_text, Option.some.injEq] at hts
    subst hts
    exact hz.eq_result e.not_mem_tokens
  · rintro rfl
    obtain ⟨z, hz⟩ := e.reads_tokens ρ
    have hreading : z = e.reading ρ := hz.eq_result e.not_mem_tokens
    exact ⟨e.tokens, e.tokens?_text, hreading ▸ hz⟩

variable {ρ : String → Int}

@[simp] theorem tally_name (x : Identifier) (s : Tally) :
    (name x).tally ρ s = s.operand (ρ x.name) := rfl

@[simp] theorem tally_number (n : Int64) (nonneg : 0 ≤ n.toInt) (s : Tally) :
    (number n nonneg).tally ρ s = s.operand n.toInt := by
  change s.operand (ofDigits (digits n.toInt.natAbs)) = _
  rw [ofDigits_digits, Int.natAbs_of_nonneg nonneg]

@[simp] theorem tally_operation (op : Operation) (left right : Formula) (s : Tally) :
    (operation op left right).tally ρ s = right.tally ρ ((left.tally ρ s).operation op) := by
  simp [tally, tokens]

end Formula
end LambdaScript.Reading
