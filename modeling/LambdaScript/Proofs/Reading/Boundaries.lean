import LambdaScript.Proofs.Emit.Path
import LambdaScript.Proofs.Reading.Formula

/-! # Boundaries of operators

Operators are written between their operands without blanks, so a symbol may run into an operand.
On its left it never does: names, numbers and doubled signs end where a symbol starts. On its right
an operand starts with a name, a digit or a sign, and a sign is cut together with an equal one in
front of it. So exactly a sum or a difference whose right operand starts with the same sign is cut
otherwise.

An operand is therefore taken apart into the signs at its front, which are cut depending on what
stands before them, and its body, which is cut in one way only.
-/

namespace LambdaScript.Reading
open Text

/-- A text is cut into tokens in front of a rest. -/
def Cut (text : List Char) (ts : List Token) (rest : List Char) : Prop :=
  tokens? text = (tokens? rest).map (ts ++ ·)

namespace Cut
variable {text mid rest : List Char} {ts us : List Token}

theorem refl (text : List Char) : Cut text [] text := by
  simp [Cut]

theorem trans (first : Cut text ts mid) (last : Cut mid us rest) : Cut text (ts ++ us) rest := by
  rw [Cut, first, last, Option.map_map]
  simp [Function.comp_def]

theorem tokens?_eq (h : Cut text ts []) : tokens? text = some ts := by
  rw [h, tokens?_nil, Option.map_some, List.append_nil]

end Cut

theorem Identifier.cut (x : Identifier) {rest : List Char}
    (hrest : ∀ c, rest.head? = some c → isNamePart c = false) :
    Cut (x.name.toList ++ rest) [.word x.name] rest := by
  rw [Cut, tokens?_word x.valid hrest, String.ofList_toList]
  rfl

/-- A sign, which is written once or twice. -/
inductive Sign where
  | plus
  | minus
deriving DecidableEq

namespace Sign

def char : Sign → Char
  | plus => '+'
  | minus => '-'

/-- The sign twice, which is a mark of its own. -/
def doubled (s : Sign) : List Char := [s.char, s.char]

def leading : Sign → UnaryOp
  | plus => .preIncrementAssign
  | minus => .preDecrementAssign

def trailing : Sign → UnaryOp
  | plus => .postIncrementAssign
  | minus => .postDecrementAssign

theorem affixes?_leading (s : Sign) : s.leading.affixes? = some (String.ofList s.doubled, "") := by
  cases s <;> rfl

theorem affixes?_trailing (s : Sign) :
    s.trailing.affixes? = some ("", String.ofList s.doubled) := by
  cases s <;> rfl

theorem ends_char (s : Sign) : Formula.Ends s.char := by
  cases s <;> exact ⟨by decide, by decide⟩

theorem mem_marks (s : Sign) : [s.char] ∈ marks := by
  cases s <;> decide

theorem goesOn_char (s t : Sign) : goesOn [s.char] t.char = decide (s = t) := by
  cases s <;> cases t <;> decide

/-- A doubled sign is one token, whatever follows it. -/
theorem cut_doubled (s : Sign) (rest : List Char) :
    Cut (s.doubled ++ rest) [.mark s.doubled] rest := by
  apply tokens?_of_next?
  cases s <;> rfl

end Sign

/-- The tokens of a row of signs: two equal ones at its front are cut together. -/
def signTokens : List Sign → List Token
  | [] => []
  | [s] => [.mark [s.char]]
  | s :: t :: signs =>
    if s = t then .mark s.doubled :: signTokens signs
    else .mark [s.char] :: signTokens (t :: signs)

/-- In front of a name or a number, a row of signs is cut on its own. -/
theorem cut_signs (signs : List Sign) {c : Char} (hc : isNamePart c = true) (rest : List Char) :
    Cut (signs.map Sign.char ++ c :: rest) (signTokens signs) (c :: rest) := by
  fun_induction signTokens signs with
  | case1 => exact .refl _
  | case2 s => exact tokens?_mark s.mem_marks hc
  | case3 s signs ih => exact (s.cut_doubled _).trans ih
  | case4 s t signs hne ih =>
    -- The second sign stays, as it may go together with the third.
    have hcut : Cut (s.char :: t.char :: (signs.map Sign.char ++ c :: rest)) [.mark [s.char]]
        (t.char :: (signs.map Sign.char ++ c :: rest)) :=
      tokens?_mark_of_goesOn s.mem_marks (by rw [s.goesOn_char t, decide_eq_false hne])
    exact hcut.trans ih

structure Connective where
  op : BinaryOp
  symbol : String
  shown : op.symbol? = some symbol

namespace Connective

theorem form?_eq (op : Connective) : op.op.form? = some (.between op.symbol) := by
  obtain ⟨op, symbol, shown⟩ := op
  cases op <;> cases shown <;> rfl

theorem symbol_mem_marks (op : Connective) : op.symbol.toList ∈ marks := by
  obtain ⟨op, symbol, shown⟩ := op
  cases op <;> cases shown <;> decide

/-- Names and numbers end where a symbol starts. -/
theorem ends_head (op : Connective) (rest : List Char) :
    ∀ c, (op.symbol.toList ++ rest).head? = some c → Formula.Ends c := by
  obtain ⟨op, symbol, shown⟩ := op
  cases op <;> cases shown <;> rintro c ⟨⟩ <;> exact ⟨by decide, by decide⟩

/-- A symbol goes on with a sign only if it is that sign itself. -/
theorem goesOn_symbol (op : Connective) (s : Sign) :
    goesOn op.symbol.toList s.char = decide (op.symbol = String.singleton s.char) := by
  obtain ⟨op, symbol, shown⟩ := op
  cases op <;> cases shown <;> cases s <;> decide

/-- The tokens of a symbol with a row of signs behind it: a sign that is equal to the symbol is cut
together with it. -/
def tokens (op : Connective) : List Sign → List Token
  | [] => [.mark op.symbol.toList]
  | s :: signs =>
    if op.symbol = String.singleton s.char then .mark s.doubled :: signTokens signs
    else .mark op.symbol.toList :: signTokens (s :: signs)

theorem cut_tokens (op : Connective) (signs : List Sign) {c : Char} (hc : isNamePart c = true)
    (rest : List Char) :
    Cut (op.symbol.toList ++ (signs.map Sign.char ++ c :: rest)) (op.tokens signs) (c :: rest) := by
  cases signs with
  | nil => exact tokens?_mark op.symbol_mem_marks hc
  | cons s signs =>
    by_cases h : op.symbol = String.singleton s.char
    · rw [tokens, if_pos h, h, String.toList_singleton]
      exact (s.cut_doubled _).trans (cut_signs signs hc rest)
    · rw [tokens, if_neg h]
      have hcut : Cut (op.symbol.toList ++ s.char :: (signs.map Sign.char ++ c :: rest))
          [.mark op.symbol.toList] (s.char :: (signs.map Sign.char ++ c :: rest)) :=
        tokens?_mark_of_goesOn op.symbol_mem_marks (by rw [op.goesOn_symbol s, decide_eq_false h])
      exact hcut.trans (cut_signs (s :: signs) hc rest)

/-- The symbol is a token of its own unless the sign behind it is equal to it. -/
theorem tokens_eq_iff (op : Connective) (signs : List Sign) :
    op.tokens signs = .mark op.symbol.toList :: signTokens signs ↔
      ∀ s, signs.head? = some s → op.symbol ≠ String.singleton s.char := by
  cases signs with
  | nil => simp [tokens, signTokens]
  | cons s signs =>
    by_cases h : op.symbol = String.singleton s.char
    · simp [tokens, h, Sign.doubled]
    · simp [tokens, h]

end Connective

/-- A member whose name the script reads as one token. -/
structure NamedMember where
  member : Member
  valid : isName member.name.toList = true

def NamedMember.identifier (m : NamedMember) : Identifier where
  name := m.member.name
  valid := m.valid

/-- An operand: a path from a parameter, an integer, a doubled sign in front of an operand or behind
it, or two operands with a symbol between them. -/
inductive Operand where
  | path (x : Identifier) (members : List NamedMember)
  | number (n : Int64)
  | leading (s : Sign) (operand : Operand)
  | trailing (s : Sign) (operand : Operand)
  | joined (op : Connective) (left right : Operand)

namespace Operand

def toExpr : Operand → Expr
  | path x members => (Expr.parameter x.name).under (members.map (.access ·.member))
  | number n => .constant (.integer n)
  | leading s operand => .unary s.leading operand.toExpr
  | trailing s operand => .unary s.trailing operand.toExpr
  | joined op left right => .binary op.op left.toExpr right.toExpr

def signs : Operand → List Sign
  | path _ _ => []
  | number n => if n.toInt < 0 then [.minus] else []
  | leading s operand => s :: s :: operand.signs
  | trailing _ operand => operand.signs
  | joined _ left _ => left.signs

def body : Operand → List Char
  | path x members => (joinWith "." (x.name :: members.map (·.member.name))).toList
  | number n => digits n.toInt.natAbs
  | leading _ operand => operand.body
  | trailing s operand => operand.body ++ s.doubled
  | joined op left right =>
    left.body ++ (op.symbol.toList ++ (right.signs.map Sign.char ++ right.body))

def bodyTokens : Operand → List Token
  | path x members => .word x.name :: members.flatMap fun m => [.mark ['.'], .word m.member.name]
  | number n => [.numeral (digits n.toInt.natAbs)]
  | leading _ operand => operand.bodyTokens
  | trailing s operand => operand.bodyTokens ++ [.mark s.doubled]
  | joined op left right => left.bodyTokens ++ (op.tokens right.signs ++ right.bodyTokens)

def text (e : Operand) : String := String.ofList (e.signs.map Sign.char ++ e.body)

def tokens (e : Operand) : List Token := signTokens e.signs ++ e.bodyTokens

theorem toList_text (e : Operand) : e.text.toList = e.signs.map Sign.char ++ e.body :=
  String.toList_ofList

theorem text_path (x : Identifier) (members : List NamedMember) :
    (path x members).text = joinWith "." (x.name :: members.map (·.member.name)) :=
  String.ofList_toList

theorem text_number (n : Int64) : (number n).text = intText n.toInt := by
  rw [← String.toList_inj, toList_text]
  by_cases h : n.toInt < 0
  · rw [toList_intText_of_neg h, signs, if_pos h]
    rfl
  · rw [toList_intText (by omega), signs, if_neg h]
    rfl

theorem text_leading (s : Sign) (operand : Operand) :
    (leading s operand).text = String.ofList s.doubled ++ operand.text := by
  rw [← String.toList_inj, String.toList_append, toList_text, toList_text, String.toList_ofList]
  rfl

theorem text_trailing (s : Sign) (operand : Operand) :
    (trailing s operand).text = operand.text ++ String.ofList s.doubled := by
  rw [← String.toList_inj, String.toList_append, toList_text, toList_text, String.toList_ofList,
    signs, body, List.append_assoc]

theorem text_joined (op : Connective) (left right : Operand) :
    (joined op left right).text = left.text ++ op.symbol ++ right.text := by
  rw [← String.toList_inj, String.toList_append, String.toList_append, toList_text, toList_text,
    toList_text, signs, body]
  simp

theorem tokens_joined (op : Connective) (left right : Operand) :
    (joined op left right).tokens =
      left.tokens ++ (op.tokens right.signs ++ right.bodyTokens) := by
  rw [tokens, tokens, signs, bodyTokens, List.append_assoc]

theorem accesses_members (members : List NamedMember) :
    accesses (members.map (.access ·.member)) = members.map (·.member) := by
  induction members with
  | nil => rfl
  | cons m members ih => rw [List.map_cons, accesses, ih, List.map_cons]

theorem ne_convert_of_affixes? {op : UnaryOp} {texts : String × String}
    (h : op.affixes? = some texts) (t : CastType) : op ≠ .convert t := by
  rintro rfl
  cases h

/-- The text is what the expression is written as. -/
theorem unarmed_toExpr (lookup : Lookup) (e : Operand) :
    Expr.unarmed (.closure false lookup none) e.toExpr = .ok (some e.text) := by
  induction e with
  | path x members =>
    rw [toExpr, Expr.unarmed_path rfl, accesses_members, List.map_map, text_path]
    rfl
  | number n =>
    rw [text_number]
    rfl
  | leading s operand ih =>
    have haffixes := s.affixes?_leading
    rw [toExpr, Expr.unarmed_unary (ne_convert_of_affixes? haffixes), ih, haffixes, text_leading]
    simp [ok_bind]
  | trailing s operand ih =>
    have haffixes := s.affixes?_trailing
    rw [toExpr, Expr.unarmed_unary (ne_convert_of_affixes? haffixes), ih, haffixes, text_trailing]
    simp [ok_bind]
  | joined op left right ihl ihr =>
    rw [toExpr, Expr.unarmed_binary, ihl, ihr, op.form?_eq, text_joined]
    rfl

theorem body_path_cons (x : Identifier) (m : NamedMember) (members : List NamedMember) :
    (path x (m :: members)).body = x.name.toList ++ '.' :: (path m.identifier members).body := by
  rw [body, List.map_cons, joinWith, String.toList_append, String.toList_append, List.append_assoc]
  rfl

/-- The body of an operand starts with a part of a name. -/
theorem exists_head (e : Operand) : ∃ c cs, e.body = c :: cs ∧ isNamePart c = true := by
  induction e with
  | path x members =>
    obtain ⟨c, cs, hx, hc⟩ := x.exists_head
    cases members with
    | nil => exact ⟨c, cs, hx, hc⟩
    | cons m members => exact ⟨c, _, by rw [body_path_cons, hx, List.cons_append], hc⟩
  | number n =>
    obtain ⟨c, cs, hn, hc⟩ := exists_digits_eq_cons n.toInt.natAbs
    exact ⟨c, cs, hn, isNamePart_of_isDigit hc⟩
  | leading s operand ih => exact ih
  | trailing s operand ih =>
    obtain ⟨c, cs, hbody, hc⟩ := ih
    exact ⟨c, cs ++ s.doubled, by rw [body, hbody, List.cons_append], hc⟩
  | joined op left right ihl _ =>
    obtain ⟨c, cs, hbody, hc⟩ := ihl
    exact ⟨c, _, by rw [body, hbody, List.cons_append], hc⟩

/-- The labels of a path are cut one by one. -/
theorem cut_path (x : Identifier) (members : List NamedMember) {rest : List Char}
    (hrest : ∀ c, rest.head? = some c → Formula.Ends c) :
    Cut ((path x members).body ++ rest) (path x members).bodyTokens rest := by
  induction members generalizing x with
  | nil => exact x.cut fun c hc => (hrest c hc).1
  | cons m members ih =>
    obtain ⟨c, cs, hpath, hc⟩ := (path m.identifier members).exists_head
    have hname : Cut (x.name.toList ++ '.' :: ((path m.identifier members).body ++ rest))
        [.word x.name] ('.' :: ((path m.identifier members).body ++ rest)) := by
      apply x.cut
      rintro c ⟨⟩
      decide
    have hdot : Cut ('.' :: ((path m.identifier members).body ++ rest)) [.mark ['.']]
        ((path m.identifier members).body ++ rest) := by
      rw [hpath]
      exact tokens?_mark (m := ['.']) (by decide) hc
    rw [body_path_cons, List.append_assoc, List.cons_append]
    exact hname.trans (hdot.trans (ih m.identifier))

/-- In front of what ends it, the body of an operand is cut into its tokens. -/
theorem cut_body (e : Operand) {rest : List Char}
    (hrest : ∀ c, rest.head? = some c → Formula.Ends c) :
    Cut (e.body ++ rest) e.bodyTokens rest := by
  induction e generalizing rest with
  | path x members => exact cut_path x members hrest
  | number n => exact tokens?_digits hrest
  | leading s operand ih => exact ih hrest
  | trailing s operand ih =>
    have hsign : ∀ c, (s.doubled ++ rest).head? = some c → Formula.Ends c := by
      rintro c ⟨⟩
      exact s.ends_char
    rw [body, List.append_assoc]
    exact (ih hsign).trans (s.cut_doubled rest)
  | joined op left right ihl ihr =>
    -- The signs of the right operand are cut with the symbol; only its body is left to induction.
    obtain ⟨c, cs, hright, hc⟩ := right.exists_head
    have hcut := op.cut_tokens right.signs hc (cs ++ rest)
    rw [← List.cons_append, ← hright] at hcut
    rw [body, List.append_assoc, List.append_assoc, List.append_assoc]
    exact (ihl (op.ends_head _)).trans (hcut.trans (ihr hrest))

/-- An operand alone is cut into its tokens. -/
theorem tokens?_text (e : Operand) : tokens? e.text.toList = some e.tokens := by
  obtain ⟨c, cs, hbody, hc⟩ := e.exists_head
  have hsigns := cut_signs e.signs hc cs
  have hrest : Cut (e.body ++ []) e.bodyTokens [] := e.cut_body (by simp)
  rw [← hbody] at hsigns
  rw [List.append_nil] at hrest
  rw [toList_text]
  exact (hsigns.trans hrest).tokens?_eq

/-- An operand starts with a sign: it is a negative number or has a doubled sign in front, or its
operand or its left operand starts with that sign. -/
inductive StartsWith (s : Sign) : Operand → Prop
  | number {n : Int64} (hs : s = .minus) (hn : n.toInt < 0) : StartsWith s (number n)
  | leading (operand : Operand) : StartsWith s (leading s operand)
  | trailing {operand : Operand} (t : Sign) (h : StartsWith s operand) :
      StartsWith s (trailing t operand)
  | joined {left : Operand} (op : Connective) (right : Operand) (h : StartsWith s left) :
      StartsWith s (joined op left right)

theorem startsWith_iff {s : Sign} {e : Operand} : e.StartsWith s ↔ e.signs.head? = some s := by
  constructor
  · intro h
    induction h with
    | number hs hn => rw [signs, if_pos hn, hs]; rfl
    | leading operand => rfl
    | trailing t h ih => exact ih
    | joined op right h ih => exact ih
  · intro h
    induction e with
    | path x members => cases h
    | number n =>
      by_cases hn : n.toInt < 0
      · rw [signs, if_pos hn] at h
        cases h
        exact .number rfl hn
      · rw [signs, if_neg hn] at h
        cases h
    | leading t operand ih =>
      cases h
      exact .leading operand
    | trailing t operand ih => exact .trailing t (ih h)
    | joined op left right ihl _ => exact .joined op right (ihl h)

end Operand

open LambdaScript.Expr

/-- Boundaries of operators. Two operands and the operation on them are written, the operation with
its symbol between the two texts, and all three texts are cut into tokens. The tokens of the
operation start with those of the left operand, and the symbol and the tokens of the right operand
follow them if and only if the symbol is not the sign that the right operand starts with. -/
theorem symbol_separate_iff (op : Connective) (left right : Operand) :
    ∃ (s t : String) (ts us vs : List Token),
      unarmed (.closure false .empty none) left.toExpr = .ok (some s) ∧
      unarmed (.closure false .empty none) right.toExpr = .ok (some t) ∧
      unarmed (.closure false .empty none) (binary op.op left.toExpr right.toExpr) =
        .ok (some (s ++ op.symbol ++ t)) ∧
      tokens? s.toList = some ts ∧ tokens? t.toList = some us ∧
      tokens? (s ++ op.symbol ++ t).toList = some (ts ++ vs) ∧
      (vs = .mark op.symbol.toList :: us ↔
        ∀ sign, right.StartsWith sign → op.symbol ≠ String.singleton sign.char) := by
  have hwritten := (Operand.joined op left right).unarmed_toExpr .empty
  have htokens := (Operand.joined op left right).tokens?_text
  rw [Operand.text_joined] at hwritten htokens
  rw [Operand.tokens_joined] at htokens
  refine ⟨left.text, right.text, left.tokens, right.tokens, _, left.unarmed_toExpr .empty,
    right.unarmed_toExpr .empty, hwritten, left.tokens?_text, right.tokens?_text, htokens, ?_⟩
  rw [Operand.tokens, ← List.cons_append, List.append_left_inj, op.tokens_eq_iff]
  simp only [Operand.startsWith_iff]

def subtractedNegative : Expr := binary .subtract (parameter "a") (constant (.integer (-5)))

/-- The text `a--5` of that difference has a decrement in place of the two signs. -/
theorem subtractedNegative_merges :
    unarmed (.closure false .empty none) subtractedNegative = .ok (some "a--5") ∧
      tokens? "a".toList = some [.word "a"] ∧
      tokens? "-5".toList = some [.mark ['-'], .numeral ['5']] ∧
      tokens? "a--5".toList = some [.word "a", .mark ['-', '-'], .numeral ['5']] := by
  let a : Operand := .path ⟨"a", by decide⟩ []
  let five : Operand := .number (-5)
  exact ⟨rfl, a.tokens?_text, five.tokens?_text,
    (Operand.joined ⟨.subtract, "-", rfl⟩ a five).tokens?_text⟩

end LambdaScript.Reading
