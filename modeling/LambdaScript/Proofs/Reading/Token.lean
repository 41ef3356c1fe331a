import LambdaScript.Proofs.Text.Digits
import Mathlib.Data.List.Find

/-! # Tokens of a script

A script is cut into tokens from the left, and each token is the longest one that stands there. Only
names, whole decimal numbers and marks are cut; texts with blanks, comments or other literals are
refused. Every character beyond the ASCII ones counts as a letter.
-/

namespace LambdaScript.Reading
open Text

inductive Token where
  | word (name : String)
  | numeral (digits : List Char)
  | mark (symbol : List Char)
deriving DecidableEq

def isNameStart (c : Char) : Bool :=
  ('a' ≤ c && c ≤ 'z') || ('A' ≤ c && c ≤ 'Z') || c = '_' || c = '$' || '\x80' ≤ c

def isNamePart (c : Char) : Bool := isNameStart c || isDigit c

def isName : List Char → Bool
  | [] => false
  | c :: cs => isNameStart c && cs.all isNamePart

/-- The marks, longer ones first. -/
def marks : List (List Char) :=
  [">>>=", "...", "===", "!==", "**=", "<<=", ">>=", ">>>", "&&=", "||=", "??=", "=>", "==", "!=",
    "<=", ">=", "&&", "||", "??", "?.", "++", "--", "+=", "-=", "*=", "/=", "%=", "&=", "|=", "^=",
    "<<", ">>", "**", "\x7b", "\x7d", "(", ")", "[", "]", ".", ";", ",", "<", ">", "+", "-", "*",
    "/", "%", "&", "|", "^", "!", "~", "?", ":", "="].map String.toList

def startsComment (cs : List Char) : Bool :=
  "//".toList.isPrefixOf cs || "/*".toList.isPrefixOf cs

/-- Whether a row of digits is a decimal number in front of a text: it has no leading zero, and
neither a name nor a fraction follows. -/
def isNumeral (ds rest : List Char) : Bool :=
  (ds.head? ≠ some '0' || ds = ['0']) && !rest.head?.any fun c => isNamePart c || c = '.'

/-- The longest token at the front of a text, and what follows it. -/
def next? (cs : List Char) : Option (Token × List Char) :=
  match cs with
  | [] => none
  | c :: _ =>
    if isNameStart c then
      some (.word (String.ofList (cs.takeWhile isNamePart)), cs.dropWhile isNamePart)
    else if isDigit c then
      if isNumeral (cs.takeWhile isDigit) (cs.dropWhile isDigit) then
        some (.numeral (cs.takeWhile isDigit), cs.dropWhile isDigit)
      else none
    else if startsComment cs then none
    else (marks.find? (·.isPrefixOf cs)).map fun m => (.mark m, cs.drop m.length)

theorem isNamePart_of_isNameStart {c : Char} (h : isNameStart c = true) : isNamePart c = true := by
  simp [isNamePart, h]

theorem isNamePart_of_isDigit {c : Char} (h : isDigit c = true) : isNamePart c = true := by
  simp [isNamePart, h]

theorem isNamePart_of_isName {cs : List Char} (h : isName cs = true) :
    ∀ c ∈ cs, isNamePart c = true := by
  cases cs with
  | nil => cases h
  | cons c cs =>
    rw [isName, Bool.and_eq_true, List.all_eq_true] at h
    exact List.forall_mem_cons.mpr ⟨isNamePart_of_isNameStart h.1, h.2⟩

theorem marks_pos : ∀ m ∈ marks, 0 < m.length := by decide

theorem length_dropWhile_lt {p : Char → Bool} {c : Char} (cs : List Char) (h : p c = true) :
    ((c :: cs).dropWhile p).length < (c :: cs).length := by
  rw [List.dropWhile_cons_of_pos h]
  exact Nat.lt_succ_of_le (List.dropWhile_sublist p).length_le

theorem length_lt_of_next? {cs rest : List Char} {t : Token} (h : next? cs = some (t, rest)) :
    rest.length < cs.length := by
  cases cs with
  | nil => cases h
  | cons c cs =>
    rw [next?] at h
    split at h
    · next hc =>
      cases h
      exact length_dropWhile_lt cs (isNamePart_of_isNameStart hc)
    · split at h
      · next hc =>
        split at h
        · cases h
          exact length_dropWhile_lt cs hc
        · cases h
      · split at h
        · cases h
        · obtain ⟨m, hm, h⟩ := Option.map_eq_some_iff.mp h
          cases h
          have hpos := marks_pos m (List.mem_of_find?_eq_some hm)
          rw [List.length_drop, List.length_cons]
          omega

def tokens? (cs : List Char) : Option (List Token) :=
  if cs = [] then some [] else
    match _h : next? cs with
    | some (t, rest) => (tokens? rest).map (t :: ·)
    | none => none
termination_by cs.length
decreasing_by exact length_lt_of_next? _h

@[simp] theorem tokens?_nil : tokens? [] = some [] := by
  rw [tokens?, if_pos rfl]

theorem tokens?_of_next? {cs rest : List Char} {t : Token} (h : next? cs = some (t, rest)) :
    tokens? cs = (tokens? rest).map (t :: ·) := by
  have hne : cs ≠ [] := by
    rintro rfl
    cases h
  rw [tokens?, if_neg hne]
  split
  · next h' =>
    rw [h] at h'
    cases h'
    rfl
  · next h' => simp [h] at h'

/-- A name ends where no part of a name follows. -/
theorem tokens?_word {cs rest : List Char} (hcs : isName cs = true)
    (hrest : ∀ c, rest.head? = some c → isNamePart c = false) :
    tokens? (cs ++ rest) = (tokens? rest).map (.word (String.ofList cs) :: ·) := by
  obtain ⟨htake, hdrop⟩ := takeWhile_append_eq (isNamePart_of_isName hcs) hrest
  cases cs with
  | nil => cases hcs
  | cons c cs =>
    rw [isName, Bool.and_eq_true] at hcs
    refine tokens?_of_next? ?_
    rw [List.cons_append] at htake hdrop ⊢
    rw [next?, if_pos hcs.1, htake, hdrop]

theorem isNameStart_eq_false_of_isDigit {c : Char} (h : isDigit c = true) :
    isNameStart c = false := by
  simp only [isDigit, Bool.and_eq_true, decide_eq_true_eq] at h
  have hlow : 48 ≤ c.toNat := h.1
  have hhigh : c.toNat ≤ 57 := h.2
  have hbelow : ∀ d : Char, 58 ≤ d.toNat → ¬ d ≤ c := by
    intro d hd hle
    have hle' : d.toNat ≤ c.toNat := hle
    omega
  have hunderscore : c ≠ '_' := by
    rintro rfl
    exact absurd hhigh (by decide)
  have hdollar : c ≠ '$' := by
    rintro rfl
    exact absurd hlow (by decide)
  simp [isNameStart, hunderscore, hdollar, hbelow 'a' (by decide), hbelow 'A' (by decide),
    hbelow '\x80' (by decide)]

/-- The digits of a number end where neither a part of a name nor a point follows. -/
theorem tokens?_digits {n : Nat} {rest : List Char}
    (hrest : ∀ c, rest.head? = some c → isNamePart c = false ∧ c ≠ '.') :
    tokens? (digits n ++ rest) = (tokens? rest).map (.numeral (digits n) :: ·) := by
  have hdigits : ∀ c, rest.head? = some c → isDigit c = false := by
    intro c hc
    have hpart := (hrest c hc).1
    rw [isNamePart, Bool.or_eq_false_iff] at hpart
    exact hpart.2
  obtain ⟨htake, hdrop⟩ := takeWhile_append_eq (fun c hc => isDigit_of_mem_digits hc) hdigits
  have hnumeral : isNumeral (digits n) rest = true := by
    rw [isNumeral, Bool.and_eq_true]
    constructor
    · by_cases h : (digits n).head? = some '0'
      · simp [digits_eq_zero_of_head h]
      · simp [h]
    · cases rest with
      | nil => rfl
      | cons c rest => simpa using hrest c rfl
  refine tokens?_of_next? ?_
  obtain ⟨c, cs, hn, hc⟩ := exists_digits_eq_cons n
  rw [hn] at htake hdrop hnumeral ⊢
  rw [List.cons_append] at htake hdrop ⊢
  rw [next?, isNameStart_eq_false_of_isDigit hc, hc, htake, hdrop, hnumeral]
  rfl

def isSymbolic (cs : List Char) : Bool := cs.all fun c => !isNamePart c

theorem isSymbolic_of_mem_marks : ∀ m ∈ marks, isSymbolic m = true := by decide

/-- Every mark is the longest one at its own front. -/
theorem find?_marks : ∀ m ∈ marks, marks.find? (·.isPrefixOf m) = some m := by decide

theorem not_startsComment : ∀ m ∈ marks, startsComment m = false := by decide

theorem not_append_prefix_of_isNamePart {p : List Char} {c : Char} (m : List Char)
    (hp : isSymbolic p = true) (hc : isNamePart c = true) : ¬ m ++ [c] <+: p := by
  intro h
  have hmem : c ∈ p := h.subset (by simp)
  rw [isSymbolic, List.all_eq_true] at hp
  simpa [hc] using hp c hmem

theorem isPrefixOf_append_cons {p m rest : List Char} {c : Char} (h : ¬ m ++ [c] <+: p) :
    p.isPrefixOf (m ++ c :: rest) = p.isPrefixOf m := by
  rw [Bool.eq_iff_iff, List.isPrefixOf_iff_prefix, List.isPrefixOf_iff_prefix]
  constructor
  · intro hp
    have hm : m ++ [c] <+: m ++ c :: rest := ⟨rest, by simp⟩
    rcases Nat.lt_or_ge m.length p.length with hlt | hle
    · have hlength : (m ++ [c]).length ≤ p.length := by
        rw [List.length_append]
        exact hlt
      exact absurd (List.prefix_of_prefix_length_le hm hp hlength) h
    · exact List.prefix_of_prefix_length_le hp (List.prefix_append m _) hle
  · intro hp
    exact hp.trans (List.prefix_append m _)

/-- Whether a mark or the start of a comment goes on with a character. -/
def goesOn (m : List Char) (c : Char) : Bool :=
  ("//".toList :: "/*".toList :: marks).any ((m ++ [c]).isPrefixOf ·)

/-- No mark goes on with a part of a name. -/
theorem goesOn_eq_false {m : List Char} {c : Char} (hc : isNamePart c = true) :
    goesOn m c = false := by
  have hsymbolic : ∀ p ∈ "//".toList :: "/*".toList :: marks, isSymbolic p = true := by decide
  rw [goesOn, List.any_eq_false]
  intro p hp
  rw [List.isPrefixOf_iff_prefix]
  exact not_append_prefix_of_isNamePart m (hsymbolic p hp) hc

/-- A mark ends where no longer one goes on. -/
theorem tokens?_mark_of_goesOn {m rest : List Char} {c : Char} (hm : m ∈ marks)
    (hc : goesOn m c = false) :
    tokens? (m ++ c :: rest) = (tokens? (c :: rest)).map (.mark m :: ·) := by
  have hlonger : ∀ p ∈ "//".toList :: "/*".toList :: marks, ¬ m ++ [c] <+: p := by
    intro p hp hprefix
    rw [goesOn, List.any_eq_false] at hc
    exact hc p hp (List.isPrefixOf_iff_prefix.mpr hprefix)
  have hcomment : startsComment (m ++ c :: rest) = false := by
    rw [startsComment, isPrefixOf_append_cons (hlonger _ (by simp)),
      isPrefixOf_append_cons (hlonger _ (by simp))]
    exact not_startsComment m hm
  have hfind : marks.find? (·.isPrefixOf (m ++ c :: rest)) = some m := by
    rw [← find?_marks m hm]
    exact List.find?_congr fun p hp => isPrefixOf_append_cons (hlonger p (by simp [hp]))
  refine tokens?_of_next? ?_
  obtain ⟨d, ds, rfl⟩ := List.exists_cons_of_ne_nil (List.ne_nil_of_length_pos (marks_pos m hm))
  have hd := isSymbolic_of_mem_marks _ hm
  rw [isSymbolic, List.all_cons, Bool.and_eq_true, Bool.not_eq_true', isNamePart,
    Bool.or_eq_false_iff] at hd
  rw [List.cons_append] at hcomment hfind ⊢
  rw [next?, hd.1.1, hd.1.2, hcomment, hfind]
  simp

/-- A mark ends where a part of a name follows. -/
theorem tokens?_mark {m rest : List Char} {c : Char} (hm : m ∈ marks) (hc : isNamePart c = true) :
    tokens? (m ++ c :: rest) = (tokens? (c :: rest)).map (.mark m :: ·) :=
  tokens?_mark_of_goesOn hm (goesOn_eq_false hc)

end LambdaScript.Reading
