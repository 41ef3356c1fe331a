import LambdaScript.Proofs.Text.Digits
import LambdaScript.Text.Digits
import Mathlib.Data.List.Basic
import Mathlib.Data.List.Induction
import Mathlib.Data.List.TakeWhile
import Mathlib.Data.Nat.Digits.Defs

/-! # Numerals between blanks

The blanks around a text are those at its ends, as far as they go: what is left is determined by
starting and ending with something else. A text is read as an integer exactly if it is a numeral, an
optional sign and a row of digits, and the integer is the value of the numeral.
-/

namespace LambdaScript.Text

/-- A text is made of blanks around its core, and the core neither starts nor ends with a blank. -/
structure Stripped (cs core : List Char) : Prop where
  blanks : ∃ before after, cs = before ++ (core ++ after) ∧
    (∀ c ∈ before, isBlank c = true) ∧ ∀ c ∈ after, isBlank c = true
  first : ∀ c, core.head? = some c → isBlank c = false
  last : ∀ c, core.getLast? = some c → isBlank c = false

theorem eq_false_of_head?_dropWhile {p : Char → Bool} {cs : List Char} {c : Char}
    (h : (cs.dropWhile p).head? = some c) : p c = false := by
  have hhead := List.head?_dropWhile_not p cs
  rw [h] at hhead
  exact hhead

theorem stripped_trim (cs : List Char) : Stripped cs (trim cs) := by
  have hend : trim cs ++ ((trimStart cs).reverse.takeWhile isBlank).reverse = trimStart cs := by
    rw [trim, trimEnd, ← List.reverse_append, List.takeWhile_append_dropWhile, List.reverse_reverse]
  refine ⟨⟨cs.takeWhile isBlank, ((trimStart cs).reverse.takeWhile isBlank).reverse, ?_, ?_, ?_⟩,
    ?_, ?_⟩
  · rw [hend, trimStart, List.takeWhile_append_dropWhile]
  · exact List.all_eq_true.mp List.all_takeWhile
  · intro c hc
    exact List.all_eq_true.mp List.all_takeWhile c (List.mem_reverse.mp hc)
  · intro c hc
    have hstart : (trimStart cs).head? = some c := by
      rw [← hend, List.head?_append, hc, Option.some_or]
    exact eq_false_of_head?_dropWhile hstart
  · intro c hc
    rw [trim, trimEnd, List.getLast?_reverse] at hc
    exact eq_false_of_head?_dropWhile hc

/-- Trimming leaves the core and nothing else. -/
theorem Stripped.trim_eq {cs core : List Char} (h : Stripped cs core) : trim cs = core := by
  obtain ⟨⟨before, after, rfl, hbefore, hafter⟩, hfirst, hlast⟩ := h
  by_cases hcore : core = []
  · subst hcore
    have hblank : trimStart (before ++ ([] ++ after)) = [] := by
      rw [trimStart, List.dropWhile_eq_nil_iff]
      intro c hc
      rcases List.mem_append.mp hc with hc | hc
      · exact hbefore c hc
      · exact hafter c hc
    rw [trim, hblank]
    rfl
  · have hstart : trimStart (before ++ (core ++ after)) = core ++ after := by
      refine (takeWhile_append_eq hbefore fun c hc => hfirst c ?_).2
      rwa [List.head?_append_of_ne_nil _ hcore] at hc
    have hend : (core ++ after).reverse.dropWhile isBlank = core.reverse := by
      rw [List.reverse_append]
      refine (takeWhile_append_eq (fun c hc => hafter c (List.mem_reverse.mp hc)) fun c hc => ?_).2
      exact hlast c (List.head?_reverse ▸ hc)
    rw [trim, hstart, trimEnd, hend, List.reverse_reverse]

/-- At least one digit, and nothing else. -/
def IsDigitRow (ds : List Char) : Prop := ds ≠ [] ∧ ∀ c ∈ ds, isDigit c = true

def rowValue (ds : List Char) : Nat := Nat.ofDigits 10 (ds.reverse.map digitValue)

/-- The integers that numerals denote: a row of digits with at most one sign in front. -/
inductive Numeral : List Char → Int → Prop
  | unsigned {ds : List Char} (row : IsDigitRow ds) : Numeral ds (rowValue ds)
  | plus {ds : List Char} (row : IsDigitRow ds) : Numeral ('+' :: ds) (rowValue ds)
  | minus {ds : List Char} (row : IsDigitRow ds) : Numeral ('-' :: ds) (-(rowValue ds : Int))

theorem ofDigits_eq_rowValue (ds : List Char) : ofDigits ds = rowValue ds := by
  induction ds using List.reverseRecOn with
  | nil => rfl
  | append_singleton ds c ih =>
    rw [ofDigits, List.foldl_append, ← ofDigits, ih]
    simp [rowValue, Nat.ofDigits_cons, Nat.add_comm]

theorem readNat?_eq_some_iff {cs : List Char} {n : Nat} :
    readNat? cs = some n ↔ IsDigitRow cs ∧ rowValue cs = n := by
  simp [readNat?, IsDigitRow, ofDigits_eq_rowValue]

/-- A text is read as an integer exactly if it is a numeral of that integer. -/
theorem readInt?_eq_some_iff {cs : List Char} {n : Int} :
    readInt? cs = some n ↔ Numeral cs n := by
  constructor
  · intro h
    unfold readInt? at h
    split at h
    all_goals
      simp only [Option.map_eq_some_iff, Option.bind_eq_bind, Option.bind_eq_some_iff,
        Option.pure_def, Option.some.injEq, readNat?_eq_some_iff] at h
      obtain ⟨-, ⟨-, ⟨row, rfl⟩, rfl⟩, rfl⟩ := h
    · exact .minus row
    · exact .plus row
    · exact .unsigned row
  · intro h
    cases h with
    | unsigned row =>
      have hread := readNat?_eq_some_iff.mpr ⟨row, rfl⟩
      unfold readInt?
      split
      · next ds => exact absurd (row.2 '-' (by simp)) (by decide)
      · next ds => exact absurd (row.2 '+' (by simp)) (by decide)
      · rw [hread]
        rfl
    | plus row =>
      rw [readInt?, readNat?_eq_some_iff.mpr ⟨row, rfl⟩]
      rfl
    | minus row =>
      rw [readInt?, readNat?_eq_some_iff.mpr ⟨row, rfl⟩]
      rfl

end LambdaScript.Text
