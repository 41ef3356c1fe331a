import LambdaScript.Text.Join
import Mathlib.Data.List.Forall2

/-! # Reading by steps

A reader that takes one character after the other is a step on states that may refuse a character.
What it does with a text follows from what it does with the parts of the text: with words that grow
by their characters, and with rows of parts that are separated by commas.
-/

namespace LambdaScript.Reading
variable {σ : Type} {step : σ → Char → Option σ}

def scan (step : σ → Char → Option σ) (s : σ) (cs : List Char) : Option σ := cs.foldlM step s

@[simp] theorem scan_nil (s : σ) : scan step s [] = some s := rfl

@[simp] theorem scan_singleton (s : σ) (c : Char) : scan step s [c] = step s c :=
  Option.bind_fun_some _

theorem scan_cons_of_step {s s' : σ} {c : Char} (h : step s c = some s') (cs : List Char) :
    scan step s (c :: cs) = scan step s' cs := by
  rw [scan, List.foldlM_cons, h]
  rfl

theorem scan_append_of_scan {s s' : σ} {cs : List Char} (h : scan step s cs = some s')
    (ds : List Char) : scan step s (cs ++ ds) = scan step s' ds := by
  rw [scan] at h
  rw [scan, List.foldlM_append, h]
  rfl

/-- A state that keeps the characters of a word grows by them. -/
theorem scan_grow (grow : List Char → σ) {cs : List Char}
    (h : ∀ c ∈ cs, ∀ start, step (grow start) c = some (grow (start ++ [c])))
    (start : List Char) : scan step (grow start) cs = some (grow (start ++ cs)) := by
  induction cs generalizing start with
  | nil => simp
  | cons c cs ih =>
    rw [List.forall_mem_cons] at h
    rw [scan_cons_of_step (h.1 start), ih h.2]
    simp

/-- Parts between commas, if what is read before, between and after them is known. -/
theorem scan_commas {α : Type} {R : String → α → Prop} (before after : List α → σ) {close : Char}
    (next : ∀ xs t x, R t x → scan step (before xs) (t.toList ++ [',']) = some (before (xs ++ [x])))
    (last : ∀ xs t x, R t x →
      scan step (before xs) (t.toList ++ [close]) = some (after (xs ++ [x])))
    {ts : List String} {xs : List α} (h : List.Forall₂ R ts xs) (hne : ts ≠ []) (start : List α) :
    scan step (before start) ((Text.commas ts).toList ++ [close]) = some (after (start ++ xs)) := by
  induction h generalizing start with
  | nil => exact absurd rfl hne
  | @cons t x ts xs ht hts ih =>
    cases hts with
    | nil => exact last start t x ht
    | @cons u y us ys hu hus =>
      have hcommas : (Text.commas (t :: u :: us)).toList ++ [close] =
          (t.toList ++ [',']) ++ ((Text.commas (u :: us)).toList ++ [close]) := by
        simp [Text.commas, Text.joinWith]
      rw [hcommas, scan_append_of_scan (next start t x ht), ih (by simp)]
      simp

end LambdaScript.Reading
