import LambdaScript.Text.Join

/-! # Joined texts

A row of texts with a mark between neighbours, taken apart at either end.
-/

namespace LambdaScript.Text

theorem joinWith_cons (mark text : String) {texts : List String} (h : texts ≠ []) :
    joinWith mark (text :: texts) = text ++ mark ++ joinWith mark texts := by
  cases texts with
  | nil => exact absurd rfl h
  | cons t rest => rfl

theorem joinWith_concat {mark : String} {texts : List String} (h : texts ≠ [])
    (text : String) : joinWith mark (texts ++ [text]) = joinWith mark texts ++ mark ++ text := by
  fun_induction joinWith mark texts with
  | case1 => exact absurd rfl h
  | case2 s => rfl
  | case3 s t rest ih =>
    change s ++ mark ++ joinWith mark (t :: rest ++ [text]) = _
    rw [ih (by simp)]
    simp [String.append_assoc]

/-- Joined texts start with the first one. -/
theorem exists_toList_commas (text : String) (texts : List String) :
    ∃ rest, (commas (text :: texts)).toList = text.toList ++ rest := by
  by_cases h : texts = []
  · subst h
    exact ⟨[], (List.append_nil _).symm⟩
  · rw [commas, joinWith_cons "," text h]
    exact ⟨_, by rw [String.toList_append, String.toList_append, List.append_assoc]⟩

end LambdaScript.Text
