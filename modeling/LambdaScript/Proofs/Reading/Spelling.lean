import LambdaScript.Emit
import LambdaScript.Proofs.Reading.Reader

/-! # Texts that spell expressions

A text spells an expression if the reader has the expression complete where the text ends, whichever
brackets are open around it. Texts made from spellings are spellings again, one lemma for each form:
the reader goes through the parts, and the mark between two of them says what the first is part of.
-/

namespace LambdaScript.Reading
open Text

/-- A text spells an expression: wherever it is read, the expression stands where it ends. -/
def Spells (t : String) (e : Expr) : Prop :=
  ∀ fs, ∃ m, run ⟨.fresh, fs⟩ t.toList = some ⟨m, fs⟩ ∧ m.operand? = some e

variable {t name : String} {e : Expr} {fs : List Frame}

theorem Spells.read? (h : Spells t e) : read? t = some e := by
  obtain ⟨m, hrun, hm⟩ := h []
  rw [Reading.read?, hrun, Option.bind_some, hm]

/-- An expression and the mark after it. -/
theorem Spells.run_mark (h : Spells t e) {c : Char} (hc : isNamePart c = false) :
    run ⟨.fresh, fs⟩ (t.toList ++ [c]) = after? e c fs := by
  obtain ⟨m, hrun, hm⟩ := h fs
  rw [run_append_of_run hrun, run_singleton, step_operand hc hm]

theorem spells_parameter (h : isName name.toList = true) : Spells name (.parameter name) := by
  intro fs
  have hne : name.toList ≠ [] := by
    intro hnil
    rw [hnil] at h
    cases h
  refine ⟨_, run_fresh_word hne (isNamePart_of_isName h), ?_⟩
  rw [Mode.operand?, word?, if_pos h, String.ofList_toList]

theorem spells_string {s : String} (h : '"' ∉ s.toList) :
    Spells (enclose s) (.constant (.string s)) := by
  intro fs
  refine ⟨.complete (.constant (.string s)), ?_, rfl⟩
  have htext : (enclose s).toList = '"' :: (s.toList ++ ['"']) := by simp [enclose]
  have hopen : step ⟨.fresh, fs⟩ '"' = some ⟨.quoted [], fs⟩ := rfl
  rw [htext, run_cons_of_step hopen, run_quoted h, List.nil_append, String.ofList_toList]

theorem isName_intText (n : Int) : isName (intText n).toList = false := by
  by_cases hn : n < 0
  · rw [toList_intText_of_neg hn]
    rfl
  · obtain ⟨c, cs, hcs, hc⟩ := exists_digits_eq_cons n.natAbs
    rw [toList_intText (Int.not_lt.mp hn), hcs, isName, isNameStart_eq_false_of_isDigit hc,
      Bool.false_and]

theorem spells_integer (n : Int64) : Spells (intText n.toInt) (.constant (.integer n)) := by
  intro fs
  have hdigits : ∀ c ∈ digits n.toInt.natAbs, isNamePart c = true :=
    fun c hc => isNamePart_of_isDigit (isDigit_of_mem_digits hc)
  refine ⟨.word (intText n.toInt).toList, ?_, ?_⟩
  · by_cases hn : n.toInt < 0
    · have hsign : step ⟨.fresh, fs⟩ '-' = some ⟨.word ['-'], fs⟩ := rfl
      rw [toList_intText_of_neg hn, run_cons_of_step hsign]
      exact run_extend .word (fun _ _ => rfl) hdigits ['-']
    · rw [toList_intText (Int.not_lt.mp hn)]
      exact run_fresh_word (digits_ne_nil _) hdigits
  · rw [Mode.operand?, word?, isName_intText, if_neg (by decide), readInt?_intText,
      Option.bind_some, Word.ofInt?_toInt, Option.map_some]

theorem Spells.member (h : Spells t e) (hname : isName name.toList = true) :
    Spells (pathText (some t) name) (.member e (.ofName name)) := by
  intro fs
  refine ⟨.label e name.toList, ?_, by rw [Mode.operand?, String.ofList_toList]⟩
  have htext : (pathText (some t) name).toList = (t.toList ++ ['.']) ++ name.toList := by
    simp [pathText]
  have hdot : run ⟨.fresh, fs⟩ (t.toList ++ ['.']) = some ⟨.label e [], fs⟩ :=
    h.run_mark (by decide)
  rw [htext, run_append_of_run hdot]
  exact run_extend (.label e) (fun _ _ => rfl) (isNamePart_of_isName hname) []

/-- A row from its opening bracket to its closing one. -/
theorem run_row {ts : List String} {es : List Expr} (h : List.Forall₂ Spells ts es) (r : Row) :
    run ⟨.fresh, .row r [] :: fs⟩ ((commas ts).toList ++ [r.close]) =
      some ⟨.complete (r.build es), fs⟩ := by
  cases h with
  | nil => cases r <;> rfl
  | cons ht hts =>
    refine run_commas (fun es => ⟨.fresh, .row r es :: fs⟩)
      (fun es => ⟨.complete (r.build es), fs⟩) ?_ ?_ (.cons ht hts) (by simp) []
    · intro es t e ht
      exact ht.run_mark (by decide)
    · intro es t e ht
      rw [ht.run_mark (by cases r <;> rfl)]
      cases r <;> rfl

theorem spells_newArray {ts : List String} {es : List Expr} (h : List.Forall₂ Spells ts es) :
    Spells ("[" ++ commas ts ++ "]") (.newArray es) := by
  intro fs
  refine ⟨.complete (.newArray es), ?_, rfl⟩
  have htext : ("[" ++ commas ts ++ "]").toList = '[' :: ((commas ts).toList ++ [']']) := by simp
  have hopen : step ⟨.fresh, fs⟩ '[' = some ⟨.fresh, .row .array [] :: fs⟩ := rfl
  rw [htext, run_cons_of_step hopen]
  exact run_row h .array

theorem Spells.index {ts : List String} {es : List Expr} (h : Spells t e)
    (hts : List.Forall₂ Spells ts es) :
    Spells (t ++ "[" ++ commas ts ++ "]") (.index e es) := by
  intro fs
  refine ⟨.complete (.index e es), ?_, rfl⟩
  have htext : (t ++ "[" ++ commas ts ++ "]").toList =
      (t.toList ++ ['[']) ++ ((commas ts).toList ++ [']']) := by simp
  have hopen : run ⟨.fresh, fs⟩ (t.toList ++ ['[']) = some ⟨.fresh, .row (.index e) [] :: fs⟩ :=
    h.run_mark (by decide)
  rw [htext, run_append_of_run hopen]
  exact run_row hts (.index e)

/-- An expression between parentheses. -/
theorem Spells.run_group (h : Spells t e) :
    run ⟨.fresh, fs⟩ ('(' :: (t.toList ++ [')'])) = some ⟨.grouped e, fs⟩ := by
  have hopen : step ⟨.fresh, fs⟩ '(' = some ⟨.fresh, .group :: fs⟩ := rfl
  rw [run_cons_of_step hopen]
  exact h.run_mark (by decide)

theorem Spells.call {ts : List String} {es : List Expr} (h : Spells t e)
    (hname : isName name.toList = true) (hts : List.Forall₂ Spells ts es) :
    Spells (callText ("(" ++ t ++ ")." ++ name) ts) (.call (some e) (.ofName name) es) := by
  intro fs
  refine ⟨.complete (.call (some e) (.ofName name) es), ?_, rfl⟩
  have htext : (callText ("(" ++ t ++ ")." ++ name) ts).toList =
      '(' :: (t.toList ++ [')']) ++
        '.' :: (name.toList ++ '(' :: ((commas ts).toList ++ [')'])) := by
    simp [callText]
  have hdot : step ⟨.grouped e, fs⟩ '.' = some ⟨.method e [], fs⟩ := rfl
  have hparen : step ⟨.method e name.toList, fs⟩ '(' =
      some ⟨.fresh, .row (.call e (String.ofList name.toList)) [] :: fs⟩ := rfl
  have hmethod : run ⟨.method e [], fs⟩ name.toList = some ⟨.method e name.toList, fs⟩ :=
    run_extend (.method e) (fun _ _ => rfl) (isNamePart_of_isName hname) []
  rw [htext, run_append_of_run h.run_group, run_cons_of_step hdot, run_append_of_run hmethod,
    run_cons_of_step hparen, String.ofList_toList]
  exact run_row hts (.call e name)

/-- A test between parentheses, its question mark, and the first branch. -/
theorem Spells.run_branch {u : String} {test ifTrue : Expr} (ht : Spells t test)
    (hu : Spells u ifTrue) :
    run ⟨.fresh, fs⟩ ("((" ++ t ++ ")?(" ++ u ++ ")").toList =
      some ⟨.grouped ifTrue, .branch test :: fs⟩ := by
  have htext : ("((" ++ t ++ ")?(" ++ u ++ ")").toList =
      '(' :: ('(' :: (t.toList ++ [')']) ++ '?' :: '(' :: (u.toList ++ [')'])) := by simp
  have hopen : step ⟨.fresh, fs⟩ '(' = some ⟨.fresh, .group :: fs⟩ := rfl
  have htest : step ⟨.grouped test, .group :: fs⟩ '?' = some ⟨.fresh, .branch test :: fs⟩ := rfl
  rw [htext, run_cons_of_step hopen, run_append_of_run ht.run_group, run_cons_of_step htest,
    hu.run_group]

theorem Spells.conditional_none {u : String} {test ifTrue : Expr} (ht : Spells t test)
    (hu : Spells u ifTrue) : Spells (conditionalText t u none) (.conditional test ifTrue none) := by
  intro fs
  refine ⟨.complete (.conditional test ifTrue none), ?_, rfl⟩
  rw [conditionalText, String.toList_append, run_append_of_run (ht.run_branch hu)]
  rfl

theorem Spells.conditional_some {u v : String} {test ifTrue ifFalse : Expr} (ht : Spells t test)
    (hu : Spells u ifTrue) (hv : Spells v ifFalse) :
    Spells (conditionalText t u (some v)) (.conditional test ifTrue (some ifFalse)) := by
  intro fs
  refine ⟨.complete (.conditional test ifTrue (some ifFalse)), ?_, rfl⟩
  have htext : (":(" ++ v ++ "))").toList = ':' :: ('(' :: (v.toList ++ [')']) ++ [')']) := by simp
  have hcolon : step ⟨.grouped ifTrue, .branch test :: fs⟩ ':' =
      some ⟨.fresh, .alternative test ifTrue :: fs⟩ := rfl
  rw [conditionalText, String.toList_append, run_append_of_run (ht.run_branch hu), htext,
    run_cons_of_step hcolon, run_append_of_run hv.run_group]
  rfl

def SpellsPair (u : String) (pair : String × Expr) : Prop :=
  ∃ t, u = pairText pair.1 t ∧ isName pair.1.toList = true ∧ Spells t pair.2

theorem SpellsPair.run_mark {u : String} {pair : String × Expr} (h : SpellsPair u pair)
    (pairs : List (String × Expr)) {c : Char} (hc : isNamePart c = false) :
    run ⟨.key pairs [], fs⟩ (u.toList ++ [c]) = after? pair.2 c (.pair pairs pair.1 :: fs) := by
  obtain ⟨t, rfl, hname, ht⟩ := h
  have htext : (pairText pair.1 t).toList ++ [c] =
      pair.1.toList ++ ':' :: (t.toList ++ [c]) := by simp [pairText]
  have hcolon : step ⟨.key pairs pair.1.toList, fs⟩ ':' =
      some ⟨.fresh, .pair pairs (String.ofList pair.1.toList) :: fs⟩ := rfl
  have hkey : run ⟨.key pairs [], fs⟩ pair.1.toList = some ⟨.key pairs pair.1.toList, fs⟩ :=
    run_extend (.key pairs) (fun _ _ => rfl) (isNamePart_of_isName hname) []
  rw [htext, run_append_of_run hkey, run_cons_of_step hcolon, String.ofList_toList, ht.run_mark hc]

theorem spells_object {us : List String} {pairs : List (String × Expr)}
    (h : List.Forall₂ SpellsPair us pairs) : Spells (objectText us) (.object pairs) := by
  intro fs
  refine ⟨.complete (.object pairs), ?_, rfl⟩
  have htext : (objectText us).toList = '\x7b' :: ((commas us).toList ++ ['\x7d']) := by
    simp [objectText]
  have hopen : step ⟨.fresh, fs⟩ '\x7b' = some ⟨.key [] [], fs⟩ := rfl
  rw [htext, run_cons_of_step hopen]
  cases h with
  | nil => rfl
  | cons hu hus =>
    refine run_commas (fun pairs => ⟨.key pairs [], fs⟩)
      (fun pairs => ⟨.complete (.object pairs), fs⟩) ?_ ?_ (.cons hu hus) (by simp) []
    · intro pairs u pair hu
      exact hu.run_mark pairs (by decide)
    · intro pairs u pair hu
      exact hu.run_mark pairs (by decide)

theorem spells_construction {names ts : List String} {es : List Expr}
    (fits : names.length = es.length) (valid : ∀ name ∈ names, isName name.toList = true)
    (h : List.Forall₂ Spells ts es) :
    Spells (objectText (List.zipWith pairText names ts)) (.new ⟨⟨""⟩, names, es⟩) := by
  have hpairs : List.Forall₂ SpellsPair (List.zipWith pairText names ts) (names.zip es) := by
    clear fits
    induction h generalizing names with
    | nil => simp
    | cons ht hts ih =>
      cases names with
      | nil => exact .nil
      | cons name names =>
        rw [List.forall_mem_cons] at valid
        exact .cons ⟨_, rfl, valid.1, ht⟩ (ih valid.2)
  have hobject : Expr.object (names.zip es) = .new ⟨⟨""⟩, names, es⟩ := by
    rw [Expr.object, List.map_fst_zip (by omega), List.map_snd_zip (by omega)]
  rw [← hobject]
  exact spells_object hpairs

end LambdaScript.Reading
