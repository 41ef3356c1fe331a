import LambdaScript.Expr
import LambdaScript.Proofs.Number.Range
import LambdaScript.Proofs.Reading.Scan
import LambdaScript.Proofs.Reading.Token

/-! # A reader of bracketed texts

Names, integers, quoted strings, and what dots and brackets make of them are read back as an
expression, one character after the other. The state is what stands right before the next character
and the brackets that are open around it. What a parenthesis opens is known only after it is closed:
a dot makes it the target of a call, a question mark makes it the test of a conditional.
-/

namespace LambdaScript

def Member.ofName (name : String) : Member := ⟨⟨""⟩, name, .property⟩

def Method.ofName (name : String) : Method := ⟨⟨""⟩, name⟩

/-- The construction of an object of which only the members are known. -/
def Expr.object (pairs : List (String × Expr)) : Expr :=
  .new ⟨⟨""⟩, pairs.map Prod.fst, pairs.map Prod.snd⟩

namespace Reading
open Text

/-- What expressions between commas are part of. -/
inductive Row where
  | array
  | index (target : Expr)
  | call (target : Expr) (name : String)

namespace Row

def close : Row → Char
  | array => ']'
  | index _ => ']'
  | call _ _ => ')'

def build : Row → List Expr → Expr
  | array, es => .newArray es
  | index target, es => .index target es
  | call target name, es => .call (some target) (.ofName name) es

end Row

/-- An open bracket with what was read after it. -/
inductive Frame where
  /-- A parenthesis, and nothing. -/
  | group
  /-- The expressions of a row. -/
  | row (r : Row) (es : List Expr)
  /-- The members of an object, and the name of one more. -/
  | pair (pairs : List (String × Expr)) (name : String)
  /-- The test of a conditional. -/
  | branch (test : Expr)
  /-- The test and the first branch of a conditional. -/
  | alternative (test ifTrue : Expr)

/-- What stands right before the next character. -/
inductive Mode where
  /-- Nothing: an expression starts, or an empty row ends. -/
  | fresh
  /-- A part of a name or an integer. -/
  | word (cs : List Char)
  /-- A part of a string after its first quote. -/
  | quoted (cs : List Char)
  /-- A dot after an expression, and a part of the name of a member. -/
  | label (target : Expr) (cs : List Char)
  /-- A dot after a parenthesis, and a part of the name of a method. -/
  | method (target : Expr) (cs : List Char)
  /-- The members of an object, and a part of the name of one more. -/
  | key (pairs : List (String × Expr)) (cs : List Char)
  /-- A complete expression. -/
  | complete (e : Expr)
  /-- A complete expression between parentheses. -/
  | grouped (e : Expr)

/-- The state of a reading; the innermost bracket is the first one. -/
structure State where
  mode : Mode
  frames : List Frame

def word? (cs : List Char) : Option Expr :=
  if isName cs then some (.parameter (String.ofList cs))
  else ((readInt? cs).bind Word.ofInt?).map fun n => .constant (.integer n)

namespace Mode

def operand? : Mode → Option Expr
  | word cs => word? cs
  | label target cs => some (.member target (.ofName (String.ofList cs)))
  | complete e => some e
  | _ => none

def extend? (c : Char) : Mode → Option Mode
  | fresh => some (word [c])
  | word cs => some (word (cs ++ [c]))
  | label target cs => some (label target (cs ++ [c]))
  | method target cs => some (method target (cs ++ [c]))
  | key pairs cs => some (key pairs (cs ++ [c]))
  | _ => none

/-- A mark where no expression ends. -/
def mark? : Char → Mode → List Frame → Option State
  | '"', fresh, fs => some ⟨quoted [], fs⟩
  | '-', fresh, fs => some ⟨word ['-'], fs⟩
  | '(', fresh, fs => some ⟨fresh, .group :: fs⟩
  | '[', fresh, fs => some ⟨fresh, .row .array [] :: fs⟩
  | '\x7b', fresh, fs => some ⟨key [] [], fs⟩
  | c, fresh, .row r [] :: fs => if c = r.close then some ⟨complete (r.build []), fs⟩ else none
  | '(', method target cs, fs => some ⟨fresh, .row (.call target (String.ofList cs)) [] :: fs⟩
  | ':', key pairs cs, fs => some ⟨fresh, .pair pairs (String.ofList cs) :: fs⟩
  | '\x7d', key [] [], fs => some ⟨complete (.object []), fs⟩
  -- only here is it known what the parenthesis was for
  | '.', grouped target, fs => some ⟨method target [], fs⟩
  | '?', grouped test, .group :: fs => some ⟨fresh, .branch test :: fs⟩
  | ':', grouped ifTrue, .branch test :: fs => some ⟨fresh, .alternative test ifTrue :: fs⟩
  | ')', grouped ifTrue, .branch test :: fs => some ⟨complete (.conditional test ifTrue none), fs⟩
  | ')', grouped ifFalse, .alternative test ifTrue :: fs =>
    some ⟨complete (.conditional test ifTrue (some ifFalse)), fs⟩
  | _, _, _ => none

end Mode

def after? (e : Expr) : Char → List Frame → Option State
  | '.', fs => some ⟨.label e [], fs⟩
  | '[', fs => some ⟨.fresh, .row (.index e) [] :: fs⟩
  | ',', .row r es :: fs => some ⟨.fresh, .row r (es ++ [e]) :: fs⟩
  | ',', .pair pairs name :: fs => some ⟨.key (pairs ++ [(name, e)]) [], fs⟩
  | '\x7d', .pair pairs name :: fs => some ⟨.complete (.object (pairs ++ [(name, e)])), fs⟩
  | ')', .group :: fs => some ⟨.grouped e, fs⟩
  | c, .row r es :: fs => if c = r.close then some ⟨.complete (r.build (es ++ [e])), fs⟩ else none
  | _, _ => none

def step (s : State) (c : Char) : Option State :=
  match s.mode with
  | .quoted cs =>
    if c = '"' then some ⟨.complete (.constant (.string (String.ofList cs))), s.frames⟩
    else some ⟨.quoted (cs ++ [c]), s.frames⟩
  | mode =>
    if isNamePart c then (mode.extend? c).map (⟨·, s.frames⟩)
    else
      match mode.operand? with
      | some e => after? e c s.frames
      | none => mode.mark? c s.frames

def run (s : State) (cs : List Char) : Option State := cs.foldlM step s

def read? (t : String) : Option Expr := (run ⟨.fresh, []⟩ t.toList).bind (·.mode.operand?)

theorem run_cons_of_step {s s' : State} {c : Char} (h : step s c = some s') (cs : List Char) :
    run s (c :: cs) = run s' cs :=
  scan_cons_of_step h cs

theorem run_append_of_run {s s' : State} {cs : List Char} (h : run s cs = some s')
    (ds : List Char) : run s (cs ++ ds) = run s' ds :=
  scan_append_of_scan h ds

@[simp] theorem run_singleton (s : State) (c : Char) : run s [c] = step s c := scan_singleton s c

variable {m : Mode} {fs : List Frame} {e : Expr} {c : Char}

theorem step_extend {m' : Mode} (hc : isNamePart c = true) (hm : m.extend? c = some m') :
    step ⟨m, fs⟩ c = some ⟨m', fs⟩ := by
  cases m with
  | quoted cs => cases hm
  | _ => simp only [step, if_pos hc, hm, Option.map_some]

theorem step_operand (hc : isNamePart c = false) (hm : m.operand? = some e) :
    step ⟨m, fs⟩ c = after? e c fs := by
  cases m with
  | quoted cs => cases hm
  | _ => simp [step, hc, hm]

/-- A name or a number grows by its characters. -/
theorem run_extend (grow : List Char → Mode)
    (hgrow : ∀ cs c, (grow cs).extend? c = some (grow (cs ++ [c]))) {cs : List Char}
    (hcs : ∀ c ∈ cs, isNamePart c = true) (start : List Char) :
    run ⟨grow start, fs⟩ cs = some ⟨grow (start ++ cs), fs⟩ := by
  change scan step _ cs = _
  exact scan_grow (fun cs => State.mk (grow cs) fs)
    (fun c hc start => step_extend (hcs c hc) (hgrow start c)) start

theorem run_fresh_word {cs : List Char} (hne : cs ≠ []) (hcs : ∀ c ∈ cs, isNamePart c = true) :
    run ⟨.fresh, fs⟩ cs = some ⟨.word cs, fs⟩ := by
  cases cs with
  | nil => exact absurd rfl hne
  | cons c cs =>
    rw [List.forall_mem_cons] at hcs
    rw [run_cons_of_step (step_extend hcs.1 rfl)]
    exact run_extend .word (fun _ _ => rfl) hcs.2 [c]

/-- A string goes on to its next quote. -/
theorem run_quoted {cs : List Char} (hcs : '"' ∉ cs) (start : List Char) :
    run ⟨.quoted start, fs⟩ (cs ++ ['"']) =
      some ⟨.complete (.constant (.string (String.ofList (start ++ cs)))), fs⟩ := by
  have hgrow : ∀ c ∈ cs, ∀ start,
      step ⟨.quoted start, fs⟩ c = some ⟨.quoted (start ++ [c]), fs⟩ := by
    intro c hc start
    have hne : c ≠ '"' := fun h => hcs (h ▸ hc)
    simp [step, hne]
  have hrun : run ⟨.quoted start, fs⟩ cs = some ⟨.quoted (start ++ cs), fs⟩ := by
    change scan step _ cs = _
    exact scan_grow (fun cs => State.mk (.quoted cs) fs) hgrow start
  rw [run_append_of_run hrun, run_singleton]
  simp [step]

/-- Expressions between commas, if what is read before, between and after them is known. -/
theorem run_commas {α : Type} {R : String → α → Prop} (before after : List α → State) {close : Char}
    (next : ∀ xs t x, R t x → run (before xs) (t.toList ++ [',']) = some (before (xs ++ [x])))
    (last : ∀ xs t x, R t x → run (before xs) (t.toList ++ [close]) = some (after (xs ++ [x])))
    {ts : List String} {xs : List α} (h : List.Forall₂ R ts xs) (hne : ts ≠ []) (start : List α) :
    run (before start) ((commas ts).toList ++ [close]) = some (after (start ++ xs)) :=
  scan_commas before after next last h hne start

end Reading
end LambdaScript
