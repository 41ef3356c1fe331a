import LambdaScript.Emit
import LambdaScript.Proofs.Number.Range
import LambdaScript.Proofs.Reading.Scan
import LambdaScript.Proofs.Text.Digits

/-! # Data in a script

A literal shows less than the value it was written for: no types, no difference between a character
and a string, or between an enumeration, an instant and a number. What it does show is a datum. Data
have one literal each, and a reader that takes one character after the other finds the datum again,
as long as no string has a quote in it and no name has a mark: characters between two marks belong
to one word, and the marks say which row or object a word is part of.
-/

namespace LambdaScript

/-- What a literal shows of a value. -/
inductive Datum where
  | null
  | string (s : String)
  | boolean (b : Bool)
  | integer (n : Int64)
  | list (items : List Datum)
  | object (members : List (String × Datum))

namespace Datum
open Text Reading

mutual

def literal : Datum → String
  | null => "null"
  | string s => enclose s
  | boolean b => if b then "true" else "false"
  | integer n => intText n.toInt
  | list items => "[" ++ commas (literals items) ++ "]"
  | object members => objectText (pairs members)

def literals : List Datum → List String
  | [] => []
  | d :: ds => literal d :: literals ds

def pairs : List (String × Datum) → List String
  | [] => []
  | (name, d) :: members => pairText name (literal d) :: pairs members

end

theorem literals_eq_map (ds : List Datum) : literals ds = ds.map literal := by
  induction ds with
  | nil => rfl
  | cons d ds ih => rw [literals, ih, List.map_cons]

theorem pairs_eq_map (members : List (String × Datum)) :
    pairs members = members.map fun m => pairText m.1 m.2.literal := by
  induction members with
  | nil => rfl
  | cons m members ih => rw [pairs, ih, List.map_cons]

/-- An open bracket with what was read after it. -/
inductive Frame where
  /-- The items of a list. -/
  | items (ds : List Datum)
  /-- The members of an object, and the name of one more. -/
  | members (ms : List (String × Datum)) (name : String)

/-- What stands right before the next character. -/
inductive Mode where
  /-- Nothing: a datum starts, or an empty list ends. -/
  | fresh
  /-- A part of a word. -/
  | word (cs : List Char)
  /-- A part of a string after its first quote. -/
  | quoted (cs : List Char)
  /-- The members of an object, and a part of the name of one more. -/
  | key (ms : List (String × Datum)) (cs : List Char)
  /-- A complete datum. -/
  | complete (d : Datum)

/-- The state of a reading; the innermost bracket is the first one. -/
structure State where
  mode : Mode
  frames : List Frame

def isMark (c : Char) : Bool := c ∈ [':', ',', '[', ']', '\x7b', '\x7d', '"']

def word? (cs : List Char) : Option Datum :=
  if cs = ['n', 'u', 'l', 'l'] then some null
  else if cs = ['t', 'r', 'u', 'e'] then some (boolean true)
  else if cs = ['f', 'a', 'l', 's', 'e'] then some (boolean false)
  else ((readInt? cs).bind Word.ofInt?).map integer

def Mode.operand? : Mode → Option Datum
  | word cs => word? cs
  | complete d => some d
  | _ => none

def after? (d : Datum) : Char → List Frame → Option State
  | ',', .items ds :: fs => some ⟨.fresh, .items (ds ++ [d]) :: fs⟩
  | ']', .items ds :: fs => some ⟨.complete (list (ds ++ [d])), fs⟩
  | ',', .members ms name :: fs => some ⟨.key (ms ++ [(name, d)]) [], fs⟩
  | '\x7d', .members ms name :: fs => some ⟨.complete (object (ms ++ [(name, d)])), fs⟩
  | _, _ => none

def before? : Char → List Frame → Option State
  | '"', fs => some ⟨.quoted [], fs⟩
  | '[', fs => some ⟨.fresh, .items [] :: fs⟩
  | '\x7b', fs => some ⟨.key [] [], fs⟩
  | ']', .items [] :: fs => some ⟨.complete (list []), fs⟩
  | _, _ => none

/-- A mark after the name of a member, or the end of an empty object. -/
def afterKey? : Char → List (String × Datum) → List Char → List Frame → Option State
  | ':', ms, cs, fs => some ⟨.fresh, .members ms (String.ofList cs) :: fs⟩
  | '\x7d', [], [], fs => some ⟨.complete (object []), fs⟩
  | _, _, _, _ => none

def step (s : State) (c : Char) : Option State :=
  match s.mode with
  | .quoted cs =>
    if c = '"' then some ⟨.complete (string (String.ofList cs)), s.frames⟩
    else some ⟨.quoted (cs ++ [c]), s.frames⟩
  | .fresh => if isMark c then before? c s.frames else some ⟨.word [c], s.frames⟩
  | .word cs =>
    if isMark c then (word? cs).bind (after? · c s.frames) else some ⟨.word (cs ++ [c]), s.frames⟩
  | .key ms cs =>
    if isMark c then afterKey? c ms cs s.frames else some ⟨.key ms (cs ++ [c]), s.frames⟩
  | .complete d => after? d c s.frames

def read? (t : String) : Option Datum :=
  (scan step ⟨.fresh, []⟩ t.toList).bind (·.mode.operand?)

/-- A text spells a datum: wherever it is read, the datum stands where it ends. -/
def Spells (t : String) (d : Datum) : Prop :=
  ∀ fs, ∃ m, scan step ⟨.fresh, fs⟩ t.toList = some ⟨m, fs⟩ ∧ m.operand? = some d

variable {t : String} {d : Datum} {fs : List Frame}

theorem Spells.read? (h : Spells t d) : read? t = some d := by
  obtain ⟨m, hscan, hm⟩ := h []
  rw [Datum.read?, hscan, Option.bind_some, hm]

/-- A datum and the mark after it. -/
theorem Spells.scan_mark (h : Spells t d) {c : Char} (hc : isMark c = true) :
    scan step ⟨.fresh, fs⟩ (t.toList ++ [c]) = after? d c fs := by
  obtain ⟨m, hscan, hm⟩ := h fs
  rw [scan_append_of_scan hscan, scan_singleton]
  cases m with
  | word cs =>
    change word? cs = some d at hm
    simp [step, hc, hm]
  | complete e =>
    cases hm
    rfl
  | _ => cases hm

/-- A word without marks is the datum that it stands for. -/
theorem spells_word {c : Char} {cs : List Char} (htext : t.toList = c :: cs)
    (hcs : ∀ x ∈ c :: cs, isMark x = false) (hword : word? (c :: cs) = some d) : Spells t d := by
  intro fs
  obtain ⟨hc, hrest⟩ := List.forall_mem_cons.mp hcs
  have hfirst : step ⟨.fresh, fs⟩ c = some ⟨.word [c], fs⟩ := by simp [step, hc]
  have hgrow : ∀ x ∈ cs, ∀ start,
      step ⟨.word start, fs⟩ x = some ⟨.word (start ++ [x]), fs⟩ := by
    intro x hx start
    simp [step, hrest x hx]
  refine ⟨.word (c :: cs), ?_, hword⟩
  rw [htext, scan_cons_of_step hfirst]
  exact scan_grow (fun cs => State.mk (.word cs) fs) hgrow [c]

theorem spells_string {s : String} (h : '"' ∉ s.toList) : Spells (enclose s) (string s) := by
  intro fs
  refine ⟨.complete (string s), ?_, rfl⟩
  have htext : (enclose s).toList = '"' :: (s.toList ++ ['"']) := by simp [enclose]
  have hopen : step ⟨.fresh, fs⟩ '"' = some ⟨.quoted [], fs⟩ := rfl
  have hgrow : ∀ c ∈ s.toList, ∀ start,
      step ⟨.quoted start, fs⟩ c = some ⟨.quoted (start ++ [c]), fs⟩ := by
    intro c hc start
    have hne : c ≠ '"' := fun heq => h (heq ▸ hc)
    simp [step, hne]
  have hinner := scan_grow (fun cs => State.mk (.quoted cs) fs) hgrow []
  rw [htext, scan_cons_of_step hopen, scan_append_of_scan hinner, scan_singleton]
  simp [step]

theorem isMark_of_isDigit {c : Char} (h : isDigit c = true) : isMark c = false := by
  cases hc : isMark c with
  | false => rfl
  | true =>
    simp only [isMark, List.mem_cons, List.not_mem_nil, or_false, decide_eq_true_eq] at hc
    rcases hc with rfl | rfl | rfl | rfl | rfl | rfl | rfl <;> cases h

/-- The first character of an integer is that of no other word. -/
theorem word?_intText {n : Int64} {c : Char} {cs : List Char}
    (htext : (intText n.toInt).toList = c :: cs) (hc : isDigit c = true ∨ c = '-') :
    word? (c :: cs) = some (integer n) := by
  have hread : readInt? (c :: cs) = some n.toInt := by rw [← htext, readInt?_intText]
  have hne : ∀ x, isDigit x = false → x ≠ '-' → c ≠ x := by
    rintro x hdigit hsign rfl
    rcases hc with hc | hc
    · rw [hdigit] at hc
      cases hc
    · exact hsign hc
  have hn : c ≠ 'n' := hne 'n' rfl (by decide)
  have ht : c ≠ 't' := hne 't' rfl (by decide)
  have hf : c ≠ 'f' := hne 'f' rfl (by decide)
  simp [word?, hn, ht, hf, hread, Word.ofInt?_toInt]

theorem spells_integer (n : Int64) : Spells (intText n.toInt) (integer n) := by
  have hdigits : ∀ c ∈ digits n.toInt.natAbs, isMark c = false :=
    fun c hc => isMark_of_isDigit (isDigit_of_mem_digits hc)
  by_cases hn : n.toInt < 0
  · have htext := toList_intText_of_neg hn
    exact spells_word htext (List.forall_mem_cons.mpr ⟨rfl, hdigits⟩)
      (word?_intText htext (.inr rfl))
  · obtain ⟨c, cs, hcs, hc⟩ := exists_digits_eq_cons n.toInt.natAbs
    have htext : (intText n.toInt).toList = c :: cs := by
      rw [toList_intText (Int.not_lt.mp hn), hcs]
    rw [hcs] at hdigits
    exact spells_word htext hdigits (word?_intText htext (.inl hc))

theorem spells_list {ts : List String} {ds : List Datum} (h : List.Forall₂ Spells ts ds) :
    Spells ("[" ++ commas ts ++ "]") (list ds) := by
  intro fs
  refine ⟨.complete (list ds), ?_, rfl⟩
  have htext : ("[" ++ commas ts ++ "]").toList = '[' :: ((commas ts).toList ++ [']']) := by simp
  have hopen : step ⟨.fresh, fs⟩ '[' = some ⟨.fresh, .items [] :: fs⟩ := rfl
  rw [htext, scan_cons_of_step hopen]
  cases h with
  | nil => rfl
  | cons ht hts =>
    exact scan_commas (fun ds => State.mk .fresh (.items ds :: fs))
      (fun ds => State.mk (.complete (list ds)) fs) (fun _ _ _ ht => ht.scan_mark rfl)
      (fun _ _ _ ht => ht.scan_mark rfl) (.cons ht hts) (by simp) []

def SpellsPair (text : String) (m : String × Datum) : Prop :=
  ∃ t, text = pairText m.1 t ∧ (∀ c ∈ m.1.toList, isMark c = false) ∧ Spells t m.2

theorem SpellsPair.scan_mark {text : String} {m : String × Datum} (h : SpellsPair text m)
    (ms : List (String × Datum)) {c : Char} (hc : isMark c = true) :
    scan step ⟨.key ms [], fs⟩ (text.toList ++ [c]) = after? m.2 c (.members ms m.1 :: fs) := by
  obtain ⟨t, rfl, hname, ht⟩ := h
  have htext : (pairText m.1 t).toList ++ [c] = m.1.toList ++ ':' :: (t.toList ++ [c]) := by
    simp [pairText]
  have hgrow : ∀ x ∈ m.1.toList, ∀ start,
      step ⟨.key ms start, fs⟩ x = some ⟨.key ms (start ++ [x]), fs⟩ := by
    intro x hx start
    simp [step, hname x hx]
  have hkey := scan_grow (fun cs => State.mk (.key ms cs) fs) hgrow []
  have hcolon : step ⟨.key ms m.1.toList, fs⟩ ':' =
      some ⟨.fresh, .members ms (String.ofList m.1.toList) :: fs⟩ := rfl
  rw [htext, scan_append_of_scan hkey, List.nil_append, scan_cons_of_step hcolon,
    String.ofList_toList, ht.scan_mark hc]

theorem spells_object {ts : List String} {ms : List (String × Datum)}
    (h : List.Forall₂ SpellsPair ts ms) : Spells (objectText ts) (object ms) := by
  intro fs
  refine ⟨.complete (object ms), ?_, rfl⟩
  have htext : (objectText ts).toList = '\x7b' :: ((commas ts).toList ++ ['\x7d']) := by
    simp [objectText]
  have hopen : step ⟨.fresh, fs⟩ '\x7b' = some ⟨.key [] [], fs⟩ := rfl
  rw [htext, scan_cons_of_step hopen]
  cases h with
  | nil => rfl
  | cons ht hts =>
    exact scan_commas (fun ms => State.mk (.key ms []) fs)
      (fun ms => State.mk (.complete (object ms)) fs) (fun ms _ _ ht => ht.scan_mark ms rfl)
      (fun ms _ _ ht => ht.scan_mark ms rfl) (.cons ht hts) (by simp) []

/-- Data whose literals are read back: strings have no quotes, and names have no marks. -/
inductive Legible : Datum → Prop
  | null : Legible null
  | string {s : String} (unquoted : '"' ∉ s.toList) : Legible (string s)
  | boolean (b : Bool) : Legible (boolean b)
  | integer (n : Int64) : Legible (integer n)
  | list {items : List Datum} (each : ∀ d ∈ items, Legible d) : Legible (list items)
  | object {members : List (String × Datum)}
      (unmarked : ∀ m ∈ members, ∀ c ∈ m.1.toList, isMark c = false)
      (each : ∀ m ∈ members, Legible m.2) : Legible (object members)

theorem Legible.spells (h : d.Legible) : Spells d.literal d := by
  induction h with
  | null =>
    have htext : Datum.null.literal.toList = ['n', 'u', 'l', 'l'] := rfl
    exact spells_word htext (by simp [isMark]) rfl
  | string unquoted => exact spells_string unquoted
  | boolean b =>
    cases b with
    | true =>
      have htext : (Datum.boolean true).literal.toList = ['t', 'r', 'u', 'e'] := rfl
      exact spells_word htext (by simp [isMark]) rfl
    | false =>
      have htext : (Datum.boolean false).literal.toList = ['f', 'a', 'l', 's', 'e'] := rfl
      exact spells_word htext (by simp [isMark]) rfl
  | integer n => exact spells_integer n
  | list each ih =>
    rw [literal, literals_eq_map]
    apply spells_list
    rw [List.forall₂_map_left_iff]
    exact List.forall₂_same.mpr ih
  | object unmarked each ih =>
    rw [literal, pairs_eq_map]
    apply spells_object
    rw [List.forall₂_map_left_iff]
    exact List.forall₂_same.mpr fun m hm => ⟨_, rfl, unmarked m hm, ih m hm⟩

/-- The reader finds a legible datum in its literal. -/
theorem Legible.read?_literal (h : d.Legible) : read? d.literal = some d := h.spells.read?

end Datum
end LambdaScript
