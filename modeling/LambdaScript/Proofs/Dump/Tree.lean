import LambdaScript.Dump.Declaration
import LambdaScript.Proofs.Text.Join
import LambdaScript.Proofs.Text.Quoted

/-! # Trees of dumps

A dump is the text of a tree of names, words and quoted texts. Where a tree is written and something
follows that no word can go on with, both are known from the text: a name or word ends at the first
character that none has, a quoted text at its quote, and a list where neither a comma nor a part
follows. So different trees have different texts.
-/

namespace LambdaScript.Dump

/-- Characters of names and words. -/
def isWord (c : Char) : Bool := c ∉ ['(', ')', '[', ']', '\x7b', '\x7d', ',', '"', '\'', ' ']

inductive Tree where
  | word (s : String)
  | quoted (s : String)
  | quotedChar (c : Char)
  | wrap (name : String) (part : Tree)
  | node (name : String) (parts : List (String × Tree))
  | list (items : List Tree)

namespace Tree

mutual

def text : Tree → String
  | word s => s
  | quoted s => Text.quoted s
  | quotedChar c => Text.quotedChar c
  | wrap name part => Dump.wrap name (text part)
  | node name parts => Dump.node name (textParts parts)
  | list items => Dump.list (textItems items)

def textItems : List Tree → List String
  | [] => []
  | t :: ts => text t :: textItems ts

def textParts : List (String × Tree) → List (String × String)
  | [] => []
  | (k, t) :: parts => (k, text t) :: textParts parts

end

def IsName (s : String) : Prop := ∀ c ∈ s.toList, isWord c = true

instance (s : String) : Decidable (IsName s) :=
  decidable_of_iff (s.toList.all isWord = true) List.all_eq_true

/-- A key is a name without a colon. -/
def IsKey (k : String) : Prop := IsName k ∧ ':' ∉ k.toList

instance (k : String) : Decidable (IsKey k) :=
  inferInstanceAs (Decidable (IsName k ∧ ':' ∉ k.toList))

/-- The names, words and keys of a tree are names, and no word is empty. -/
inductive Proper : Tree → Prop
  | word {s : String} (isName : IsName s := by decide) (ne_nil : s.toList ≠ [] := by decide) :
      Proper (word s)
  | quoted (s : String) : Proper (quoted s)
  | quotedChar (c : Char) : Proper (quotedChar c)
  | wrap {name : String} {part : Tree} (proper : Proper part)
      (isName : IsName name := by decide) : Proper (wrap name part)
  | node {name : String} {parts : List (String × Tree)}
      (proper : ∀ p ∈ parts, Proper p.2)
      (isName : IsName name := by decide)
      (keys : ∀ k ∈ parts.map Prod.fst, IsKey k := by simp only [List.map]; decide) :
      Proper (node name parts)
  | list {items : List Tree} (proper : ∀ t ∈ items, Proper t) : Proper (list items)

theorem textItems_eq_map (ts : List Tree) : textItems ts = ts.map text := by
  induction ts with
  | nil => rfl
  | cons t ts ih => rw [textItems, ih, List.map_cons]

/-- The tree of something that may be missing. -/
def option : Option Tree → Tree
  | none => word "None"
  | some t => wrap "Some" t

theorem text_option (t : Option Tree) : (option t).text = Dump.option (t.map text) := by
  cases t <;> rfl

theorem option_injective : Function.Injective option := by
  intro t u h
  cases t <;> cases u <;> simp_all [option]

theorem Proper.option {t : Option Tree} (h : ∀ u, t = some u → u.Proper) : (option t).Proper := by
  cases t with
  | none => exact .word
  | some u => exact .wrap (h u rfl)

theorem textParts_eq_map (parts : List (String × Tree)) :
    textParts parts = parts.map fun p => (p.1, text p.2) := by
  induction parts with
  | nil => rfl
  | cons p parts ih => rw [textParts, ih, List.map_cons]

/-! ## What follows a tree -/

/-- What stands behind a tree: the end of the text, a comma, or the end of what it is a part of. -/
def Follows : List Char → Prop
  | [] => True
  | ' ' :: rest => rest.head? = some '\x7d'
  | c :: _ => c ∈ [')', ']', ',']

theorem Follows.isWord_head {rest : List Char} (h : Follows rest) {c : Char}
    (hc : rest.head? = some c) : isWord c = false := by
  cases rest with
  | nil => cases hc
  | cons d rest =>
    cases hc
    by_cases hblank : c = ' '
    · subst hblank
      rfl
    · have hmem : c = ')' ∨ c = ']' ∨ c = ',' := by simpa [Follows, hblank] using h
      rcases hmem with rfl | rfl | rfl <;> rfl

/-- Of texts with something behind them, `a` and what stands behind it are determined. -/
def Cut {α : Type} (f : α → String) (a b : α) : Prop :=
  ∀ rest rest', Follows rest → Follows rest' →
    (f a).toList ++ rest = (f b).toList ++ rest' → a = b ∧ rest = rest'

/-! ## Rows -/

/-- The end of a row: something that follows a tree and is no comma. -/
structure Closes (close : List Char) : Prop where
  follows : ∀ rest, Follows (close ++ rest)
  ne_comma : ∀ rest rest', ',' :: rest ≠ close ++ rest'

/-- The parts of a row and what stands behind it are determined if each part is, and if no part
starts like the end of the row. -/
theorem eq_of_row {α : Type} {f : α → String} {close : List Char} (hclose : Closes close)
    {P : α → Prop} (hstart : ∀ a, P a → ∀ rest rest', (f a).toList ++ rest ≠ close ++ rest')
    {as bs : List α} (has : ∀ a ∈ as, P a) (hbs : ∀ b ∈ bs, P b)
    (hcut : ∀ a ∈ as, ∀ b, P b → Cut f a b) {rest rest' : List Char}
    (h : (Text.joinWith ", " (as.map f)).toList ++ (close ++ rest) =
      (Text.joinWith ", " (bs.map f)).toList ++ (close ++ rest')) :
    as = bs ∧ close ++ rest = close ++ rest' := by
  have hsplit (a b : α) (cs : List α) (rest : List Char) :
      (Text.joinWith ", " ((a :: b :: cs).map f)).toList ++ rest =
        (f a).toList ++ ',' :: ' ' :: ((Text.joinWith ", " ((b :: cs).map f)).toList ++ rest) := by
    simp [Text.joinWith]
  have hsingle (a : α) : (Text.joinWith ", " ([a].map f)).toList = (f a).toList := rfl
  have hmore (rest : List Char) : Follows (',' :: rest) := by simp [Follows]
  have hne {a : α} (ha : P a) (as : List α) (rest rest' : List Char) :
      (Text.joinWith ", " ((a :: as).map f)).toList ++ rest ≠ close ++ rest' := by
    cases as with
    | nil => exact hstart a ha _ _
    | cons b as =>
      rw [hsplit]
      exact hstart a ha _ _
  -- a part with a comma behind it is not the last one of the other row
  induction as generalizing bs with
  | nil =>
    cases bs with
    | nil => exact ⟨rfl, h⟩
    | cons b bs => exact absurd h.symm (hne (hbs b List.mem_cons_self) bs _ rest)
  | cons a as ih =>
    rw [List.forall_mem_cons] at has hcut
    cases bs with
    | nil => exact absurd h (hne has.1 as _ rest')
    | cons b bs =>
      rw [List.forall_mem_cons] at hbs
      have hab := hcut.1 b hbs.1
      cases as with
      | nil =>
        rw [hsingle] at h
        cases bs with
        | nil =>
          obtain ⟨rfl, hrest⟩ := hab _ _ (hclose.follows rest) (hclose.follows rest') h
          exact ⟨rfl, hrest⟩
        | cons b' bs =>
          rw [hsplit] at h
          exact absurd (hab _ _ (hclose.follows rest) (hmore _) h).2.symm (hclose.ne_comma _ rest)
      | cons a' as =>
        rw [hsplit] at h
        cases bs with
        | nil =>
          exact absurd (hab _ _ (hmore _) (hclose.follows rest') h).2 (hclose.ne_comma _ rest')
        | cons b' bs =>
          rw [hsplit] at h
          obtain ⟨rfl, hrest⟩ := hab _ _ (hmore _) (hmore _) h
          obtain ⟨heq, hclosed⟩ :=
            ih has.2 hbs.2 hcut.2 (List.cons.inj (List.cons.inj hrest).2).2
          exact ⟨congrArg (List.cons a) heq, hclosed⟩

/-! ## Leads -/

/-- The word that the text of a tree starts with, which may be empty. -/
def lead : Tree → String
  | word s => s
  | wrap name _ => name
  | node name _ => name
  | _ => ""

/-- The text of a tree behind its lead. -/
def behind : Tree → List Char
  | word _ => []
  | quoted s => (Text.quoted s).toList
  | quotedChar c => (Text.quotedChar c).toList
  | wrap _ part => '(' :: (part.text.toList ++ [')'])
  | node _ parts => ' ' :: '\x7b' :: ' ' ::
    ((Text.joinWith ", " (parts.map fun p => p.1 ++ ": " ++ p.2.text)).toList ++ [' ', '\x7d'])
  | list items => '[' :: ((Text.joinWith ", " (items.map text)).toList ++ [']'])

theorem toList_text (t : Tree) : t.text.toList = t.lead.toList ++ t.behind := by
  cases t with
  | word s => simp [text, lead, behind]
  | quoted s => simp [text, lead, behind]
  | quotedChar c => simp [text, lead, behind]
  | wrap name part => simp [text, lead, behind, Dump.wrap]
  | node name parts =>
    simp [text, lead, behind, Dump.node, textParts_eq_map, Function.comp_def]
  | list items => simp [text, lead, behind, Dump.list, textItems_eq_map]

theorem Proper.isWord_lead {t : Tree} (h : t.Proper) : ∀ c ∈ t.lead.toList, isWord c = true := by
  cases h with
  | word isName ne_nil => exact isName
  | wrap proper isName => exact isName
  | node proper isName keys => exact isName
  | _ => simp [lead]

theorem isWord_head_behind {t : Tree} {rest : List Char} (h : Follows rest) {c : Char}
    (hc : (t.behind ++ rest).head? = some c) : isWord c = false := by
  cases t with
  | word s => exact h.isWord_head hc
  | quoted s =>
    simp [behind, Text.quoted] at hc
    subst hc
    rfl
  | quotedChar d =>
    simp [behind, Text.quotedChar] at hc
    subst hc
    rfl
  | _ =>
    cases hc
    rfl

/-! ## Forms -/

/-- The character that shows the form of a tree behind its lead; a word has none. -/
def mark : Tree → Option Char
  | word _ => none
  | quoted _ => some '"'
  | quotedChar _ => some '\''
  | wrap _ _ => some '('
  | node _ _ => some '\x7b'
  | list _ => some '['

def markOf : List Char → Option Char
  | ' ' :: '\x7b' :: _ => some '\x7b'
  | c :: _ => if c ∈ ['"', '\'', '(', '['] then some c else none
  | [] => none

theorem Follows.markOf_eq_none {rest : List Char} (h : Follows rest) : markOf rest = none := by
  unfold markOf
  split
  · cases h
  · next c rest hnode =>
    rw [if_neg]
    intro hc
    simp only [List.mem_cons, List.not_mem_nil, or_false] at hc
    rcases hc with rfl | rfl | rfl | rfl <;> simp [Follows] at h
  · rfl

theorem markOf_behind (t : Tree) {rest : List Char} (h : Follows rest) :
    markOf (t.behind ++ rest) = t.mark := by
  cases t with
  | word s => exact h.markOf_eq_none
  | quoted s => simp [behind, Text.quoted, markOf, mark]
  | quotedChar c => simp [behind, Text.quotedChar, markOf, mark]
  | wrap name part => simp [behind, markOf, mark]
  | node name parts => simp [behind, markOf, mark]
  | list items => simp [behind, markOf, mark]

/-- Equal texts have the same lead and the same form, and are equal behind the lead. -/
theorem same_form {t u : Tree} (ht : t.Proper) (hu : u.Proper) {rest rest' : List Char}
    (hrest : Follows rest) (hrest' : Follows rest')
    (h : t.text.toList ++ rest = u.text.toList ++ rest') :
    t.lead = u.lead ∧ t.mark = u.mark ∧ t.behind ++ rest = u.behind ++ rest' := by
  rw [toList_text, toList_text, List.append_assoc, List.append_assoc] at h
  obtain ⟨htake, hdrop⟩ := Text.takeWhile_append_eq ht.isWord_lead
    fun c (hc : (t.behind ++ rest).head? = some c) => isWord_head_behind hrest hc
  obtain ⟨htake', hdrop'⟩ := Text.takeWhile_append_eq hu.isWord_lead
    fun c (hc : (u.behind ++ rest').head? = some c) => isWord_head_behind hrest' hc
  rw [h] at htake hdrop
  have hbehind : t.behind ++ rest = u.behind ++ rest' := hdrop.symm.trans hdrop'
  have hmark := congrArg markOf hbehind
  rw [markOf_behind t hrest, markOf_behind u hrest'] at hmark
  exact ⟨String.toList_inj.mp (htake.symm.trans htake'), hmark, hbehind⟩

/-! ## Parts -/

theorem closes_list : Closes [']'] := ⟨fun _ => by simp [Follows], fun _ _ => by simp⟩

theorem closes_node : Closes [' ', '\x7d'] := ⟨fun _ => by simp [Follows], fun _ _ => by simp⟩

theorem Proper.ne_end {t : Tree} (h : t.Proper) (rest rest' : List Char) :
    t.text.toList ++ rest ≠ [']'] ++ rest' := by
  rw [toList_text]
  intro heq
  cases hlead : t.lead.toList with
  | nil =>
    rw [hlead] at heq
    cases h with
    | word isName ne_nil => exact ne_nil hlead
    | quoted s => simp [behind, Text.quoted] at heq
    | quotedChar c => simp [behind, Text.quotedChar] at heq
    | _ => simp [behind] at heq
  | cons c cs =>
    rw [hlead] at heq
    cases heq
    cases h.isWord_lead ']' (by rw [hlead]; exact List.mem_cons_self)

/-- The text of a part of a node. -/
def partText (p : String × Tree) : String := p.1 ++ ": " ++ p.2.text

theorem toList_partText (p : String × Tree) (rest : List Char) :
    (partText p).toList ++ rest = p.1.toList ++ ':' :: ' ' :: (p.2.text.toList ++ rest) := by
  simp [partText]

theorem partText_ne_end {p : String × Tree} (h : IsKey p.1) (rest rest' : List Char) :
    (partText p).toList ++ rest ≠ [' ', '\x7d'] ++ rest' := by
  rw [toList_partText]
  intro heq
  cases hkey : p.1.toList with
  | nil =>
    rw [hkey] at heq
    simp at heq
  | cons c cs =>
    rw [hkey] at heq
    have hc : c = ' ' := (List.cons.inj heq).1
    subst hc
    cases h.1 ' ' (by rw [hkey]; exact List.mem_cons_self)

theorem cut_partText {p q : String × Tree} (hp : IsKey p.1) (hq : IsKey q.1)
    (h : Cut text p.2 q.2) : Cut partText p q := by
  intro rest rest' hrest hrest' heq
  rw [toList_partText, toList_partText] at heq
  have hkey {k : String} (hk : IsKey k) (rest : List Char) :
      (k.toList ++ ':' :: rest).takeWhile (· ≠ ':') = k.toList ∧
        (k.toList ++ ':' :: rest).dropWhile (· ≠ ':') = ':' :: rest := by
    apply Text.takeWhile_append_eq
    · intro c hc
      apply decide_eq_true
      rintro rfl
      exact hk.2 hc
    · intro c hc
      cases hc
      rfl
  obtain ⟨htake, hdrop⟩ := hkey hp (' ' :: (p.2.text.toList ++ rest))
  obtain ⟨htake', hdrop'⟩ := hkey hq (' ' :: (q.2.text.toList ++ rest'))
  rw [heq] at htake hdrop
  have hname : p.1 = q.1 := String.toList_inj.mp (htake.symm.trans htake')
  have htext := (List.cons.inj (List.cons.inj (hdrop.symm.trans hdrop')).2).2
  obtain ⟨htree, hrest⟩ := h rest rest' hrest hrest' htext
  exact ⟨Prod.ext hname htree, hrest⟩

/-- A tree and what stands behind it are determined by the text of both. -/
theorem Proper.cut {t : Tree} (ht : t.Proper) : ∀ u : Tree, u.Proper → Cut text t u := by
  induction ht with
  | word isName ne_nil =>
    intro u hu rest rest' hrest hrest' h
    obtain ⟨hlead, hmark, hbehind⟩ := same_form (.word isName ne_nil) hu hrest hrest' h
    cases hu with
    | word isName' ne_nil' => exact ⟨congrArg Tree.word hlead, hbehind⟩
    | _ => simp [mark] at hmark
  | quoted s =>
    intro u hu rest rest' hrest hrest' h
    obtain ⟨hlead, hmark, hbehind⟩ := same_form (.quoted s) hu hrest hrest' h
    cases hu with
    | quoted s' =>
      obtain ⟨hs, heq⟩ := Text.eq_of_quoted_append hbehind
      exact ⟨congrArg Tree.quoted hs, heq⟩
    | _ => simp [mark] at hmark
  | quotedChar c =>
    intro u hu rest rest' hrest hrest' h
    obtain ⟨hlead, hmark, hbehind⟩ := same_form (.quotedChar c) hu hrest hrest' h
    cases hu with
    | quotedChar c' =>
      obtain ⟨hc, heq⟩ := Text.eq_of_quotedChar_append hbehind
      exact ⟨congrArg Tree.quotedChar hc, heq⟩
    | _ => simp [mark] at hmark
  | @wrap name part proper isName ih =>
    intro u hu rest rest' hrest hrest' h
    obtain ⟨hlead, hmark, hbehind⟩ := same_form (.wrap proper isName) hu hrest hrest' h
    cases hu with
    | wrap proper' isName' =>
      have hend (rest : List Char) : Follows (')' :: rest) := by simp [Follows]
      simp only [behind, List.cons_append, List.append_assoc, List.cons.injEq,
        true_and] at hbehind
      obtain ⟨hpart, heq⟩ := ih _ proper' _ _ (hend rest) (hend rest') hbehind
      exact ⟨congrArg₂ Tree.wrap hlead hpart, (List.cons.inj heq).2⟩
    | _ => simp [mark] at hmark
  | @node name parts proper isName keys ih =>
    intro u hu rest rest' hrest hrest' h
    obtain ⟨hlead, hmark, hbehind⟩ := same_form (.node proper isName keys) hu hrest hrest' h
    cases hu with
    | node proper' isName' keys' =>
      simp only [behind, List.cons_append, List.append_assoc, List.cons.injEq, true_and] at hbehind
      obtain ⟨hparts, heq⟩ := eq_of_row closes_node
        (fun p (hp : IsKey p.1 ∧ p.2.Proper) => partText_ne_end hp.1)
        (fun p hp => ⟨keys p.1 (List.mem_map_of_mem hp), proper p hp⟩)
        (fun p hp => ⟨keys' p.1 (List.mem_map_of_mem hp), proper' p hp⟩)
        (fun p hp q hq => cut_partText (keys p.1 (List.mem_map_of_mem hp)) hq.1 (ih p hp q.2 hq.2))
        hbehind
      exact ⟨congrArg₂ Tree.node hlead hparts, List.append_cancel_left heq⟩
    | _ => simp [mark] at hmark
  | @list items proper ih =>
    intro u hu rest rest' hrest hrest' h
    obtain ⟨hlead, hmark, hbehind⟩ := same_form (.list proper) hu hrest hrest' h
    cases hu with
    | list proper' =>
      simp only [behind, List.cons_append, List.append_assoc, List.cons.injEq, true_and] at hbehind
      obtain ⟨hitems, heq⟩ := eq_of_row closes_list (fun u hu => Proper.ne_end hu) proper proper'
        ih hbehind
      exact ⟨congrArg Tree.list hitems, List.append_cancel_left heq⟩
    | _ => simp [mark] at hmark

/-- Different trees have different texts. -/
theorem text_injective {t u : Tree} (ht : t.Proper) (hu : u.Proper) (h : t.text = u.text) :
    t = u := by
  apply (ht.cut u hu [] [] trivial trivial _).1
  rw [h]

end Tree

/-- Lists are told apart by the images of their members if the members are. -/
theorem eq_of_map_eq {α β : Type} {f : α → β} {as bs : List α}
    (inj : ∀ a ∈ as, ∀ b ∈ bs, f a = f b → a = b) (h : as.map f = bs.map f) : as = bs := by
  induction as generalizing bs with
  | nil => exact (List.map_eq_nil_iff.mp h.symm).symm
  | cons a as ih =>
    cases bs with
    | nil => cases h
    | cons b bs =>
      obtain ⟨hhead, htail⟩ := List.cons.inj h
      rw [inj a List.mem_cons_self b List.mem_cons_self hhead]
      congr 1
      apply ih _ htail
      exact fun a ha b hb => inj a (List.mem_cons_of_mem _ ha) b (List.mem_cons_of_mem _ hb)

/-! ## Words -/

theorem isWord_of_isDigit {c : Char} (h : Text.isDigit c = true) : isWord c = true := by
  apply decide_eq_true
  intro hc
  simp only [List.mem_cons, List.not_mem_nil, or_false] at hc
  rcases hc with rfl | rfl | rfl | rfl | rfl | rfl | rfl | rfl | rfl | rfl <;> cases h

theorem proper_word {s : String} (marks : List Char) (hmarks : marks.all isWord = true)
    (chars : ∀ c ∈ s.toList, Text.isDigit c = true ∨ c ∈ marks) (ne_nil : s.toList ≠ []) :
    (Tree.word s).Proper :=
  .word (fun c hc => (chars c hc).elim isWord_of_isDigit (List.all_eq_true.mp hmarks c)) ne_nil

/-! ## Dumps as trees -/

/-- A dump that is the text of a tree, and a different tree for everything. -/
structure Faithful {α : Type} (dump : α → String) (tree : α → Tree) : Prop where
  text (a : α) : (tree a).text = dump a
  proper (a : α) : (tree a).Proper
  injective : Function.Injective tree

theorem Faithful.dump_injective {α : Type} {dump : α → String} {tree : α → Tree}
    (h : Faithful dump tree) : Function.Injective dump := by
  intro a b heq
  apply h.injective
  apply Tree.text_injective (h.proper a) (h.proper b)
  rw [h.text, h.text, heq]

end LambdaScript.Dump
