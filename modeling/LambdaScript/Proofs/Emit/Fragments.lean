import LambdaScript.Emit

/-! # Fragments of texts

The text of an expression cut into fragments, of which some are marked as standing for a parameter.
Put together with names for the parameters they give the text of a function, put together without
the marked ones the text of an inline expression. Every form that texts are put together in is also
one of fragments, and both ways of putting fragments together respect it.
-/

namespace LambdaScript

/-- A piece of a text. All but the first kind are marked: a parameter by itself, and a parameter
with the point that leads to a member of it. -/
inductive Fragment where
  | text (s : String)
  | occurrence (name : String)
  | path (name : String)

namespace Fragment

def parameter? : Fragment → Option String
  | text _ => none
  | occurrence name => some name
  | path name => some name

def isMarked (f : Fragment) : Bool := f.parameter?.isSome

/-- The text of a fragment. Without names, marked fragments have none. -/
def shown : Option (String → String) → Fragment → String
  | _, text s => s
  | some names, occurrence name => names name
  | some names, path name => names name ++ "."
  | none, _ => ""

def concat (names : Option (String → String)) : List Fragment → String
  | [] => ""
  | f :: fs => f.shown names ++ concat names fs

/-- All parameters that fragments stand for satisfy `P`. -/
def Named (P : String → Prop) (fs : List Fragment) : Prop :=
  ∀ f ∈ fs, ∀ name, f.parameter? = some name → P name

variable {names : Option (String → String)} {P : String → Prop}

@[simp] theorem concat_nil : concat names [] = "" := rfl

@[simp] theorem concat_cons (f : Fragment) (fs : List Fragment) :
    concat names (f :: fs) = f.shown names ++ concat names fs := rfl

@[simp] theorem shown_text (s : String) : (text s).shown names = s := by
  cases names <;> rfl

@[simp] theorem concat_append (fs gs : List Fragment) :
    concat names (fs ++ gs) = concat names fs ++ concat names gs := by
  induction fs with
  | nil => simp
  | cons f fs ih => simp [ih, String.append_assoc]

/-- Leaving out the marked fragments is the same as giving them no text. -/
theorem concat_none (given : String → String) (fs : List Fragment) :
    concat none fs = concat (some given) (fs.filter fun f => !f.isMarked) := by
  induction fs with
  | nil => rfl
  | cons f fs ih =>
    cases f with
    | text s => simp [isMarked, parameter?, ih]
    | occurrence name => simp [isMarked, parameter?, shown, ih]
    | path name => simp [isMarked, parameter?, shown, ih]

@[simp] theorem named_nil : Named P [] := by simp [Named]

@[simp] theorem named_cons {f : Fragment} {fs : List Fragment} :
    Named P (f :: fs) ↔ (∀ name, f.parameter? = some name → P name) ∧ Named P fs := by
  simp [Named]

@[simp] theorem named_append {fs gs : List Fragment} :
    Named P (fs ++ gs) ↔ Named P fs ∧ Named P gs := by
  simp only [Named, List.mem_append, or_imp, forall_and]

theorem Named.mono {Q : String → Prop} {fs : List Fragment} (h : Named P fs)
    (hPQ : ∀ name, P name → Q name) : Named Q fs :=
  fun f hf name hname => hPQ name (h f hf name hname)

@[simp] theorem getD_map_concat (fs : Option (List Fragment)) :
    (fs.map (concat names)).getD "" = concat names (fs.getD []) := by
  cases fs <;> rfl

theorem named_headD {fss : List (List Fragment)} (h : ∀ fs ∈ fss, Named P fs) :
    Named P (fss.headD []) := by
  cases fss with
  | nil => exact named_nil
  | cons fs fss => exact h fs (by simp)

theorem named_tail {fss : List (List Fragment)} (h : ∀ fs ∈ fss, Named P fs) :
    ∀ fs ∈ fss.tail, Named P fs :=
  fun fs hfs => h fs (List.mem_of_mem_tail hfs)

def commas : List (List Fragment) → List Fragment
  | [] => []
  | [fs] => fs
  | fs :: gs :: rest => fs ++ text "," :: commas (gs :: rest)

@[simp] theorem concat_commas (fss : List (List Fragment)) :
    concat names (commas fss) = Text.commas (fss.map (concat names)) := by
  fun_induction commas fss with
  | case1 => rfl
  | case2 fs => rfl
  | case3 fs gs rest ih =>
    rw [concat_append, concat_cons, ih]
    simp [Text.commas, Text.joinWith, String.append_assoc]

theorem named_commas {fss : List (List Fragment)} (h : ∀ fs ∈ fss, Named P fs) :
    Named P (commas fss) := by
  fun_induction commas fss with
  | case1 => exact named_nil
  | case2 fs => exact h fs (by simp)
  | case3 fs gs rest ih =>
    simp only [List.forall_mem_cons] at h ih
    simp [h.1, ih h.2, parameter?]

def pair (name : String) (fs : List Fragment) : List Fragment := text (name ++ ":") :: fs

@[simp] theorem concat_pair (name : String) (fs : List Fragment) :
    concat names (pair name fs) = pairText name (concat names fs) := by
  simp [pair, pairText]

theorem concat_pairs (labels : List String) (fss : List (List Fragment)) :
    (List.zipWith pair labels fss).map (concat names) =
      List.zipWith pairText labels (fss.map (concat names)) := by
  simp [List.map_zipWith, List.zipWith_map_right]

theorem named_pairs {labels : List String} {fss : List (List Fragment)}
    (h : ∀ fs ∈ fss, Named P fs) : ∀ fs ∈ List.zipWith pair labels fss, Named P fs := by
  induction labels generalizing fss with
  | nil => simp
  | cons label labels ih =>
    cases fss with
    | nil => simp
    | cons fs fss =>
      simp only [List.forall_mem_cons] at h
      simp only [List.zipWith_cons_cons, List.forall_mem_cons]
      exact ⟨by simp [pair, parameter?, h.1], ih h.2⟩

def object (pairs : List (List Fragment)) : List Fragment :=
  text "\x7b" :: commas pairs ++ [text "\x7d"]

@[simp] theorem concat_object (pairs : List (List Fragment)) :
    concat names (object pairs) = objectText (pairs.map (concat names)) := by
  simp [object, objectText, String.append_assoc]

theorem named_object {pairs : List (List Fragment)} (h : ∀ fs ∈ pairs, Named P fs) :
    Named P (object pairs) := by
  simp [object, parameter?, named_commas h]

def call (function : List Fragment) (args : List (List Fragment)) : List Fragment :=
  function ++ text "(" :: commas args ++ [text ")"]

@[simp] theorem concat_call (function : List Fragment) (args : List (List Fragment)) :
    concat names (call function args) =
      callText (concat names function) (args.map (concat names)) := by
  simp [call, callText, String.append_assoc]

theorem named_call {function : List Fragment} {args : List (List Fragment)}
    (hf : Named P function) (h : ∀ fs ∈ args, Named P fs) : Named P (call function args) := by
  simp [call, parameter?, hf, named_commas h]

def construction (type : TypeName) (members : List String) (args : List (List Fragment)) :
    List Fragment :=
  if members.length = args.length then object (List.zipWith pair members args)
  else call [text ("new " ++ type.display)] args

@[simp] theorem concat_construction (type : TypeName) (members : List String)
    (args : List (List Fragment)) :
    concat names (construction type members args) =
      constructionText type members (args.map (concat names)) := by
  unfold construction constructionText
  rw [List.length_map]
  split
  · rw [concat_object, concat_pairs]
  · simp [callText, String.append_assoc]

theorem named_construction {type : TypeName} {members : List String}
    {args : List (List Fragment)} (h : ∀ fs ∈ args, Named P fs) :
    Named P (construction type members args) := by
  unfold construction
  split
  · exact named_object (named_pairs h)
  · exact named_call (by simp [parameter?]) h

def conditional (test ifTrue : List Fragment) (ifFalse : Option (List Fragment)) :
    List Fragment :=
  text "((" :: test ++ text ")?(" :: ifTrue ++ text ")" ::
    match ifFalse with
    | some fs => text ":(" :: fs ++ [text "))"]
    | none => [text ")"]

@[simp] theorem concat_conditional (test ifTrue : List Fragment)
    (ifFalse : Option (List Fragment)) :
    concat names (conditional test ifTrue ifFalse) =
      conditionalText (concat names test) (concat names ifTrue)
        (ifFalse.map (concat names)) := by
  cases ifFalse <;> simp [conditional, conditionalText, String.append_assoc]

theorem named_conditional {test ifTrue : List Fragment} {ifFalse : Option (List Fragment)}
    (ht : Named P test) (ha : Named P ifTrue) (hb : ∀ fs, ifFalse = some fs → Named P fs) :
    Named P (conditional test ifTrue ifFalse) := by
  cases ifFalse with
  | none => simp [conditional, parameter?, ht, ha]
  | some fs => simp [conditional, parameter?, ht, ha, hb fs rfl]

def operation (form : BinaryForm) (l r : List Fragment) : List Fragment :=
  match form with
  | .between symbol => l ++ text symbol :: r
  | .element => l ++ text "[" :: r ++ [text "]"]
  | .fallback => text "(!(" :: l ++ text "))?(" :: r ++ text "):(" :: l ++ [text ")"]

@[simp] theorem concat_operation (form : BinaryForm) (l r : List Fragment) :
    concat names (operation form l r) = form.render (concat names l) (concat names r) := by
  cases form <;> simp [operation, BinaryForm.render, String.append_assoc]

theorem named_operation {form : BinaryForm} {l r : List Fragment} (hl : Named P l)
    (hr : Named P r) : Named P (operation form l r) := by
  cases form <;> simp [operation, parameter?, hl, hr]

end Fragment
end LambdaScript
