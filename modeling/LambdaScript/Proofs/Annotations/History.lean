import LambdaScript.Annotations
import Mathlib.Data.List.Induction

/-! # The history of an annotation table

A table starts empty and is filled by annotating one declaration after another. What it answers for
a declaration was set by the last annotation under the same key, among those of the same sort:
types, members and methods never meet. The key of a type is its name. That of a member or method
is the name of its type, a dot and its own name, which tells two declarations apart unless a dot
inside one of their names can be read as that dot.
-/

namespace LambdaScript

/-- Setting the scope of a name changes what is found under that name only. -/
theorem ScopeMap.get?_insert (map : ScopeMap) (key k : String) (scope : Scope) :
    (map.insert key scope).get? k = if key = k then some scope else map.get? k := by
  induction map with
  | nil =>
    by_cases h : key = k
    · simp [insert, get?, h]
    · simp [insert, get?, h, List.lookup_cons, beq_eq_false_iff_ne.mpr (Ne.symm h)]
  | cons entry rest ih =>
    obtain ⟨name, old⟩ := entry
    unfold get? at ih
    by_cases same : name = key
    · subst same
      by_cases h : name = k
      · simp [insert, get?, h]
      · simp [insert, get?, h, List.lookup_cons, beq_eq_false_iff_ne.mpr (Ne.symm h)]
    · by_cases h : k = name
      · subst h
        simp [insert, get?, same, Ne.symm same]
      · simp [insert, get?, same, List.lookup_cons, beq_eq_false_iff_ne.mpr h, ih]

namespace TypeName

/-- A type and a name under it that are spelled like another type and name, with the dot between
them one part further on: the other type is a name under the first, and the first name starts with
the part by which they differ. -/
def Runs (owner : TypeName) (name : String) (owner' : TypeName) (name' : String) : Prop :=
  ∃ part : String, owner'.text = owner.qualify part ∧ name = qualify ⟨part⟩ name'

/-- Two declarations whose names are spelled alike but divided at different dots. -/
def Confusable (owner : TypeName) (name : String) (owner' : TypeName) (name' : String) : Prop :=
  Runs owner name owner' name' ∨ Runs owner' name' owner name

theorem toList_qualify (owner : TypeName) (name : String) :
    (owner.qualify name).toList = owner.text.toList ++ '.' :: name.toList := by
  simp [qualify]

theorem Runs.qualify_eq {owner owner' : TypeName} {name name' : String}
    (h : Runs owner name owner' name') : owner.qualify name = owner'.qualify name' := by
  obtain ⟨part, howner, hname⟩ := h
  simp only [qualify] at howner hname ⊢
  simp only [howner, hname, String.append_assoc]

/-- Two spellings of one text, where the type of the second is at least as long. -/
theorem eq_or_runs_of_toList_eq {owner owner' : TypeName} {name name' : String} {more : List Char}
    (howner : owner'.text.toList = owner.text.toList ++ more)
    (hname : '.' :: name.toList = more ++ '.' :: name'.toList) :
    (owner = owner' ∧ name = name') ∨ Runs owner name owner' name' := by
  cases more with
  | nil =>
    simp only [List.append_nil, List.nil_append, List.cons.injEq, true_and] at howner hname
    have htext : owner.text = owner'.text := String.ext howner.symm
    exact .inl ⟨congrArg mk htext, String.ext hname⟩
  | cons c part =>
    simp only [List.cons_append, List.cons.injEq] at hname
    obtain ⟨rfl, hname⟩ := hname
    right
    exists String.ofList part
    constructor
    · apply String.ext
      simp [toList_qualify, howner]
    · apply String.ext
      simp [toList_qualify, hname]

/-- Two declarations have one qualified name only if they are the same or confusable. -/
theorem qualify_eq_iff {owner owner' : TypeName} {name name' : String} :
    owner.qualify name = owner'.qualify name' ↔
      (owner = owner' ∧ name = name') ∨ Confusable owner name owner' name' := by
  constructor
  · intro h
    have htext := congrArg String.toList h
    simp only [toList_qualify] at htext
    rcases List.append_eq_append_iff.mp htext with ⟨more, howner, hname⟩ | ⟨more, howner, hname⟩
    · rcases eq_or_runs_of_toList_eq howner hname with same | runs
      · exact .inl same
      · exact .inr (.inl runs)
    · rcases eq_or_runs_of_toList_eq howner hname with same | runs
      · exact .inl ⟨same.1.symm, same.2.symm⟩
      · exact .inr (.inr runs)
  · rintro (⟨rfl, rfl⟩ | runs | runs)
    · rfl
    · exact runs.qualify_eq
    · exact runs.qualify_eq.symm

theorem Runs.mem_toList {owner owner' : TypeName} {name name' : String}
    (h : Runs owner name owner' name') : '.' ∈ name.toList := by
  obtain ⟨part, -, rfl⟩ := h
  simp [toList_qualify]

/-- Names without dots are never confusable, whatever the types are called. -/
theorem not_confusable_of_dotless {name name' : String} (h : '.' ∉ name.toList)
    (h' : '.' ∉ name'.toList) (owner owner' : TypeName) :
    ¬ Confusable owner name owner' name' := by
  rintro (runs | runs)
  · exact h runs.mem_toList
  · exact h' runs.mem_toList

/-- Names that are not confusable are told apart by their spelling. -/
theorem qualify_eq_iff_of_not_confusable {owner owner' : TypeName} {name name' : String}
    (h : ¬ Confusable owner name owner' name') :
    owner.qualify name = owner'.qualify name' ↔ owner = owner' ∧ name = name' := by
  rw [qualify_eq_iff, or_iff_left h]

end TypeName

inductive Mark where
  | type (t : TypeName) (scope : Scope)
  | member (m : Member) (scope : Scope)
  | method (m : Method) (scope : Scope)
deriving DecidableEq

namespace Mark

def type? : Mark → Option (TypeName × Scope)
  | .type t scope => some (t, scope)
  | _ => none

def member? : Mark → Option (Member × Scope)
  | .member m scope => some (m, scope)
  | _ => none

def method? : Mark → Option (Method × Scope)
  | .method m scope => some (m, scope)
  | _ => none

end Mark

/-- The scope that was set last for one of some declarations. -/
def lastScope? {α : Type} (p : α → Prop) [DecidablePred p] (marks : List (α × Scope)) :
    Option Scope :=
  (marks.filter fun mark => p mark.1).getLast?.map Prod.snd

theorem lastScope?_concat {α : Type} (p : α → Prop) [DecidablePred p]
    (marks : List (α × Scope)) (x : α) (scope : Scope) :
    lastScope? p (marks ++ [(x, scope)]) = if p x then some scope else lastScope? p marks := by
  by_cases h : p x <;> simp [lastScope?, List.filter_append, h]

theorem lastScope?_congr {α : Type} {p q : α → Prop} [DecidablePred p] [DecidablePred q]
    {marks : List (α × Scope)} (h : ∀ mark ∈ marks, (p mark.1 ↔ q mark.1)) :
    lastScope? p marks = lastScope? q marks := by
  unfold lastScope?
  congr 2
  apply List.filter_congr
  intro mark hmark
  simp [h mark hmark]

namespace Annotations

def mark (a : Annotations) : Mark → Annotations
  | .type t scope => a.markType t scope
  | .member m scope => a.markMember m scope
  | .method m scope => a.markMethod m scope

def ofMarks (marks : List Mark) : Annotations := marks.foldl mark empty

/-- One of the three maps of a table, by what the marks set in it. -/
structure Column (α : Type) where
  map : Annotations → ScopeMap
  key : α → String
  select : Mark → Option (α × Scope)
  map_empty : map empty = []
  map_mark : ∀ a mark, map (a.mark mark) =
    (select mark).elim (map a) fun entry => (map a).insert (key entry.1) entry.2

/-- What a column holds under a key is what was set last under it. -/
theorem Column.get?_ofMarks {α : Type} (column : Column α) (marks : List Mark) (k : String) :
    (column.map (ofMarks marks)).get? k =
      lastScope? (fun x => column.key x = k) (marks.filterMap column.select) := by
  induction marks using List.reverseRecOn with
  | nil => simp [ofMarks, column.map_empty, ScopeMap.get?, lastScope?]
  | append_singleton marks mark ih =>
    have hmark : ofMarks (marks ++ [mark]) = (ofMarks marks).mark mark := by simp [ofMarks]
    rw [hmark, column.map_mark, List.filterMap_append]
    cases hselect : column.select mark with
    | none => simp [hselect, ih]
    | some entry =>
      obtain ⟨x, scope⟩ := entry
      simp [hselect, ScopeMap.get?_insert, lastScope?_concat, ih]

def typeColumn : Column TypeName where
  map := types
  key := TypeName.text
  select := Mark.type?
  map_empty := rfl
  map_mark _ mark := by cases mark <;> rfl

def memberColumn : Column Member where
  map := members
  key := Member.qualifiedName
  select := Mark.member?
  map_empty := rfl
  map_mark _ mark := by cases mark <;> rfl

def methodColumn : Column Method where
  map := methods
  key := Method.qualifiedName
  select := Mark.method?
  map_empty := rfl
  map_mark _ mark := by cases mark <;> rfl

/-- What a table answers after any annotations: for a type, the last annotation of that type; for a
member or method, the last one under its qualified name among those of members, or of methods. That
is the last annotation of the same declaration, unless one with a confusable name was annotated. -/
theorem toLookup_ofMarks (marks : List Mark) :
    (∀ t, (ofMarks marks).toLookup.type t = lastScope? (· = t) (marks.filterMap Mark.type?)) ∧
    (∀ m, (ofMarks marks).toLookup.member m =
      lastScope? (·.qualifiedName = m.qualifiedName) (marks.filterMap Mark.member?)) ∧
    (∀ m, (ofMarks marks).toLookup.method m =
      lastScope? (·.qualifiedName = m.qualifiedName) (marks.filterMap Mark.method?)) ∧
    (∀ owner name owner' name', TypeName.qualify owner name = TypeName.qualify owner' name' ↔
      (owner = owner' ∧ name = name') ∨ TypeName.Confusable owner name owner' name') ∧
    (∀ m, (∀ mark ∈ marks.filterMap Mark.member?,
        ¬ TypeName.Confusable mark.1.owner mark.1.name m.owner m.name) →
      (ofMarks marks).toLookup.member m =
        lastScope? (fun x => x.owner = m.owner ∧ x.name = m.name)
          (marks.filterMap Mark.member?)) ∧
    (∀ m, (∀ mark ∈ marks.filterMap Mark.method?,
        ¬ TypeName.Confusable mark.1.owner mark.1.name m.owner m.name) →
      (ofMarks marks).toLookup.method m =
        lastScope? (fun x => x.owner = m.owner ∧ x.name = m.name)
          (marks.filterMap Mark.method?)) := by
  have member (m : Member) := memberColumn.get?_ofMarks marks m.qualifiedName
  have method (m : Method) := methodColumn.get?_ofMarks marks m.qualifiedName
  refine ⟨fun t => ?_, member, method, fun _ _ _ _ => TypeName.qualify_eq_iff,
    fun m distinct => ?_, fun m distinct => ?_⟩
  · apply (typeColumn.get?_ofMarks marks t.text).trans
    apply lastScope?_congr
    intro mark _
    exact ⟨fun h => congrArg TypeName.mk h, fun h => congrArg TypeName.text h⟩
  · apply (member m).trans
    apply lastScope?_congr
    intro mark hmark
    exact TypeName.qualify_eq_iff_of_not_confusable (distinct mark hmark)
  · apply (method m).trans
    apply lastScope?_congr
    intro mark hmark
    exact TypeName.qualify_eq_iff_of_not_confusable (distinct mark hmark)

/-- A type, a member and a method, of which the member and the method have one qualified name. -/
def pageMarks : List Mark :=
  [.member ⟨⟨"Page"⟩, "title", .field⟩ .onThis, .method ⟨⟨"Page"⟩, "title"⟩ .this,
    .member ⟨⟨"Page"⟩, "title", .property⟩ .global, .type ⟨"Page"⟩ .this]

theorem toLookup_pageMarks :
    (ofMarks pageMarks).toLookup.member ⟨⟨"Page"⟩, "title", .field⟩ = some .global ∧
    (ofMarks pageMarks).toLookup.method ⟨⟨"Page"⟩, "title"⟩ = some .this := by
  have members : ∀ mark ∈ pageMarks.filterMap Mark.member?, '.' ∉ mark.1.name.toList := by decide
  have methods : ∀ mark ∈ pageMarks.filterMap Mark.method?, '.' ∉ mark.1.name.toList := by decide
  obtain ⟨-, -, -, -, member, method⟩ := toLookup_ofMarks pageMarks
  constructor
  · apply (member _ _).trans
    · decide
    · intro mark hmark
      exact TypeName.not_confusable_of_dotless (members mark hmark) (by decide) _ _
  · apply (method _ _).trans
    · decide
    · intro mark hmark
      exact TypeName.not_confusable_of_dotless (methods mark hmark) (by decide) _ _

/-- The member `X` of `Geo.Point` and the member `Point.X` of `Geo` have one qualified name: the
annotation of the first is found for the second, which was never annotated. -/
theorem nested_member_shares_annotation :
    (ofMarks [.member ⟨⟨"Geo.Point"⟩, "X", .property⟩ .global]).toLookup.member
        ⟨⟨"Geo"⟩, "Point.X", .property⟩ = some .global ∧
    lastScope? (fun m : Member => m.owner = ⟨"Geo"⟩ ∧ m.name = "Point.X")
      ([.member ⟨⟨"Geo.Point"⟩, "X", .property⟩ .global].filterMap Mark.member?) = none := by
  decide

end Annotations
end LambdaScript
