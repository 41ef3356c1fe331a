import LambdaScript.Json.Read
import LambdaScript.Proofs.Keyed

/-! # Documents that are read

Not every document of the data type has a text. The reader gives only integers that are signed or
unsigned 64-bit words and only finite double-precision numbers, and it keeps one member for each key
of an object, at every depth of a document.
-/

namespace LambdaScript.Json

/-- All numbers of a document are numbers that a text can have. -/
inductive InRange : Json → Prop
  | null : InRange null
  | bool (b : Bool) : InRange (bool b)
  | int {n : Int} (least : -(pow2 63 : Int) ≤ n) (greatest : n < pow2 64) : InRange (int n)
  | float {x : Binary64} (finite : x.isFinite = true) : InRange (float x)
  | str (s : String) : InRange (str s)
  | arr {items : List Json} (parts : ∀ j ∈ items, InRange j) : InRange (arr items)
  | obj {members : List (String × Json)} (parts : ∀ m ∈ members, InRange m.2) :
      InRange (obj members)

/-- A document that a text can have: its numbers are in range, and no key of an object occurs
twice. -/
inductive Textual : Json → Prop
  | null : Textual null
  | bool (b : Bool) : Textual (bool b)
  | int {n : Int} (least : -(pow2 63 : Int) ≤ n) (greatest : n < pow2 64) : Textual (int n)
  | float {x : Binary64} (finite : x.isFinite = true) : Textual (float x)
  | str (s : String) : Textual (str s)
  | arr {items : List Json} (parts : ∀ j ∈ items, Textual j) : Textual (arr items)
  | obj {members : List (String × Json)} (distinct : (members.map Prod.fst).Nodup)
      (parts : ∀ m ∈ members, Textual m.2) : Textual (obj members)

theorem Textual.inRange {j : Json} (h : Textual j) : InRange j := by
  induction h with
  | null => exact .null
  | bool b => exact .bool b
  | int least greatest => exact .int least greatest
  | float finite => exact .float finite
  | str s => exact .str s
  | arr parts ih => exact .arr ih
  | obj distinct parts ih => exact .obj ih

theorem mem_setMember {key : String} {j : Json} {members : List (String × Json)}
    {m : String × Json} (h : m ∈ setMember key j members) : m = (key, j) ∨ m ∈ members := by
  induction members with
  | nil => simpa [setMember] using h
  | cons n members ih =>
    rw [setMember] at h
    split at h
    · next heq =>
      rw [heq] at h
      rcases List.mem_cons.mp h with h | h
      · exact .inl h
      · exact .inr (List.mem_cons_of_mem _ h)
    · rcases List.mem_cons.mp h with h | h
      · exact .inr (h ▸ List.mem_cons_self)
      · exact (ih h).imp_right (List.mem_cons_of_mem _)

theorem keys_setMember (key : String) (j : Json) (members : List (String × Json)) :
    (setMember key j members).map Prod.fst =
      if key ∈ members.map Prod.fst then members.map Prod.fst
      else members.map Prod.fst ++ [key] := by
  induction members with
  | nil => rfl
  | cons m members ih =>
    rw [setMember]
    by_cases h : m.1 = key
    · simp [h]
    · have hne : ¬ key = m.1 := fun heq => h heq.symm
      rw [if_neg h, List.map_cons, ih]
      simp only [List.map_cons, List.mem_cons, hne, false_or]
      split <;> rfl

/-- A member with a new key comes last. -/
theorem setMember_of_not_mem {key : String} {members : List (String × Json)}
    (h : key ∉ members.map Prod.fst) (j : Json) :
    setMember key j members = members ++ [(key, j)] := by
  induction members with
  | nil => rfl
  | cons m members ih =>
    simp only [List.map_cons, List.mem_cons, not_or] at h
    rw [setMember, if_neg (Ne.symm h.1), ih h.2, List.cons_append]

theorem nodup_setMember {members : List (String × Json)} (h : (members.map Prod.fst).Nodup)
    (key : String) (j : Json) : ((setMember key j members).map Prod.fst).Nodup := by
  by_cases hkey : key ∈ members.map Prod.fst
  · rw [keys_setMember, if_pos hkey]
    exact h
  · rw [setMember_of_not_mem hkey]
    exact Keyed.nodup_concat h hkey j

theorem textual_of_ofParts? {negative : Bool} {whole part : List Char} {exponent : Option Int}
    {j : Json} (h : ofParts? negative whole part exponent = some j) : Textual j := by
  have hfloat {x : Binary64} (hx : (if x.isFinite then some (float x) else none) = some j) :
      Textual j := by
    obtain ⟨hfinite, heq⟩ := Option.ite_none_right_eq_some.mp hx
    cases heq
    exact .float hfinite
  cases negative with
  | true =>
    simp only [ofParts?, if_true] at h
    split at h
    · next hword =>
      cases h
      have hle := hword.2.2.2
      have hlt : pow2 63 < pow2 64 := by decide
      exact .int (by omega) (by omega)
    · exact hfloat h
  | false =>
    simp only [ofParts?, if_false, Bool.false_eq_true] at h
    split at h
    · next hword =>
      cases h
      exact .int (by omega) (by omega)
    · exact hfloat h

theorem textual_of_number? {cs rest : List Char} {j : Json} (h : number? cs = some (j, rest)) :
    Textual j := by
  simp only [number?, Option.bind_eq_bind, Option.bind_eq_some_iff, Prod.exists, Option.pure_def,
    Option.some.injEq, Prod.mk.injEq] at h
  obtain ⟨whole, _, -, part, _, -, exponent, _, -, k, hk, rfl, -⟩ := h
  exact textual_of_ofParts? hk

theorem textual_of_word? {word cs rest : List Char} {j k : Json} (hj : Textual j)
    (h : word? word j cs = some (k, rest)) : Textual k := by
  unfold word? at h
  split at h
  · cases h
    exact hj
  · cases h

/-- With some fuel, all three readers give documents that a text can have. -/
structure ReadsTextual (fuel : Nat) : Prop where
  value {cs rest : List Char} {j : Json} (h : value? fuel cs = some (j, rest)) : Textual j
  items {cs rest : List Char} {js : List Json} (h : items? fuel cs = some (js, rest)) :
    ∀ j ∈ js, Textual j
  members {read ms : List (String × Json)} {cs rest : List Char} (before : Textual (obj read))
    (h : members? fuel read cs = some (ms, rest)) : Textual (obj ms)

namespace ReadsTextual
variable {fuel : Nat} {cs rest : List Char}

theorem value_succ (ih : ReadsTextual fuel) {j : Json}
    (h : value? (fuel + 1) cs = some (j, rest)) : Textual j := by
  rw [value?] at h
  split at h
  · split at h
    · cases h
      exact .arr (by simp)
    · obtain ⟨⟨js, tail⟩, hjs, heq⟩ := Option.map_eq_some_iff.mp h
      cases heq
      exact .arr (ih.items hjs)
  · split at h
    · cases h
      exact .obj (by simp) (by simp)
    · obtain ⟨⟨ms, tail⟩, hms, heq⟩ := Option.map_eq_some_iff.mp h
      cases heq
      exact ih.members (.obj (by simp) (by simp)) hms
  · obtain ⟨⟨s, tail⟩, -, heq⟩ := Option.map_eq_some_iff.mp h
    cases heq
    exact .str s
  · exact textual_of_word? (.bool true) h
  · exact textual_of_word? (.bool false) h
  · exact textual_of_word? .null h
  · exact textual_of_number? h

theorem items_succ (ih : ReadsTextual fuel) {js : List Json}
    (h : items? (fuel + 1) cs = some (js, rest)) : ∀ j ∈ js, Textual j := by
  simp only [items?, Option.bind_eq_bind, Option.bind_eq_some_iff, Prod.exists] at h
  obtain ⟨j, _, hj, h⟩ := h
  have hj := ih.value hj
  split at h
  · obtain ⟨⟨js, tail⟩, hjs, heq⟩ := Option.map_eq_some_iff.mp h
    cases heq
    exact List.forall_mem_cons.mpr ⟨hj, ih.items hjs⟩
  · cases h
    simpa using hj
  · cases h

theorem textual_setMember {key : String} {j : Json} {members : List (String × Json)}
    (hj : Textual j) (h : Textual (obj members)) : Textual (obj (setMember key j members)) := by
  cases h with
  | obj distinct parts =>
    refine .obj (nodup_setMember distinct key j) fun m hm => ?_
    rcases mem_setMember hm with rfl | hm
    · exact hj
    · exact parts m hm

theorem members_succ (ih : ReadsTextual fuel) {read ms : List (String × Json)}
    (before : Textual (obj read)) (h : members? (fuel + 1) read cs = some (ms, rest)) :
    Textual (obj ms) := by
  simp only [members?, Option.bind_eq_bind, Option.bind_eq_some_iff, Prod.exists] at h
  obtain ⟨key, _, -, h⟩ := h
  split at h
  · simp only [Option.bind_eq_some_iff, Prod.exists] at h
    obtain ⟨j, _, hj, h⟩ := h
    have hset : Textual (obj (setMember key j read)) := textual_setMember (ih.value hj) before
    split at h
    · exact ih.members hset h
    · cases h
      exact hset
    · cases h
  · cases h

end ReadsTextual

theorem readsTextual (fuel : Nat) : ReadsTextual fuel := by
  induction fuel with
  | zero => exact ⟨by simp [value?], by simp [items?], by simp [members?]⟩
  | succ fuel ih => exact ⟨ih.value_succ, ih.items_succ, ih.members_succ⟩

theorem textual_of_read? {s : String} {j : Json} (h : read? s = some j) : Textual j := by
  simp only [read?, Option.bind_eq_bind, Option.bind_eq_some_iff, Prod.exists] at h
  obtain ⟨k, _, hk, h⟩ := h
  obtain ⟨-, heq⟩ := Option.ite_none_right_eq_some.mp h
  cases heq
  exact (readsTextual _).value hk

/-- The numbers of a document that is read are in range. -/
theorem inRange_of_read? {s : String} {j : Json} (h : read? s = some j) : InRange j :=
  (textual_of_read? h).inRange

end LambdaScript.Json
