import Mathlib.Data.List.Nodup

/-! # Keyed lists

Objects, tables and maps are lists of entries with keys. Looking a key up does not depend on the
order of the entries as long as no key occurs twice, and it does not see entries with other keys.
-/

namespace LambdaScript.Keyed
variable {α : Type} {es : List (String × α)} {key : String}

theorem lookup_perm {es' : List (String × α)} (perm : es.Perm es')
    (distinct : (es.map Prod.fst).Nodup) (key : String) : es.lookup key = es'.lookup key := by
  induction perm with
  | nil => rfl
  | cons e _ ih =>
    obtain ⟨name, a⟩ := e
    have hrest := ih (List.nodup_cons.mp distinct).2
    simp only [List.lookup_cons, hrest]
  | swap e e' rest =>
    obtain ⟨name, a⟩ := e
    obtain ⟨name', a'⟩ := e'
    have hne : name ≠ name' := by
      rintro rfl
      simp at distinct
    by_cases h : key = name
    · have hother : (key == name') = false := beq_eq_false_iff_ne.mpr (h ▸ hne)
      simp only [List.lookup_cons, hother]
    · have hkey : (key == name) = false := beq_eq_false_iff_ne.mpr h
      simp only [List.lookup_cons, hkey]
  | trans perm _ ih ih' =>
    rw [ih distinct, ih' ((perm.map _).nodup_iff.mp distinct)]

theorem lookup_middle (before after : List (String × α)) (key name : String) (a : α) :
    (before ++ (key, a) :: after).lookup name =
      (before.lookup name).or (if name = key then some a else after.lookup name) := by
  by_cases h : name = key
  · simp [List.lookup_append, h]
  · simp [List.lookup_append, List.lookup_cons, h, beq_eq_false_iff_ne.mpr h]

theorem lookup_middle_of_ne {name : String} (h : name ≠ key) (before after : List (String × α))
    (a : α) : (before ++ (key, a) :: after).lookup name = (before ++ after).lookup name := by
  rw [lookup_middle, if_neg h, List.lookup_append]

theorem lookup_eq_none_of_not_mem (h : key ∉ es.map Prod.fst) : es.lookup key = none := by
  apply List.lookup_eq_none_iff.mpr
  intro e he
  simp only [bne_iff_ne]
  rintro rfl
  exact h (List.mem_map_of_mem he)

theorem not_mem_of_lookup_eq_none (h : es.lookup key = none) : key ∉ es.map Prod.fst := by
  intro hkey
  obtain ⟨e, he, rfl⟩ := List.mem_map.mp hkey
  simpa using List.lookup_eq_none_iff.mp h e he

theorem mem_of_lookup_eq_some {a : α} (h : es.lookup key = some a) : (key, a) ∈ es := by
  obtain ⟨before, after, rfl, -⟩ := List.lookup_eq_some_iff.mp h
  exact List.mem_append_right _ List.mem_cons_self

/-- An entry with a new key comes last. -/
theorem nodup_concat (distinct : (es.map Prod.fst).Nodup) (h : key ∉ es.map Prod.fst) (a : α) :
    ((es ++ [(key, a)]).map Prod.fst).Nodup := by
  rw [List.map_append, List.map_singleton, ← List.concat_eq_append]
  exact .concat h distinct

theorem not_mem_before {after : List (String × α)} {a : α}
    (distinct : ((es ++ (key, a) :: after).map Prod.fst).Nodup) : key ∉ es.map Prod.fst := by
  rw [List.map_append, List.map_cons] at distinct
  intro h
  exact (List.disjoint_of_nodup_append distinct) h List.mem_cons_self

/-- Changing the values of entries one by one, where all can be changed, keeps the keys. -/
theorem keys_mapM {β : Type} {f : α → Option β} {bs : List (String × β)}
    (h : (es.mapM fun e => (f e.2).map (e.1, ·)) = some bs) :
    bs.map Prod.fst = es.map Prod.fst := by
  induction es generalizing bs with
  | nil =>
    cases h
    rfl
  | cons e es ih =>
    simp only [List.mapM_cons, Option.bind_eq_bind, Option.bind_eq_some_iff,
      Option.map_eq_some_iff, Option.pure_def, Option.some.injEq] at h
    obtain ⟨_, ⟨b, -, rfl⟩, bs, hbs, rfl⟩ := h
    rw [List.map_cons, List.map_cons, ih hbs]

end LambdaScript.Keyed
