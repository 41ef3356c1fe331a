import LambdaScript.Codec.Expr
import LambdaScript.Proofs.Json.Document

/-! # What decoding yields

A property that a decoder gives to everything it decodes, from documents whose numbers are in range,
is passed on to the lists, options and structures that are decoded with it: their documents consist
of parts whose numbers are in range as well.
-/

namespace LambdaScript
namespace Json
variable {α : Type} {P : α → Prop} {decode : Json → Option α}

/-- Everything that is decoded from a document whose numbers are in range has the property `P`. -/
def Yields (decode : Json → Option α) (P : α → Prop) : Prop :=
  ∀ j a, InRange j → decode j = some a → P a

theorem InRange.items {js : List Json} (h : InRange (.arr js)) : ∀ j ∈ js, InRange j := by
  cases h with
  | arr parts => exact parts

theorem InRange.members {ms : List (String × Json)} (h : InRange (.obj ms)) :
    ∀ m ∈ ms, InRange m.2 := by
  cases h with
  | obj parts => exact parts

theorem InRange.payload {j p : Json} {name : String} (h : InRange j)
    (hcase : j.case? = some (name, some p)) : InRange p := by
  unfold case? at hcase
  split at hcase
  · cases hcase
  · cases hcase
    exact h.members _ (List.mem_singleton.mpr rfl)
  · cases hcase

theorem InRange.fields {j : Json} {names : List String} {fs : List (String × Json)}
    (h : InRange j) (hfields : j.fields? names = some fs) : ∀ m ∈ fs, InRange m.2 := by
  unfold fields? at hfields
  split at hfields
  · cases hfields
    exact h.members
  · split at hfields
    · cases hfields
      exact fun m hm => h.items _ (List.of_mem_zip hm).2
    · cases hfields
  · cases hfields

theorem InRange.objectFields {j : Json} {fs : List (String × Json)} (h : InRange j)
    (hfields : j.objectFields? = some fs) : ∀ m ∈ fs, InRange m.2 := by
  unfold objectFields? at hfields
  split at hfields
  · cases hfields
    exact h.members
  · cases hfields

theorem eq_of_plain {payload : Option Json} {result a : α}
    (h : plain payload result = some a) : a = result := by
  unfold plain at h
  split at h
  · exact (Option.some.inj h).symm
  · exact (Option.some.inj h).symm
  · cases h

theorem inRange_of_lookup {fs : List (String × Json)} {name : String} {j : Json}
    (hfs : ∀ m ∈ fs, InRange m.2) (h : fs.lookup name = some j) : InRange j := by
  obtain ⟨before, after, rfl, -⟩ := List.lookup_eq_some_iff.mp h
  exact hfs (name, j) (by simp)

theorem Yields.required (hd : Yields decode P) {fs : List (String × Json)} {name : String} {a : α}
    (hfs : ∀ m ∈ fs, InRange m.2) (h : required fs name decode = some a) : P a := by
  obtain ⟨j, hj, ha⟩ := Option.bind_eq_some_iff.mp h
  exact hd j a (inRange_of_lookup hfs hj) ha

theorem Yields.withDefault (hd : Yields decode P) {fs : List (String × Json)} {name : String}
    {default a : α} (hdefault : P default) (hfs : ∀ m ∈ fs, InRange m.2)
    (h : withDefault fs name default decode = some a) : P a := by
  unfold Json.withDefault at h
  split at h
  · cases h
    exact hdefault
  · next j hj => exact hd j a (inRange_of_lookup hfs hj) h

theorem Yields.asList? (hd : Yields decode P) :
    Yields (asList? decode) fun as => ∀ a ∈ as, P a := by
  intro j as hj h
  unfold Json.asList? at h
  split at h
  · next items =>
    have hitems := hj.items
    clear hj
    induction items generalizing as with
    | nil =>
      cases h
      simp
    | cons k items ih =>
      obtain ⟨hk, hrest⟩ := List.forall_mem_cons.mp hitems
      simp only [List.mapM_cons, Option.bind_eq_bind, Option.bind_eq_some_iff, Option.pure_def,
        Option.some.injEq] at h
      obtain ⟨a, ha, bs, hbs, rfl⟩ := h
      exact List.forall_mem_cons.mpr ⟨hd k a hk ha, ih bs hbs hrest⟩
  · cases h

theorem Yields.orNull? (hd : Yields decode P) :
    Yields (orNull? decode) fun o => ∀ a, o = some a → P a := by
  intro j o hj h a ha
  subst ha
  unfold Json.orNull? at h
  split at h
  · cases h
  · obtain ⟨b, hb, heq⟩ := Option.map_eq_some_iff.mp h
    cases heq
    exact hd j a hj hb

end Json

variable {α : Type} {P : α → Prop} {decode : Json → Option α}

theorem Slot.yields (hd : Json.Yields decode P) :
    Json.Yields (decodeWith decode) fun s => ∀ v, s.value = some v → P v := by
  intro j s hj h
  simp only [decodeWith, Option.bind_eq_bind, Option.bind_eq_some_iff, Option.pure_def,
    Option.some.injEq] at h
  obtain ⟨fs, hfs, name, -, kind, -, value, hvalue, rfl⟩ := h
  exact hd.orNull?.withDefault (by simp) (hj.fields hfs) hvalue

theorem Record.yields (hd : Json.Yields decode P) :
    Json.Yields (decodeWith decode) fun r => ∀ s ∈ r.slots, ∀ v, s.value = some v → P v := by
  intro j r hj h
  simp only [decodeWith, Option.bind_eq_bind, Option.bind_eq_some_iff, Option.pure_def,
    Option.some.injEq] at h
  obtain ⟨fs, hfs, type, -, slots, hslots, rfl⟩ := h
  exact (Slot.yields hd).asList?.withDefault (by simp) (hj.fields hfs) hslots

theorem Construction.yields (hd : Json.Yields decode P) :
    Json.Yields (decodeWith decode) fun c => ∀ a ∈ c.args, P a := by
  intro j c hj h
  simp only [decodeWith, Option.bind_eq_bind, Option.bind_eq_some_iff, Option.pure_def,
    Option.some.injEq] at h
  obtain ⟨fs, hfs, type, -, members, -, args, hargs, rfl⟩ := h
  exact hd.asList?.withDefault (by simp) (hj.fields hfs) hargs

theorem Binding.yields (hd : Json.Yields decode P) :
    Json.Yields (decodeWith decode) fun b => P b.value := by
  intro j b hj h
  simp only [decodeWith, Option.bind_eq_bind, Option.bind_eq_some_iff, Option.pure_def,
    Option.some.injEq] at h
  obtain ⟨fs, hfs, m, -, value, hvalue, rfl⟩ := h
  exact hd.required (hj.fields hfs) hvalue

theorem Lambda.decodeParts_yields (hd : Json.Yields decode P) :
    Json.Yields (decodeParts decode) fun parts => P parts.2 := by
  intro j parts hj h
  simp only [decodeParts, Option.bind_eq_bind, Option.bind_eq_some_iff, Option.pure_def,
    Option.some.injEq] at h
  obtain ⟨fs, hfs, params, -, body, hbody, rfl⟩ := h
  exact hd.required (hj.fields hfs) hbody

end LambdaScript
