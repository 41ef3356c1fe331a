import LambdaScript.Codec.Expr

/-! # Decoding without fuel

Conversion targets, values and expressions are decoded with fuel, as much as their document is deep.
More fuel changes nothing, since each level of decoding goes one level into the document. So the
decoders satisfy the equations of a recursion on documents: the payload of a case is decoded by the
decoder itself.
-/

namespace LambdaScript
namespace Json
variable {α β : Type}

/-- Whatever the first result is, so is the second. -/
def Retains (o o' : Option α) : Prop := ∀ a, o = some a → o' = some a

namespace Retains

theorem refl (o : Option α) : Retains o o := fun _ h => h

theorem trans {o o' o'' : Option α} (h : Retains o o') (h' : Retains o' o'') : Retains o o'' :=
  fun a ha => h' a (h a ha)

theorem antisymm {o o' : Option α} (h : Retains o o') (h' : Retains o' o) : o = o' := by
  apply Option.ext
  intro a
  exact ⟨h a, h' a⟩

theorem none (o : Option α) : Retains Option.none o := fun _ h => nomatch h

theorem bind {o o' : Option α} {f f' : α → Option β} (h : Retains o o')
    (hf : ∀ a, o = some a → Retains (f a) (f' a)) : Retains (o.bind f) (o'.bind f') := by
  intro b hb
  obtain ⟨a, ha, hb⟩ := Option.bind_eq_some_iff.mp hb
  exact Option.bind_eq_some_iff.mpr ⟨a, h a ha, hf a ha b hb⟩

theorem map {o o' : Option α} (h : Retains o o') (f : α → β) : Retains (o.map f) (o'.map f) := by
  intro b hb
  obtain ⟨a, ha, hb⟩ := Option.map_eq_some_iff.mp hb
  exact Option.map_eq_some_iff.mpr ⟨a, h a ha, hb⟩

theorem mapM {f : α → Option β} {a a' : α} (h : Retains (f a) (f a')) (before after : List α) :
    Retains ((before ++ a :: after).mapM f) ((before ++ a' :: after).mapM f) := by
  induction before with
  | nil =>
    simp only [List.nil_append, List.mapM_cons]
    exact h.bind fun _ _ => .refl _
  | cons b before ih =>
    simp only [List.cons_append, List.mapM_cons]
    exact (refl _).bind fun _ _ => ih.bind fun _ _ => .refl _

end Retains

theorem depth_pos (j : Json) : 0 < j.depth := by
  cases j <;> simp [depth]

theorem depth_le_depthItems {js : List Json} {j : Json} (h : j ∈ js) : j.depth ≤ depthItems js := by
  induction js with
  | nil => cases h
  | cons k js ih =>
    rw [depthItems]
    rcases List.mem_cons.mp h with rfl | h
    · omega
    · have := ih h
      omega

theorem depth_le_depthMembers {ms : List (String × Json)} {m : String × Json} (h : m ∈ ms) :
    m.2.depth ≤ depthMembers ms := by
  induction ms with
  | nil => cases h
  | cons entry ms ih =>
    rw [depthMembers]
    rcases List.mem_cons.mp h with rfl | h
    · omega
    · have := ih h
      omega

theorem depth_payload {j p : Json} {name : String} (h : j.case? = some (name, some p)) :
    p.depth < j.depth := by
  unfold case? at h
  split at h
  · cases h
  · cases h
    simp [depth, depthMembers]
  · cases h

theorem depth_objectFields {j : Json} {fs : List (String × Json)}
    (h : j.objectFields? = some fs) : ∀ m ∈ fs, m.2.depth < j.depth := by
  unfold objectFields? at h
  split at h
  · cases h
    intro m hm
    have := depth_le_depthMembers hm
    rw [depth]
    omega
  · cases h

theorem depth_fields {j : Json} {names : List String} {fs : List (String × Json)}
    (h : j.fields? names = some fs) : ∀ m ∈ fs, m.2.depth < j.depth := by
  unfold fields? at h
  split at h
  · cases h
    exact depth_objectFields rfl
  · split at h
    · cases h
      intro m hm
      have := depth_le_depthItems (List.of_mem_zip hm).2
      rw [depth]
      omega
    · cases h
  · cases h

/-- On documents of some depth at most, the second decoder decodes whatever the first does. -/
def RetainsTo (depth : Nat) (decode decode' : Json → Option α) : Prop :=
  ∀ j, j.depth ≤ depth → Retains (decode j) (decode' j)

namespace RetainsTo
variable {depth : Nat} {decode decode' : Json → Option α}

theorem field (h : RetainsTo depth decode decode') {fs : List (String × Json)} {name : String}
    {j : Json} (hfs : ∀ m ∈ fs, m.2.depth ≤ depth) (hj : fs.lookup name = some j) :
    Retains (decode j) (decode' j) := by
  obtain ⟨before, after, rfl, -⟩ := List.lookup_eq_some_iff.mp hj
  exact h j (hfs (name, j) (by simp))

theorem required (h : RetainsTo depth decode decode') {fs : List (String × Json)}
    (hfs : ∀ m ∈ fs, m.2.depth ≤ depth) (name : String) :
    Retains (required fs name decode) (required fs name decode') :=
  Retains.bind (.refl _) fun _ hj => h.field hfs hj

theorem withDefault (h : RetainsTo depth decode decode') {fs : List (String × Json)}
    (hfs : ∀ m ∈ fs, m.2.depth ≤ depth) (name : String) (default : α) :
    Retains (withDefault fs name default decode) (withDefault fs name default decode') := by
  unfold Json.withDefault
  cases hj : fs.lookup name with
  | none => exact .refl _
  | some j => exact h.field hfs hj

theorem asList? (h : RetainsTo depth decode decode') :
    RetainsTo depth (asList? decode) (asList? decode') := by
  intro j hj
  cases j with
  | arr items =>
    rw [Json.depth] at hj
    have hitems : ∀ k ∈ items, k.depth ≤ depth := fun k hk => by
      have := depth_le_depthItems hk
      omega
    clear hj
    unfold Json.asList?
    induction items with
    | nil => exact .refl _
    | cons k items ih =>
      obtain ⟨hk, hrest⟩ := List.forall_mem_cons.mp hitems
      simp only [List.mapM_cons]
      exact .bind (h k hk) fun a _ => .bind (ih hrest) fun as _ => .refl _
  | _ => exact .refl _

theorem orNull? (h : RetainsTo depth decode decode') :
    RetainsTo depth (orNull? decode) (orNull? decode') := by
  intro j hj
  cases j with
  | null => exact .refl _
  | _ => exact (h _ hj).map some

theorem ofFields {names : List String} {body body' : List (String × Json) → Option α}
    (h : ∀ fs, (∀ m ∈ fs, m.2.depth ≤ depth) → Retains (body fs) (body' fs)) :
    RetainsTo depth (fun j => (j.fields? names).bind body)
      (fun j => (j.fields? names).bind body') := by
  intro j hj
  apply Retains.bind (.refl _)
  intro fs hfs
  apply h
  intro m hm
  exact Nat.le_of_lt (Nat.lt_of_lt_of_le (depth_fields hfs m hm) hj)

theorem ofObjectFields {body body' : List (String × Json) → Option α}
    (h : ∀ fs, (∀ m ∈ fs, m.2.depth ≤ depth) → Retains (body fs) (body' fs)) :
    RetainsTo depth (fun j => j.objectFields?.bind body)
      (fun j => j.objectFields?.bind body') := by
  intro j hj
  apply Retains.bind (.refl _)
  intro fs hfs
  apply h
  intro m hm
  exact Nat.le_of_lt (Nat.lt_of_lt_of_le (depth_objectFields hfs m hm) hj)

end RetainsTo

/-- A decoder with fuel that decodes a case by `step`, which decodes the parts of its payload with
one unit of fuel less. -/
structure Fueled (decode : Nat → Json → Option α)
    (step : (Json → Option α) → String × Option Json → Option α) : Prop where
  zero : ∀ j, decode 0 j = none
  succ : ∀ fuel j, decode (fuel + 1) j = j.case?.bind (step (decode fuel))
  retains : ∀ {f f' : Json → Option α} (name : String) (payload : Option Json),
    (∀ p, payload = some p → RetainsTo p.depth f f') →
      Retains (step f (name, payload)) (step f' (name, payload))

namespace Fueled
variable {decode : Nat → Json → Option α}
  {step : (Json → Option α) → String × Option Json → Option α}

/-- As much fuel as the document is deep is enough. -/
theorem retainsTo (h : Fueled decode step) (n m : Nat) : RetainsTo m (decode n) (decode m) := by
  induction n generalizing m with
  | zero =>
    intro j _
    rw [h.zero]
    exact .none _
  | succ n ih =>
    intro j hj
    cases m with
    | zero => exact absurd j.depth_pos (by omega)
    | succ m =>
      rw [h.succ, h.succ]
      apply Retains.bind (.refl _)
      rintro ⟨name, payload⟩ hcase
      apply h.retains
      rintro p rfl k hk
      have hp := depth_payload hcase
      exact ih m k (by omega)

/-- With as much fuel as needed everywhere, a case is decoded by decoding its parts. -/
theorem decode_depth (h : Fueled decode step) (j : Json) :
    decode j.depth j = j.case?.bind (step fun k => decode k.depth k) := by
  obtain ⟨fuel, hfuel⟩ : ∃ fuel, j.depth = fuel + 1 := Nat.exists_eq_add_one.mpr j.depth_pos
  rw [hfuel, h.succ]
  cases hcase : j.case? with
  | none => rfl
  | some c =>
    obtain ⟨name, payload⟩ := c
    have hdepth : ∀ p, payload = some p → p.depth ≤ fuel := by
      rintro p rfl
      have := depth_payload hcase
      omega
    apply Retains.antisymm
    · apply h.retains
      intro p _ k _
      exact h.retainsTo fuel k.depth k (Nat.le_refl _)
    · apply h.retains
      intro p hp k hk
      exact h.retainsTo k.depth fuel k (Nat.le_trans hk (hdepth p hp))

end Fueled
end Json

section
variable {α : Type} {depth : Nat} {decode decode' : Json → Option α}

theorem Slot.retainsTo (h : Json.RetainsTo depth decode decode') :
    Json.RetainsTo depth (decodeWith decode) (decodeWith decode') :=
  .ofFields fun _ hfs => .bind (.refl _) fun _ _ => .bind (.refl _) fun _ _ =>
    .bind (h.orNull?.withDefault hfs _ _) fun _ _ => .refl _

theorem Record.retainsTo (h : Json.RetainsTo depth decode decode') :
    Json.RetainsTo depth (decodeWith decode) (decodeWith decode') :=
  .ofFields fun _ hfs => .bind (.refl _) fun _ _ =>
    .bind ((Slot.retainsTo h).asList?.withDefault hfs _ _) fun _ _ => .refl _

theorem Construction.retainsTo (h : Json.RetainsTo depth decode decode') :
    Json.RetainsTo depth (decodeWith decode) (decodeWith decode') :=
  .ofFields fun _ hfs => .bind (.refl _) fun _ _ => .bind (.refl _) fun _ _ =>
    .bind (h.asList?.withDefault hfs _ _) fun _ _ => .refl _

theorem Binding.retainsTo (h : Json.RetainsTo depth decode decode') :
    Json.RetainsTo depth (decodeWith decode) (decodeWith decode') :=
  .ofFields fun _ hfs => .bind (.refl _) fun _ _ =>
    .bind (h.required hfs _) fun _ _ => .refl _

theorem Lambda.retainsTo (h : Json.RetainsTo depth decode decode') :
    Json.RetainsTo depth (decodeParts decode) (decodeParts decode') :=
  .ofFields fun _ hfs => .bind (.refl _) fun _ _ =>
    .bind (h.required hfs _) fun _ _ => .refl _

end

namespace CastType

def decodeCase (decode : Json → Option CastType) : String × Option Json → Option CastType
  | ("string", p) => Json.plain p string
  | ("char", p) => Json.plain p char
  | ("boolean", p) => Json.plain p boolean
  | ("integer", p) => Json.plain p integer
  | ("float", p) => Json.plain p float
  | ("instant", p) => Json.plain p instant
  | ("duration", p) => Json.plain p duration
  | ("guid", p) => Json.plain p guid
  | ("enum", some p) => (TypeName.decode? p).map enumeration
  | ("nullable", some p) => (decode p).map nullable
  | ("array", some p) => (decode p).map array
  | ("object", some p) => (TypeName.decode? p).map object
  | _ => none

theorem fueled : Json.Fueled decodeWithin decodeCase where
  zero _ := rfl
  succ _ _ := rfl
  retains name payload h := by
    unfold decodeCase
    split
    -- the two cases whose payload is decoded with the same decoder
    case h_10 p heq =>
      cases heq
      exact (h p rfl p (Nat.le_refl _)).map nullable
    case h_11 p heq =>
      cases heq
      exact (h p rfl p (Nat.le_refl _)).map array
    all_goals exact .refl _

theorem decode?_eq (j : Json) : decode? j = j.case?.bind (decodeCase decode?) :=
  fueled.decode_depth j

end CastType

namespace Value

def decodeCase (decode : Json → Option Value) : String × Option Json → Option Value
  | ("null", p) => Json.plain p null
  | ("string", some p) => p.asString?.map string
  | ("char", some p) => p.asChar?.map char
  | ("boolean", some p) => p.asBool?.map boolean
  | ("integer", some p) => p.asWord?.map integer
  | ("float", some p) => p.asFloat?.map float
  | ("instant", some p) => (Instant.decode? p).map instant
  | ("duration", some p) => p.asWord?.map fun n => duration ⟨n.toInt⟩
  | ("enum", some p) => decodeEnumeration? p
  | ("array", some p) => (p.asList? decode).map array
  | ("structured", some p) => (Record.decodeWith decode p).map record
  | _ => none

theorem fueled : Json.Fueled decodeWithin decodeCase where
  zero _ := rfl
  succ _ _ := rfl
  retains name payload h := by
    unfold decodeCase
    split
    -- the two cases whose payload is decoded with the same decoder
    case h_10 p heq =>
      cases heq
      exact ((h p rfl).asList? p (Nat.le_refl _)).map array
    case h_11 p heq =>
      cases heq
      exact (Record.retainsTo (h p rfl) p (Nat.le_refl _)).map record
    all_goals exact .refl _

theorem decode?_eq (j : Json) : decode? j = j.case?.bind (decodeCase decode?) :=
  fueled.decode_depth j

end Value

namespace Expr

/-- The payload of a case is decoded by a decoder that decodes no less. -/
theorem decodeCase_retains {decode decode' : Json → Option Expr} (name : String) (p : Json)
    (h : Json.RetainsTo p.depth decode decode') :
    Json.Retains (decodeCase decode name p) (decodeCase decode' name p) := by
  have object {body body' : List (String × Json) → Option Expr}
      (hbody : ∀ fs, (∀ m ∈ fs, m.2.depth ≤ p.depth) → Json.Retains (body fs) (body' fs)) :
      Json.Retains (p.objectFields?.bind body) (p.objectFields?.bind body') :=
    Json.RetainsTo.ofObjectFields hbody p (Nat.le_refl _)
  unfold decodeCase
  split
  · exact .refl _
  · exact object fun fs hfs => .bind (h.required hfs _) fun _ _ => .refl _
  · exact object fun fs hfs => .bind (h.required hfs _) fun _ _ =>
      .bind (h.asList?.required hfs _) fun _ _ => .refl _
  · exact (Construction.retainsTo h p (Nat.le_refl _)).map new
  · exact object fun fs hfs => .bind ((Construction.retainsTo h).required hfs _) fun _ _ =>
      .bind ((Binding.retainsTo h).asList?.required hfs _) fun _ _ => .refl _
  · exact (h.asList? p (Nat.le_refl _)).map newArray
  · exact .refl _
  · exact object fun fs hfs => .bind (.refl _) fun _ _ => .bind (h.required hfs _) fun _ _ =>
      .bind (h.required hfs _) fun _ _ => .refl _
  · exact object fun fs hfs => .bind (.refl _) fun _ _ => .bind (h.required hfs _) fun _ _ =>
      .refl _
  · exact object fun fs hfs => .bind (h.orNull?.withDefault hfs _ _) fun _ _ =>
      .bind (.refl _) fun _ _ => .bind (h.asList?.required hfs _) fun _ _ => .refl _
  · exact object fun fs hfs => .bind (h.required hfs _) fun _ _ =>
      .bind (h.required hfs _) fun _ _ => .bind (h.orNull?.withDefault hfs _ _) fun _ _ => .refl _
  · exact .bind (Lambda.retainsTo h p (Nat.le_refl _)) fun _ _ => .refl _
  · exact object fun fs hfs => .bind (h.required hfs _) fun _ _ =>
      .bind (h.asList?.required hfs _) fun _ _ => .refl _
  · exact object fun fs hfs => .bind (h.required hfs _) fun _ _ => .refl _
  · exact .refl _

/-- Decodes a case of expressions; each has a payload. -/
def decodeTagged (decode : Json → Option Expr) : String × Option Json → Option Expr
  | (name, some p) => decodeCase decode name p
  | (_, none) => none

theorem fueled : Json.Fueled decodeWithin decodeTagged where
  zero _ := rfl
  succ _ _ := rfl
  retains name payload h := by
    cases payload with
    | none => exact .refl _
    | some p => exact decodeCase_retains name p (h p rfl)

theorem decode?_eq (j : Json) : decode? j = j.case?.bind (decodeTagged decode?) :=
  fueled.decode_depth j

theorem decode?_tag (name : String) (p : Json) :
    decode? (.tag name p) = decodeCase decode? name p :=
  decode?_eq _

end Expr

theorem Lambda.decode?_eq (j : Json) :
    decode? j = (decodeParts Expr.decode? j).map fun parts => ⟨parts.1, parts.2⟩ := by
  have hparts : decodeParts (Expr.decodeWithin j.depth) j = decodeParts Expr.decode? j := by
    apply Json.Retains.antisymm
    · refine Lambda.retainsTo (fun k _ => ?_) j (Nat.le_refl _)
      exact Expr.fueled.retainsTo j.depth k.depth k (Nat.le_refl _)
    · refine Lambda.retainsTo (fun k hk => ?_) j (Nat.le_refl _)
      exact Expr.fueled.retainsTo k.depth j.depth k hk
  rw [decode?, hparts, Option.map_eq_bind]
  rfl

end LambdaScript
