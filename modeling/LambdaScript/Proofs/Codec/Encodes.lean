import LambdaScript.Codec.Config
import LambdaScript.Codec.Expr

/-! # Documents that encode something

A document encodes a thing if it is decoded to it, with any fuel from the depth of the document on,
and if it is not null: null stands for things that are missing. Declarations, operators and
annotations are encoded by documents of their own, and the parts of values and expressions by
documents that contain those of their values and expressions.
-/

namespace LambdaScript

/-- A document other than null that is decoded to `a`. -/
structure Json.Encodes {α : Type} (decode : Nat → Json → Option α) (j : Json) (a : α) : Prop where
  notNull : j ≠ .null
  decodes : ∀ fuel, j.depth ≤ fuel → decode fuel j = some a

namespace Json
variable {α : Type}

@[simp] theorem depth_tag (name : String) (payload : Json) :
    (tag name payload).depth = payload.depth + 1 := by
  simp [tag, depth, depthMembers]

/-- A case is decoded with one unit of fuel for the tag and the rest for the payload. -/
theorem encodes_tag {decode : Nat → Json → Option α} {name : String} {payload : Json} {a : α}
    (h : ∀ fuel, payload.depth ≤ fuel → decode (fuel + 1) (tag name payload) = some a) :
    Encodes decode (tag name payload) a where
  notNull := by simp [tag]
  decodes fuel hfuel := by
    rw [depth_tag] at hfuel
    cases fuel with
    | zero => omega
    | succ fuel => exact h fuel (by omega)

def EncodesAll (decode : Nat → Json → Option α) (js : List Json) (as : List α) : Prop :=
  ∀ fuel, depthItems js ≤ fuel → (arr js).asList? (decode fuel) = some as

/-- Things that all have encodings are encoded by the array of these. -/
theorem exists_encodesAll {encode : α → Option Json} {decode : Nat → Json → Option α}
    {as : List α} (h : ∀ a ∈ as, ∃ j, encode a = some j ∧ Encodes decode j a) :
    ∃ js, as.mapM encode = some js ∧ EncodesAll decode js as := by
  induction as with
  | nil => exact ⟨[], rfl, fun _ _ => rfl⟩
  | cons a as ih =>
    obtain ⟨⟨j, hj, hencodes⟩, hrest⟩ := List.forall_mem_cons.mp h
    obtain ⟨js, hjs, hdecode⟩ := ih hrest
    refine ⟨j :: js, by simp [hj, hjs], fun fuel hfuel => ?_⟩
    rw [depthItems] at hfuel
    have hhead := hencodes.decodes fuel (by omega)
    have htail := hdecode fuel (by omega)
    simp only [asList?, List.mapM_cons, hhead] at htail ⊢
    simp [htail]

theorem orNull?_of_ne_null {decode : Json → Option α} {j : Json} (h : j ≠ null) :
    orNull? decode j = (decode j).map some := by
  cases j with
  | null => exact absurd rfl h
  | _ => rfl

theorem asList?_strings (items : List String) : (strings items).asList? asString? = some items := by
  simp only [strings, asList?]
  induction items with
  | nil => rfl
  | cons s items ih => simp [ih, asString?]

end Json

theorem MemberKind.decode?_encode (k : MemberKind) : decode? k.encode = some k := by
  cases k <;> rfl

theorem Member.decode?_encode (m : Member) : decode? m.encode = some m := by
  obtain ⟨owner, name, kind⟩ := m
  cases kind <;> rfl

theorem CastType.encodes (t : CastType) : Json.Encodes decodeWithin t.encode t := by
  induction t with
  | nullable inner ih =>
    refine Json.encodes_tag fun fuel hfuel => ?_
    change (decodeWithin fuel inner.encode).map nullable = _
    rw [ih.decodes fuel hfuel]
    rfl
  | array item ih =>
    refine Json.encodes_tag fun fuel hfuel => ?_
    change (decodeWithin fuel item.encode).map array = _
    rw [ih.decodes fuel hfuel]
    rfl
  | enumeration type => exact Json.encodes_tag fun _ _ => rfl
  | object type => exact Json.encodes_tag fun _ _ => rfl
  | _ =>
    refine ⟨by simp [encode], fun fuel hfuel => ?_⟩
    obtain ⟨rest, rfl⟩ := Nat.exists_eq_add_of_le' hfuel
    rfl

theorem CastType.decode?_encode (t : CastType) : decode? t.encode = some t :=
  t.encodes.decodes _ (Nat.le_refl _)

theorem BinaryOp.decode?_encode (op : BinaryOp) : decode? op.encode = some op := by
  cases op <;> rfl

theorem UnaryOp.decode?_encode (op : UnaryOp) : decode? op.encode = some op := by
  cases op with
  | convert t =>
    change (CastType.decode? t.encode).map convert = _
    rw [CastType.decode?_encode]
    rfl
  | convertChecked t =>
    change (CastType.decode? t.encode).map convertChecked = _
    rw [CastType.decode?_encode]
    rfl
  | _ => rfl

namespace Slot
variable {α : Type} {encode : α → Option Json} {decode : Nat → Json → Option α}

def encodeWith (encode : α → Option Json) : Slot α → Option Json
  | ⟨name, kind, none⟩ => some (Slot.encode ⟨name, kind, none⟩)
  | ⟨name, kind, some v⟩ => (encode v).map fun j => Slot.encode ⟨name, kind, some j⟩

theorem decodeWith_encode (decode : Json → Option α) (name : String) (kind : MemberKind)
    (value : Option Json) :
    decodeWith decode (Slot.encode ⟨name, kind, value⟩) =
      ((Json.ofOption value).orNull? decode).map (⟨name, kind, ·⟩) := by
  rw [Option.map_eq_bind]
  cases kind <;> rfl

/-- A member is encoded if its value is, and without a value it is encoded by null. -/
theorem exists_encodes {s : Slot α}
    (h : ∀ v, s.value = some v → ∃ j, encode v = some j ∧ Json.Encodes decode j v) :
    ∃ j, s.encodeWith encode = some j ∧
      Json.Encodes (fun fuel => decodeWith (decode fuel)) j s := by
  obtain ⟨name, kind, value⟩ := s
  cases value with
  | none => exact ⟨_, rfl, by simp [Slot.encode], fun fuel _ => decodeWith_encode _ name kind none⟩
  | some v =>
    obtain ⟨j, hj, hencodes⟩ := h v rfl
    refine ⟨_, by rw [encodeWith, hj]; rfl, by simp [Slot.encode], fun fuel hfuel => ?_⟩
    simp only [Slot.encode, Json.depth, Json.depthMembers, Json.ofOption] at hfuel
    rw [decodeWith_encode, Json.ofOption, Json.orNull?_of_ne_null hencodes.notNull,
      hencodes.decodes fuel (by omega)]
    rfl

end Slot

namespace Binding
variable {α : Type} {encode : α → Option Json} {decode : Nat → Json → Option α}

def encodeWith (encode : α → Option Json) (b : Binding α) : Option Json :=
  (encode b.value).map fun j => Binding.encode ⟨b.member, j⟩

theorem decodeWith_encode (decode : Json → Option α) (b : Binding Json) :
    decodeWith decode b.encode = (decode b.value).map (⟨b.member, ·⟩) := by
  change (Member.decode? b.member.encode).bind _ = _
  rw [Member.decode?_encode, Option.map_eq_bind]
  rfl

theorem exists_encodes {b : Binding α}
    (h : ∃ j, encode b.value = some j ∧ Json.Encodes decode j b.value) :
    ∃ j, b.encodeWith encode = some j ∧
      Json.Encodes (fun fuel => decodeWith (decode fuel)) j b := by
  obtain ⟨j, hj, hencodes⟩ := h
  refine ⟨_, by rw [encodeWith, hj]; rfl, by simp [Binding.encode], fun fuel hfuel => ?_⟩
  simp only [Binding.encode, Json.depth, Json.depthMembers] at hfuel
  rw [decodeWith_encode, hencodes.decodes fuel (by omega)]
  rfl

end Binding

theorem Record.decodeWith_encode {α : Type} (decode : Json → Option α) (r : Record Json) :
    decodeWith decode r.encode =
      ((Json.arr (r.slots.map Slot.encode)).asList? (Slot.decodeWith decode)).map
        (⟨r.type, ·⟩) := by
  rw [Option.map_eq_bind]
  rfl

theorem Construction.decodeWith_encode {α : Type} (decode : Json → Option α)
    (c : Construction Json) :
    decodeWith decode c.encode =
      ((Json.arr c.args).asList? decode).map (⟨c.type, c.members, ·⟩) := by
  change ((Json.strings c.members).asList? Json.asString?).bind _ = _
  rw [Json.asList?_strings, Option.map_eq_bind]
  rfl

theorem Lambda.decodeParts_encodeParts {α : Type} (decode : Json → Option α) (params : List String)
    (body : Json) :
    decodeParts decode (encodeParts params body) = (decode body).map (params, ·) := by
  change ((Json.strings params).asList? Json.asString?).bind _ = _
  rw [Json.asList?_strings, Option.map_eq_bind]
  rfl

theorem Scope.decode?_encode (s : Scope) : decode? s.encode = some s := by
  cases s <;> rfl

theorem ScopeMap.decode?_encode (map : ScopeMap) :
    ScopeMap.decode? (ScopeMap.encode map) = some map := by
  simp only [ScopeMap.encode, ScopeMap.decode?, Json.asMap?]
  induction map with
  | nil => rfl
  | cons entry map ih => simp [ih, Scope.decode?_encode]

theorem Annotations.decode?_encode (a : Annotations) : decode? a.encode = some a := by
  change (ScopeMap.decode? (ScopeMap.encode a.types)).bind _ = _
  rw [ScopeMap.decode?_encode]
  change (ScopeMap.decode? (ScopeMap.encode a.members)).bind _ = _
  rw [ScopeMap.decode?_encode]
  change (ScopeMap.decode? (ScopeMap.encode a.methods)).bind _ = _
  rw [ScopeMap.decode?_encode]
  rfl

theorem Config.decode?_encode (c : Config) : decode? c.encode = some c := by
  change (Annotations.decode? c.annotations.encode).bind _ = _
  rw [Annotations.decode?_encode]
  rfl

end LambdaScript
