import LambdaScript.Proofs.Codec.Encodes
import LambdaScript.Proofs.Codec.Form
import LambdaScript.Proofs.Keyed

/-! # Other presentations of a document

A document can be presented in other ways: the keys of a structure in another order, with keys that
are not its fields, without fields that have their default, and a case without payload as an object
whose payload is null. These changes can be made in any number and at any depth, according to the
form of each part, and the document is decoded to the same thing afterwards. The keys of a map and
the one key of a case stay as they are.
-/

namespace LambdaScript

/-- The second document presents the first one differently, as documents of some form. -/
inductive Restyled : Form → Json → Json → Prop
  | refl (f : Form) (j : Json) : Restyled f j j
  | trans {f : Form} {j k l : Json} : Restyled f j k → Restyled f k l → Restyled f j l
  /-- The keys of a structure in another order. -/
  | permute {s : Struct} {ms ms' : List (String × Json)} (distinct : (ms.map Prod.fst).Nodup)
      (perm : ms.Perm ms') : Restyled (.struct s) (.obj ms) (.obj ms')
  /-- A key that no field of the structure has. -/
  | add {s : Struct} (before after : List (String × Json)) {key : String} (value : Json)
      (unknown : key ∉ s.fields.map Field.name) :
      Restyled (.struct s) (.obj (before ++ after)) (.obj (before ++ (key, value) :: after))
  /-- A field that has its default, which may be presented differently itself. -/
  | drop {s : Struct} (before after : List (String × Json)) (field : Field) {d j : Json}
      (known : field ∈ s.fields) (hdefault : field.default = some d)
      (same : Restyled field.form d j) (single : field.name ∉ (before ++ after).map Prod.fst) :
      Restyled (.struct s) (.obj (before ++ (field.name, j) :: after)) (.obj (before ++ after))
  /-- A case without payload as an object. -/
  | untag {c : Choice} {name : String} (plain : name ∈ c.plain) :
      Restyled (.choice c) (.str name) (.tag name .null)
  /-- The document of a field. -/
  | field {s : Struct} (before after : List (String × Json)) (field : Field) {j j' : Json}
      (known : field ∈ s.fields) (part : Restyled field.form j j') :
      Restyled (.struct s) (.obj (before ++ (field.name, j) :: after))
        (.obj (before ++ (field.name, j') :: after))
  /-- The payload of a case. -/
  | payload {c : Choice} {name : String} {form : Form} {p p' : Json}
      (known : (name, form) ∈ c.tagged) (part : Restyled form p p') :
      Restyled (.choice c) (.tag name p) (.tag name p')
  /-- An item of an array. -/
  | item {f : Form} (before after : List Json) {j j' : Json} (part : Restyled f j j') :
      Restyled (.list f) (.arr (before ++ j :: after)) (.arr (before ++ j' :: after))
  /-- Something that may be null. -/
  | present {c : Choice} {j j' : Json} (part : Restyled (.choice c) j j') :
      Restyled (.optional c) j j'
  /-- The document under a key of a map. -/
  | entry {c : Choice} (before after : List (String × Json)) (key : String) {j j' : Json}
      (part : Restyled (.choice c) j j') :
      Restyled (.map c) (.obj (before ++ (key, j) :: after)) (.obj (before ++ (key, j') :: after))

namespace Field
variable {field : Field} {j j' d : Json}

/-- The document of a field changes to another that is decoded to the same. -/
theorem read_replace (h : Json.Retains (field.form.decode j) (field.form.decode j'))
    (before after : List (String × Json)) :
    Json.Retains (field.read (before ++ (field.name, j) :: after))
      (field.read (before ++ (field.name, j') :: after)) := by
  have hlookup (k : Json) :
      (before ++ (field.name, k) :: after).lookup field.name =
        (before.lookup field.name).or (some k) := by
    rw [Keyed.lookup_middle, if_pos rfl]
  cases hbefore : before.lookup field.name with
  | none =>
    rw [read_of_lookup ((hlookup j).trans (by rw [hbefore]; rfl)),
      read_of_lookup ((hlookup j').trans (by rw [hbefore]; rfl))]
    exact h
  | some k =>
    rw [read_congr ((hlookup j).trans (by rw [hlookup j', hbefore]; rfl))]
    exact .refl _

/-- A field is decoded to its default with and without its document. -/
theorem read_drop {a : field.form.Result} (hdefault : field.default = some d)
    (ha : field.form.decode d = some a) (hj : field.form.decode j = some a)
    {before after : List (String × Json)} (single : field.name ∉ (before ++ after).map Prod.fst) :
    field.read (before ++ (field.name, j) :: after) = field.read (before ++ after) := by
  have hmissing := Keyed.lookup_eq_none_of_not_mem single
  have hbefore : before.lookup field.name = none := by
    rw [List.lookup_append] at hmissing
    exact (Option.or_eq_none_iff.mp hmissing).1
  have hfound : (before ++ (field.name, j) :: after).lookup field.name = some j := by
    rw [Keyed.lookup_middle, hbefore, if_pos rfl, Option.none_or]
  rw [read_of_lookup hfound, read_of_missing hmissing hdefault, ha, hj]

end Field

/-- A structure of which one field alone is changed. -/
theorem Struct.decode_retains_of_field {s : Struct} {field : Field} (known : field ∈ s.fields)
    {ms ms' : List (String × Json)} (hfield : Json.Retains (field.read ms) (field.read ms'))
    (others : ∀ name, name ≠ field.name → ms.lookup name = ms'.lookup name) :
    Json.Retains (s.decode (.obj ms)) (s.decode (.obj ms')) := by
  apply decode_retains
  intro other hother
  by_cases h : other.name = field.name
  · have hsame : other = field := List.inj_on_of_nodup_map s.nodup_names hother known h
    rw [hsame]
    exact hfield
  · rw [Field.read_congr (others other.name h)]
    exact .refl _

/-- A document that may be null stays null or not null. -/
theorem Choice.orNull_retains {c : Choice} {j j' : Json}
    (h : Json.Retains (c.decode j) (c.decode j')) (hnull : j = .null → j' = .null) :
    Json.Retains (Json.orNull? c.decode j) (Json.orNull? c.decode j') := by
  by_cases hj : j = .null
  · rw [hj, hnull hj]
    exact .refl _
  · rw [Json.orNull?_of_ne_null hj]
    intro o ho
    obtain ⟨a, ha, rfl⟩ := Option.map_eq_some_iff.mp ho
    have ha' : c.decode j' = some a := h a ha
    have hj' : j' ≠ .null := by
      rintro rfl
      rw [c.decode_null] at ha'
      cases ha'
    rw [Json.orNull?_of_ne_null hj', ha', Option.map_some]

namespace Restyled

theorem eq_null {f : Form} {j j' : Json} (h : Restyled f j j') (hj : j = .null) : j' = .null := by
  induction h with
  | refl => exact hj
  | trans _ _ ih ih' => exact ih' (ih hj)
  | present _ ih => exact ih hj
  | _ => cases hj

/-- What is decoded from a document is decoded from every presentation of it. -/
theorem retains {f : Form} {j j' : Json} (h : Restyled f j j') :
    Json.Retains (f.decode j) (f.decode j') := by
  induction h with
  | refl => exact .refl _
  | trans _ _ ih ih' => exact ih.trans ih'
  | permute distinct perm =>
    apply Struct.decode_retains
    intro field _
    rw [Field.read_congr (Keyed.lookup_perm perm distinct _)]
    exact .refl _
  | @add s before after key value unknown =>
    apply Struct.decode_retains
    intro field hfield
    have hne : field.name ≠ key := by
      rintro rfl
      exact unknown (List.mem_map_of_mem hfield)
    rw [← Field.read_congr (Keyed.lookup_middle_of_ne hne before after value)]
    exact .refl _
  | @drop s before after field d j known hdefault _ single ih =>
    apply Struct.decode_retains_of_field known
    · obtain ⟨a, ha⟩ := Struct.decode_default known hdefault
      rw [Field.read_drop hdefault ha (ih a ha) single]
      exact .refl _
    · intro name hname
      exact Keyed.lookup_middle_of_ne hname before after j
  | untag plain =>
    change Json.Retains (Choice.decode _ _) (Choice.decode _ _)
    rw [Choice.decode_tag_null plain]
    exact .refl _
  | @field s before after field j j' known _ ih =>
    apply Struct.decode_retains_of_field known
    · exact Field.read_replace ih before after
    · intro name hname
      rw [Keyed.lookup_middle_of_ne hname, Keyed.lookup_middle_of_ne hname]
  | payload known _ ih => exact Choice.decode_tag_retains known ih
  | item before after _ ih => exact Json.Retains.mapM ih before after
  | present part ih => exact Choice.orNull_retains ih part.eq_null
  | @entry c before after key j j' _ ih =>
    let decodeEntry (m : String × Json) := (c.decode m.2).map (m.1, ·)
    have hentry : Json.Retains (decodeEntry (key, j)) (decodeEntry (key, j')) :=
      Json.Retains.map ih _
    exact Json.Retains.mapM hentry before after

end Restyled

/-- Lambdas, tables of annotations and configurations are decoded from every presentation of their
documents. -/
theorem decode_restyled :
    (∀ f j j', Lambda.decode? j = some f → Restyled (.struct .lambda) j j' →
      Lambda.decode? j' = some f) ∧
    (∀ a j j', Annotations.decode? j = some a → Restyled (.struct .annotations) j j' →
      Annotations.decode? j' = some a) ∧
    (∀ c j j', Config.decode? j = some c → Restyled (.struct .config) j j' →
      Config.decode? j' = some c) := by
  refine ⟨fun f j j' hf h => ?_, fun a j j' ha h => h.retains a ha, fun c j j' hc h =>
    h.retains c hc⟩
  rw [Lambda.decode?_eq] at hf ⊢
  exact Json.Retains.map h.retains _ f hf

def titleLambda : Lambda :=
  ⟨["p"], .unary .not (.member (.parameter "p") ⟨⟨"Page"⟩, "Title", .property⟩)⟩

/-- The document of the title, whose member has some more keys. -/
def titleOperand (more : List (String × Json)) : Json :=
  .tag "member" (.obj [("target", .tag "parameter" (.str "p")),
    ("member", .obj ([("declaring_type", .str "Page"), ("name", .str "Title")] ++ more))])

/-- A configuration in which pages are found on `this`. -/
def pageConfig : Config := ⟨false, ⟨[("Page", .this)], [], []⟩⟩

theorem titleOperand_restyled :
    Restyled .expr (titleOperand [("kind", .str "property")]) (titleOperand []) := by
  have member : Restyled (.struct .member)
      (.obj [("declaring_type", .str "Page"), ("name", .str "Title"), ("kind", .str "property")])
      (.obj [("declaring_type", .str "Page"), ("name", .str "Title")]) :=
    .drop [_, _] [] ⟨"kind", .choice .memberKind, some (.str "property")⟩ (by simp [Struct.fields])
      rfl (.refl _ _) (by simp)
  have access : ("member", Form.struct .access) ∈ Choice.expr.tagged := by simp [Choice.tagged]
  exact .payload access
    (.field [_] [] ⟨"member", .struct .member, none⟩ (by simp [Struct.fields]) member)

/-- The keys of the negation in another order, its operator as an object, and no kind. -/
theorem titleBody_restyled :
    Restyled .expr
      (.tag "unary" (.obj [("op", .str "not"),
        ("operand", titleOperand [("kind", .str "property")])]))
      (.tag "unary" (.obj [("operand", titleOperand []), ("op", .tag "not" .null)])) := by
  have unary : ("unary", Form.struct .unary) ∈ Choice.expr.tagged := by simp [Choice.tagged]
  have not : Restyled (.choice .unaryOp) (.str "not") (.tag "not" .null) :=
    .untag (by simp [Choice.plain, UnaryOp.plain, UnaryOp.name])
  apply Restyled.payload unary
  apply Restyled.trans
  · exact .field [] [_] ⟨"op", .choice .unaryOp, none⟩ (by simp [Struct.fields]) not
  apply Restyled.trans
  · exact .field [_] [] ⟨"operand", .expr, none⟩ (by simp [Struct.fields]) titleOperand_restyled
  · exact .permute (by simp) (.swap _ _ _)

theorem decode_restyled_title :
    (∃ j, titleLambda.encode = some j ∧ Lambda.decode? j = some titleLambda) ∧
    Lambda.decode? (.obj [("params", .strings ["p"]), ("version", .int 2),
      ("body", .tag "unary" (.obj [("operand", titleOperand []), ("op", .tag "not" .null)]))]) =
        some titleLambda ∧
    Annotations.decode? (.obj [("types", .obj [("Page", .tag "this" .null)]), ("members", .obj []),
      ("methods", .obj [])]) = some pageConfig.annotations ∧
    Config.decode? (.obj [("annotations", pageConfig.annotations.encode)]) = some pageConfig := by
  obtain ⟨lambda, annotations, config⟩ := decode_restyled
  have hlambda : Lambda.decode? (.obj [("params", .strings ["p"]), ("body",
      .tag "unary" (.obj [("op", .str "not"),
        ("operand", titleOperand [("kind", .str "property")])]))]) = some titleLambda := rfl
  refine ⟨⟨_, rfl, hlambda⟩, lambda _ _ _ hlambda ?_, ?_, ?_⟩
  · apply Restyled.trans
    · exact .field [_] [] ⟨"body", .expr, none⟩ (by simp [Struct.fields]) titleBody_restyled
    · exact .add [_] [_] (.int 2) (by simp [Struct.fields])
  · apply annotations _ _ _ (Annotations.decode?_encode pageConfig.annotations)
    have this : Restyled (.choice .scope) (.str "this") (.tag "this" .null) :=
      .untag (by simp [Choice.plain])
    exact .field [] [_, _] ⟨"types", .map .scope, some (.obj [])⟩ (by simp [Struct.fields])
      (.entry [] [] "Page" this)
  · apply config _ _ _ (Config.decode?_encode pageConfig)
    exact .drop [] [_] ⟨"inline", .leaf Json.asBool?, some (.bool false)⟩ (by simp [Struct.fields])
      rfl (.refl _ _) (by simp)

end LambdaScript
