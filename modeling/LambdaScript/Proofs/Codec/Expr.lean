import LambdaScript.Proofs.Codec.Value
import LambdaScript.Proofs.Expr.Nodes

/-! # Expressions and their documents

An expression can be expressed by a document if all its constants can. The document of a node is put
together from those of its children, one lemma for each kind of node, and decoding takes it apart
again. Conversely, the constants of everything that is decoded can be expressed.
-/

namespace LambdaScript.Expr

/-- All constants of an expression can be expressed. -/
def Expressible (e : Expr) : Prop := ∀ v, Occurs (constant v) e → v.Expressible

theorem Expressible.child {c e : Expr} (h : e.Expressible) (mem : c ∈ e.children) :
    c.Expressible :=
  fun v hv => h v (.child mem hv)

theorem expressible_of_children {e : Expr} (children : ∀ c ∈ e.children, c.Expressible)
    (constant : ∀ v, e = .constant v → v.Expressible) : e.Expressible := by
  intro v hv
  cases hv with
  | self => exact constant v rfl
  | child mem inner => exact children _ mem v inner

theorem encodeAll_eq_mapM (es : List Expr) : encodeAll es = es.mapM encode := by
  induction es with
  | nil => rfl
  | cons e es ih => simp [encodeAll, ih]

theorem encodeBindings_eq_mapM (bs : List (Binding Expr)) :
    encodeBindings bs = bs.mapM (Binding.encodeWith encode) := by
  induction bs with
  | nil => rfl
  | cons b bs ih =>
    obtain ⟨m, e⟩ := b
    rw [encodeBindings, ih, List.mapM_cons, Binding.encodeWith]
    cases encode e <;> rfl

theorem decodeWithin_tag (fuel : Nat) (name : String) (p : Json) :
    decodeWithin (fuel + 1) (.tag name p) = decodeCase (decodeWithin fuel) name p := rfl

section
variable {t l r : Json} {target left right : Expr} {js : List Json} {es : List Expr}

theorem encodes_member (ht : Json.Encodes decodeWithin t target) (m : Member) :
    Json.Encodes decodeWithin (.tag "member" (.obj [("target", t), ("member", m.encode)]))
      (member target m) := by
  refine Json.encodes_tag fun fuel hfuel => ?_
  simp only [Json.depth, Json.depthMembers] at hfuel
  change (decodeWithin fuel t).bind _ = _
  rw [ht.decodes fuel (by omega)]
  change (Member.decode? m.encode).bind _ = _
  rw [Member.decode?_encode]
  rfl

/-- A node with a target and arguments, under a name by which these are decoded. -/
theorem encodes_applied {name : String} {node : Expr → List Expr → Expr}
    (named : ∀ decode t js, decodeCase decode name (.obj [("target", t), ("args", .arr js)]) =
      (decode t).bind fun target => ((Json.arr js).asList? decode).map (node target))
    (ht : Json.Encodes decodeWithin t target) (hargs : Json.EncodesAll decodeWithin js es) :
    Json.Encodes decodeWithin (.tag name (.obj [("target", t), ("args", .arr js)]))
      (node target es) := by
  refine Json.encodes_tag fun fuel hfuel => ?_
  simp only [Json.depth, Json.depthMembers] at hfuel
  rw [decodeWithin_tag, named, ht.decodes fuel (by omega), Option.bind_some,
    hargs fuel (by omega), Option.map_some]

theorem encodes_index (ht : Json.Encodes decodeWithin t target)
    (hargs : Json.EncodesAll decodeWithin js es) :
    Json.Encodes decodeWithin (.tag "index" (.obj [("target", t), ("args", .arr js)]))
      (index target es) :=
  encodes_applied (fun decode t js => by simp only [Option.map_eq_bind]; rfl) ht hargs

theorem encodes_invoke (ht : Json.Encodes decodeWithin t target)
    (hargs : Json.EncodesAll decodeWithin js es) :
    Json.Encodes decodeWithin (.tag "invoke" (.obj [("target", t), ("args", .arr js)]))
      (invoke target es) :=
  encodes_applied (fun decode t js => by simp only [Option.map_eq_bind]; rfl) ht hargs

theorem encodes_new (type : TypeName) (members : List String)
    (hargs : Json.EncodesAll decodeWithin js es) :
    Json.Encodes decodeWithin (.tag "new" (Construction.encode ⟨type, members, js⟩))
      (new ⟨type, members, es⟩) := by
  refine Json.encodes_tag fun fuel hfuel => ?_
  simp only [Construction.encode, Json.depth, Json.depthMembers] at hfuel
  change (Construction.decodeWith (decodeWithin fuel) _).map new = _
  rw [Construction.decodeWith_encode, hargs fuel (by omega)]
  rfl

theorem decodeCase_memberInit (decode : Json → Option Expr) (base bindings : Json) :
    decodeCase decode "member_init" (.obj [("new", base), ("bindings", bindings)]) =
      (Construction.decodeWith decode base).bind fun base =>
        (bindings.asList? (Binding.decodeWith decode)).map (memberInit base) := by
  simp only [Option.map_eq_bind]
  rfl

theorem encodes_memberInit (type : TypeName) (members : List String) {ks : List Json}
    {bs : List (Binding Expr)} (hargs : Json.EncodesAll decodeWithin js es)
    (hbindings : Json.EncodesAll (fun fuel => Binding.decodeWith (decodeWithin fuel)) ks bs) :
    Json.Encodes decodeWithin (.tag "member_init"
        (.obj [("new", Construction.encode ⟨type, members, js⟩), ("bindings", .arr ks)]))
      (memberInit ⟨type, members, es⟩ bs) := by
  refine Json.encodes_tag fun fuel hfuel => ?_
  simp only [Construction.encode, Json.depth, Json.depthMembers] at hfuel
  rw [decodeWithin_tag, decodeCase_memberInit, Construction.decodeWith_encode,
    hargs fuel (by omega)]
  change ((Json.arr ks).asList? (Binding.decodeWith (decodeWithin fuel))).map _ = _
  rw [hbindings fuel (by omega)]
  rfl

theorem encodes_newArray (hitems : Json.EncodesAll decodeWithin js es) :
    Json.Encodes decodeWithin (.tag "new_array" (.arr js)) (newArray es) := by
  refine Json.encodes_tag fun fuel hfuel => ?_
  rw [Json.depth] at hfuel
  change ((Json.arr js).asList? (decodeWithin fuel)).map newArray = _
  rw [hitems fuel (by omega)]
  rfl

theorem encodes_constant {v : Value} (hv : Json.Encodes Value.decodeWithin t v) :
    Json.Encodes decodeWithin (.tag "constant" t) (constant v) := by
  refine Json.encodes_tag fun fuel hfuel => ?_
  change (Value.decodeWithin t.depth t).map constant = _
  rw [hv.decodes t.depth (Nat.le_refl _)]
  rfl

theorem encodes_binary (hl : Json.Encodes decodeWithin l left)
    (hr : Json.Encodes decodeWithin r right) (op : BinaryOp) :
    Json.Encodes decodeWithin
      (.tag "binary" (.obj [("op", op.encode), ("left", l), ("right", r)]))
      (binary op left right) := by
  refine Json.encodes_tag fun fuel hfuel => ?_
  simp only [Json.depth, Json.depthMembers] at hfuel
  change (BinaryOp.decode? op.encode).bind _ = _
  rw [BinaryOp.decode?_encode]
  change (decodeWithin fuel l).bind _ = _
  rw [hl.decodes fuel (by omega)]
  change (decodeWithin fuel r).bind _ = _
  rw [hr.decodes fuel (by omega)]
  rfl

theorem encodes_unary (ht : Json.Encodes decodeWithin t target) (op : UnaryOp) :
    Json.Encodes decodeWithin (.tag "unary" (.obj [("op", op.encode), ("operand", t)]))
      (unary op target) := by
  refine Json.encodes_tag fun fuel hfuel => ?_
  simp only [Json.depth, Json.depthMembers] at hfuel
  change (UnaryOp.decode? op.encode).bind _ = _
  rw [UnaryOp.decode?_encode]
  change (decodeWithin fuel t).bind _ = _
  rw [ht.decodes fuel (by omega)]
  rfl

def EncodesOption (j : Json) (e : Option Expr) : Prop :=
  ∀ fuel, j.depth ≤ fuel → j.orNull? (decodeWithin fuel) = some e

theorem exists_encodesOption {e : Option Expr}
    (h : ∀ c, e = some c → ∃ j, encode c = some j ∧ Json.Encodes decodeWithin j c) :
    ∃ j, encodeOption e = some j ∧ EncodesOption j e := by
  cases e with
  | none => exact ⟨.null, rfl, fun _ _ => rfl⟩
  | some c =>
    obtain ⟨j, hj, hencodes⟩ := h c rfl
    refine ⟨j, hj, fun fuel hfuel => ?_⟩
    rw [Json.orNull?_of_ne_null hencodes.notNull, hencodes.decodes fuel hfuel]
    rfl

theorem encodes_call {target : Option Expr} (ht : EncodesOption t target) (m : Method)
    (hargs : Json.EncodesAll decodeWithin js es) :
    Json.Encodes decodeWithin
      (.tag "call" (.obj [("target", t), ("method", m.encode), ("args", .arr js)]))
      (call target m es) := by
  refine Json.encodes_tag fun fuel hfuel => ?_
  simp only [Json.depth, Json.depthMembers] at hfuel
  change (t.orNull? (decodeWithin fuel)).bind _ = _
  rw [ht fuel (by omega)]
  change ((Json.arr js).asList? (decodeWithin fuel)).bind _ = _
  rw [hargs fuel (by omega)]
  rfl

theorem encodes_conditional {o : Json} {other : Option Expr}
    (hl : Json.Encodes decodeWithin l left) (hr : Json.Encodes decodeWithin r right)
    (ho : EncodesOption o other) :
    Json.Encodes decodeWithin
      (.tag "conditional" (.obj [("test", l), ("if_true", r), ("if_false", o)]))
      (conditional left right other) := by
  refine Json.encodes_tag fun fuel hfuel => ?_
  simp only [Json.depth, Json.depthMembers] at hfuel
  change (decodeWithin fuel l).bind _ = _
  rw [hl.decodes fuel (by omega)]
  change (decodeWithin fuel r).bind _ = _
  rw [hr.decodes fuel (by omega)]
  change (o.orNull? (decodeWithin fuel)).bind _ = _
  rw [ho fuel (by omega)]
  rfl

theorem encodes_lambda (params : List String) (ht : Json.Encodes decodeWithin t target) :
    Json.Encodes decodeWithin (.tag "lambda" (Lambda.encodeParts params t))
      (lambda params target) := by
  refine Json.encodes_tag fun fuel hfuel => ?_
  simp only [Lambda.encodeParts, Json.depth, Json.depthMembers] at hfuel
  change (Lambda.decodeParts (decodeWithin fuel) _).bind _ = _
  rw [Lambda.decodeParts_encodeParts, ht.decodes fuel (by omega)]
  rfl

theorem encodes_typeIs (ht : Json.Encodes decodeWithin t target) (type : TypeName) :
    Json.Encodes decodeWithin (.tag "type_is" (.obj [("operand", t), ("ty", type.encode)]))
      (typeIs target type) := by
  refine Json.encodes_tag fun fuel hfuel => ?_
  simp only [Json.depth, Json.depthMembers] at hfuel
  change (decodeWithin fuel t).bind _ = _
  rw [ht.decodes fuel (by omega)]
  rfl

end

/-- An expressible expression has an encoding, which is decoded to it. -/
theorem exists_encodes {e : Expr} (h : e.Expressible) :
    ∃ j, e.encode = some j ∧ Json.Encodes decodeWithin j e := by
  induction e using children_induction with
  | step e ih =>
  have part (c : Expr) (hc : c ∈ e.children) :
      ∃ j, c.encode = some j ∧ Json.Encodes decodeWithin j c := ih c hc (h.child hc)
  have parts (cs : List Expr) (hcs : ∀ c ∈ cs, c ∈ e.children) :
      ∃ js, cs.mapM encode = some js ∧ Json.EncodesAll decodeWithin js cs :=
    Json.exists_encodesAll fun c hc => part c (hcs c hc)
  clear ih
  cases e with
  | parameter name => exact ⟨_, rfl, Json.encodes_tag fun _ _ => rfl⟩
  | member target m =>
    obtain ⟨t, ht, htarget⟩ := part target (by simp [children])
    exact ⟨_, by rw [encode, ht]; rfl, encodes_member htarget m⟩
  | index target args =>
    obtain ⟨t, ht, htarget⟩ := part target (by simp [children])
    obtain ⟨js, hjs, hargs⟩ := parts args (by simp +contextual [children])
    exact ⟨_, by rw [encode, ht, encodeAll_eq_mapM, hjs]; rfl, encodes_index htarget hargs⟩
  | new base =>
    obtain ⟨type, members, args⟩ := base
    obtain ⟨js, hjs, hargs⟩ := parts args (by simp +contextual [children])
    exact ⟨_, by rw [encode, encodeAll_eq_mapM, hjs]; rfl, encodes_new type members hargs⟩
  | memberInit base bindings =>
    obtain ⟨type, members, args⟩ := base
    obtain ⟨js, hjs, hargs⟩ := parts args (by simp +contextual [children])
    obtain ⟨ks, hks, hbindings⟩ := Json.exists_encodesAll fun b (hb : b ∈ bindings) =>
      Binding.exists_encodes (part b.value (by
        simp only [children, List.mem_append, List.mem_map]
        exact .inl ⟨b, hb, rfl⟩))
    refine ⟨_, ?_, encodes_memberInit type members hargs hbindings⟩
    rw [encode, encodeAll_eq_mapM, hjs, encodeBindings_eq_mapM, hks]
    rfl
  | newArray items =>
    obtain ⟨js, hjs, hitems⟩ := parts items (by simp [children])
    exact ⟨_, by rw [encode, encodeAll_eq_mapM, hjs]; rfl, encodes_newArray hitems⟩
  | constant v =>
    obtain ⟨j, hj, hv⟩ := Value.exists_encodes (h v .self)
    exact ⟨_, by rw [encode, hj]; rfl, encodes_constant hv⟩
  | binary op left right =>
    obtain ⟨l, hl, hleft⟩ := part left (by simp [children])
    obtain ⟨r, hr, hright⟩ := part right (by simp [children])
    exact ⟨_, by rw [encode, hl, hr]; rfl, encodes_binary hleft hright op⟩
  | unary op operand =>
    obtain ⟨t, ht, hoperand⟩ := part operand (by simp [children])
    exact ⟨_, by rw [encode, ht]; rfl, encodes_unary hoperand op⟩
  | call target m args =>
    obtain ⟨t, ht, htarget⟩ := exists_encodesOption fun c (hc : target = some c) =>
      part c (by simp [children, hc])
    obtain ⟨js, hjs, hargs⟩ := parts args (by simp +contextual [children])
    exact ⟨_, by rw [encode, ht, encodeAll_eq_mapM, hjs]; rfl, encodes_call htarget m hargs⟩
  | conditional test ifTrue ifFalse =>
    obtain ⟨c, hc, htest⟩ := part test (by simp [children])
    obtain ⟨a, ha, htrue⟩ := part ifTrue (by simp [children])
    obtain ⟨b, hb, hfalse⟩ := exists_encodesOption fun c (hc : ifFalse = some c) =>
      part c (by simp [children, hc])
    exact ⟨_, by rw [encode, hc, ha, hb]; rfl, encodes_conditional htest htrue hfalse⟩
  | lambda params body =>
    obtain ⟨t, ht, hbody⟩ := part body (by simp [children])
    exact ⟨_, by rw [encode, ht]; rfl, encodes_lambda params hbody⟩
  | invoke target args =>
    obtain ⟨t, ht, htarget⟩ := part target (by simp [children])
    obtain ⟨js, hjs, hargs⟩ := parts args (by simp +contextual [children])
    exact ⟨_, by rw [encode, ht, encodeAll_eq_mapM, hjs]; rfl, encodes_invoke htarget hargs⟩
  | typeIs operand type =>
    obtain ⟨t, ht, hoperand⟩ := part operand (by simp [children])
    exact ⟨_, by rw [encode, ht]; rfl, encodes_typeIs hoperand type⟩

/-- The payload of a case yields an expressible expression if its parts are decoded to such. -/
theorem yields_decodeCase {decode : Json → Option Expr} (hd : Json.Yields decode Expressible)
    (name : String) : Json.Yields (decodeCase decode name) Expressible := by
  intro p e hp h
  -- one case for each name, in the order of the definition; then the names of no case
  unfold decodeCase at h
  split at h <;> simp only [Option.bind_eq_bind, Option.bind_eq_some_iff, Option.map_eq_some_iff,
    Option.pure_def, Option.some.injEq, Prod.exists, reduceCtorEq] at h
  · obtain ⟨name, -, rfl⟩ := h
    exact expressible_of_children (by simp [children]) (by simp)
  · obtain ⟨fs, hfs, target, ht, m, -, rfl⟩ := h
    have htarget := hd.required (hp.objectFields hfs) ht
    exact expressible_of_children (by simpa [children] using htarget) (by simp)
  · obtain ⟨fs, hfs, target, ht, args, ha, rfl⟩ := h
    have htarget := hd.required (hp.objectFields hfs) ht
    have hargs := hd.asList?.required (hp.objectFields hfs) ha
    exact expressible_of_children (by simpa [children] using ⟨htarget, hargs⟩) (by simp)
  · obtain ⟨c, hc, rfl⟩ := h
    exact expressible_of_children (Construction.yields hd p c hp hc) (by simp)
  · obtain ⟨fs, hfs, base, hbase, bindings, hb, rfl⟩ := h
    have hargs := (Construction.yields hd).required (hp.objectFields hfs) hbase
    have hvalues := (Binding.yields hd).asList?.required (hp.objectFields hfs) hb
    refine expressible_of_children ?_ (by simp)
    simp only [children, List.mem_append, List.mem_map]
    rintro c (⟨b, hb, rfl⟩ | hc)
    · exact hvalues b hb
    · exact hargs c hc
  · obtain ⟨items, hi, rfl⟩ := h
    exact expressible_of_children (hd.asList? p items hp hi) (by simp)
  · obtain ⟨v, hv, rfl⟩ := h
    have hvalue := Value.yields_decodeWithin _ p v hp hv
    exact expressible_of_children (by simp [children]) (by simpa using hvalue)
  · obtain ⟨fs, hfs, op, -, left, hl, right, hr, rfl⟩ := h
    have hleft := hd.required (hp.objectFields hfs) hl
    have hright := hd.required (hp.objectFields hfs) hr
    exact expressible_of_children (by simpa [children] using ⟨hleft, hright⟩) (by simp)
  · obtain ⟨fs, hfs, op, -, operand, ho, rfl⟩ := h
    have hoperand := hd.required (hp.objectFields hfs) ho
    exact expressible_of_children (by simpa [children] using hoperand) (by simp)
  · obtain ⟨fs, hfs, target, ht, m, -, args, ha, rfl⟩ := h
    have htarget := hd.orNull?.withDefault (by simp) (hp.objectFields hfs) ht
    have hargs := hd.asList?.required (hp.objectFields hfs) ha
    refine expressible_of_children ?_ (by simp)
    simp only [children, List.mem_append, Option.mem_toList]
    rintro c (hc | hc)
    · exact htarget c hc
    · exact hargs c hc
  · obtain ⟨fs, hfs, test, hc, ifTrue, ha, ifFalse, hb, rfl⟩ := h
    have htest := hd.required (hp.objectFields hfs) hc
    have htrue := hd.required (hp.objectFields hfs) ha
    have hfalse := hd.orNull?.withDefault (by simp) (hp.objectFields hfs) hb
    refine expressible_of_children ?_ (by simp)
    simp only [children, List.mem_cons, Option.mem_toList]
    rintro c (rfl | rfl | hc)
    · exact htest
    · exact htrue
    · exact hfalse c hc
  · obtain ⟨params, body, hparts, rfl⟩ := h
    have hbody := Lambda.decodeParts_yields hd p _ hp hparts
    exact expressible_of_children (by simpa [children] using hbody) (by simp)
  · obtain ⟨fs, hfs, target, ht, args, ha, rfl⟩ := h
    have htarget := hd.required (hp.objectFields hfs) ht
    have hargs := hd.asList?.required (hp.objectFields hfs) ha
    exact expressible_of_children (by simpa [children] using ⟨htarget, hargs⟩) (by simp)
  · obtain ⟨fs, hfs, operand, ho, type, -, rfl⟩ := h
    have hoperand := hd.required (hp.objectFields hfs) ho
    exact expressible_of_children (by simpa [children] using hoperand) (by simp)

/-- Only expressible expressions are decoded. -/
theorem yields_decodeWithin (fuel : Nat) : Json.Yields (decodeWithin fuel) Expressible := by
  induction fuel with
  | zero => simp [Json.Yields, decodeWithin]
  | succ fuel ih =>
    intro j e hj h
    simp only [decodeWithin, Option.bind_eq_bind, Option.bind_eq_some_iff] at h
    obtain ⟨⟨name, payload⟩, hcase, h⟩ := h
    split at h
    · next name p heq =>
      cases heq
      exact yields_decodeCase ih name p e (hj.payload hcase) h
    · cases h

end LambdaScript.Expr
