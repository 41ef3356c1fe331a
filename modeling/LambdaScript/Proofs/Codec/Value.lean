import LambdaScript.Proofs.Codec.Encodes
import LambdaScript.Proofs.Codec.Yields
import LambdaScript.Proofs.Number.Range
import LambdaScript.Proofs.Time.InstantText

/-! # Values and their documents

The values that documents can express are those whose numbers, durations and instants have a form in
them, at every depth. These are exactly encoded, and only these are decoded.
-/

namespace LambdaScript

theorem Duration.exists_toWord? {d : Duration} (least : Word.least ≤ d.nanos)
    (greatest : d.nanos ≤ Word.greatest) : ∃ n, d.toWord? = some n ∧ n.toInt = d.nanos := by
  have hword : Word.ofInt? d.nanos = some (Int64.ofInt d.nanos) := if_pos ⟨least, greatest⟩
  exact ⟨_, hword, Word.toInt_of_ofInt? hword⟩

theorem Instant.decode?_text {t : Instant} (h : t.Denotable) :
    decode? (.str (String.ofList t.text)) = some t := by
  simp only [decode?, Json.asString?, Option.bind_some, String.toList_ofList, h.read?_text]

namespace Value

/-- Values that a document can express: floating-point numbers are finite, durations are words of
nanoseconds, and instants are denoted by some text. -/
inductive Expressible : Value → Prop
  | null : Expressible null
  | string (s : String) : Expressible (string s)
  | char (c : Char) : Expressible (char c)
  | boolean (b : Bool) : Expressible (boolean b)
  | integer (n : Int64) : Expressible (integer n)
  | float {x : Binary64} (finite : x.isFinite = true) : Expressible (float x)
  | instant {t : Instant} (denotable : t.Denotable) : Expressible (instant t)
  | duration {d : Duration} (least : Word.least ≤ d.nanos) (greatest : d.nanos ≤ Word.greatest) :
      Expressible (duration d)
  | enumeration (type : TypeName) (n : Int64) : Expressible (enumeration type n)
  | array {items : List Value} (parts : ∀ v ∈ items, Expressible v) : Expressible (array items)
  | record {r : Record Value} (parts : ∀ s ∈ r.slots, ∀ v, s.value = some v → Expressible v) :
      Expressible (record r)

theorem encodeItems_eq_mapM (vs : List Value) : encodeItems vs = vs.mapM encode := by
  induction vs with
  | nil => rfl
  | cons v vs ih =>
    rw [encodeItems, ih, List.mapM_cons]
    cases encode v <;> cases vs.mapM encode <;> rfl

theorem encodeSlots_eq_mapM (slots : List (Slot Value)) :
    (encodeSlots slots).map (List.map Slot.encode) = slots.mapM (Slot.encodeWith encode) := by
  induction slots with
  | nil => rfl
  | cons s slots ih =>
    obtain ⟨name, kind, value⟩ := s
    rw [List.mapM_cons, ← ih]
    cases value with
    | none =>
      rw [encodeSlots, Slot.encodeWith]
      cases encodeSlots slots <;> rfl
    | some v =>
      rw [encodeSlots, Slot.encodeWith]
      cases encode v <;> cases encodeSlots slots <;> rfl

theorem decodeWithin_instant (fuel : Nat) (p : Json) :
    decodeWithin (fuel + 1) (.tag "instant" p) = (Instant.decode? p).map instant := rfl

theorem decodeWithin_structured (fuel : Nat) (p : Json) :
    decodeWithin (fuel + 1) (.tag "structured" p) =
      (Record.decodeWith (decodeWithin fuel) p).map record := rfl

/-- An expressible value has an encoding, which is decoded to it. -/
theorem exists_encodes {v : Value} (h : v.Expressible) :
    ∃ j, v.encode = some j ∧ Json.Encodes decodeWithin j v := by
  induction h with
  | null =>
    refine ⟨_, rfl, by simp, fun fuel hfuel => ?_⟩
    obtain ⟨rest, rfl⟩ := Nat.exists_eq_add_of_le' hfuel
    rfl
  | string s => exact ⟨_, rfl, Json.encodes_tag fun _ _ => rfl⟩
  | char c =>
    refine ⟨_, rfl, Json.encodes_tag fun fuel _ => ?_⟩
    change ((Json.str (String.singleton c)).asChar?).map char = _
    simp [Json.asChar?]
  | boolean b => exact ⟨_, rfl, Json.encodes_tag fun _ _ => rfl⟩
  | integer n =>
    refine ⟨_, rfl, Json.encodes_tag fun fuel _ => ?_⟩
    change (Word.ofInt? n.toInt).map integer = _
    rw [Word.ofInt?_toInt]
    rfl
  | @float x finite =>
    refine ⟨.tag "float" (.float x), by rw [encode, if_pos finite], ?_⟩
    exact Json.encodes_tag fun _ _ => rfl
  | @instant t denotable =>
    refine ⟨.tag "instant" (.str (String.ofList t.text)), by rw [encode], ?_⟩
    refine Json.encodes_tag fun fuel _ => ?_
    rw [decodeWithin_instant, Instant.decode?_text denotable]
    rfl
  | @duration d least greatest =>
    obtain ⟨n, hn, hnanos⟩ := Duration.exists_toWord? least greatest
    refine ⟨.tag "duration" (.int n.toInt), by rw [encode, hn]; rfl, ?_⟩
    refine Json.encodes_tag fun fuel _ => ?_
    change (Word.ofInt? n.toInt).map (fun n => duration ⟨n.toInt⟩) = _
    rw [Word.ofInt?_toInt, Option.map_some, hnanos]
  | enumeration type n =>
    refine ⟨_, rfl, Json.encodes_tag fun fuel _ => ?_⟩
    change (Word.ofInt? n.toInt).bind _ = _
    rw [Word.ofInt?_toInt]
    rfl
  | @array items parts ih =>
    obtain ⟨js, hjs, hdecode⟩ := Json.exists_encodesAll ih
    refine ⟨.tag "array" (.arr js), by rw [encode, encodeItems_eq_mapM, hjs]; rfl, ?_⟩
    refine Json.encodes_tag fun fuel hfuel => ?_
    rw [Json.depth] at hfuel
    change ((Json.arr js).asList? (decodeWithin fuel)).map array = _
    rw [hdecode fuel (by omega)]
    rfl
  | @record r parts ih =>
    obtain ⟨type, slots⟩ := r
    obtain ⟨js, hjs, hdecode⟩ := Json.exists_encodesAll fun s hs => Slot.exists_encodes (ih s hs)
    rw [← encodeSlots_eq_mapM] at hjs
    obtain ⟨encoded, hencoded, rfl⟩ := Option.map_eq_some_iff.mp hjs
    refine ⟨.tag "structured" (Record.encode ⟨type, encoded⟩), by rw [encode, hencoded]; rfl, ?_⟩
    refine Json.encodes_tag fun fuel hfuel => ?_
    simp only [Record.encode, Json.depth, Json.depthMembers] at hfuel
    rw [decodeWithin_structured, Record.decodeWith_encode, hdecode fuel (by omega)]
    rfl

theorem yields_asFloat? : Json.Yields Json.asFloat? (·.isFinite = true) := by
  intro j x hj h
  cases hj with
  | int least greatest =>
    cases h
    have hlt : pow2 63 < pow2 64 := by decide
    exact Binary64.isFinite_ofInt (by omega)
  | float finite =>
    cases h
    exact finite
  | _ => cases h

theorem yields_instant : Json.Yields Instant.decode? Instant.Denotable := by
  intro j t _ h
  obtain ⟨s, -, hs⟩ := Option.bind_eq_some_iff.mp h
  exact ⟨s.toList, hs⟩

theorem expressible_duration (n : Int64) : Expressible (duration ⟨n.toInt⟩) := by
  have hle := n.le_toInt
  have hlt := n.toInt_lt
  refine .duration ?_ ?_ <;> simp only [Word.least, Word.greatest] <;> omega

theorem expressible_of_decodeEnumeration? {p : Json} {v : Value}
    (h : decodeEnumeration? p = some v) : v.Expressible := by
  simp only [decodeEnumeration?, Option.bind_eq_bind, Option.bind_eq_some_iff, Option.pure_def,
    Option.some.injEq] at h
  obtain ⟨fs, -, type, -, n, -, rfl⟩ := h
  exact .enumeration type n

/-- Only expressible values are decoded. -/
theorem yields_decodeWithin (fuel : Nat) : Json.Yields (decodeWithin fuel) Expressible := by
  induction fuel with
  | zero => simp [Json.Yields, decodeWithin]
  | succ fuel ih =>
    intro j v hj h
    simp only [decodeWithin, Option.bind_eq_bind, Option.bind_eq_some_iff] at h
    obtain ⟨⟨name, payload⟩, hcase, h⟩ := h
    split at h
    · rw [Json.eq_of_plain h]
      exact .null
    · obtain ⟨s, -, rfl⟩ := Option.map_eq_some_iff.mp h
      exact .string s
    · obtain ⟨c, -, rfl⟩ := Option.map_eq_some_iff.mp h
      exact .char c
    · obtain ⟨b, -, rfl⟩ := Option.map_eq_some_iff.mp h
      exact .boolean b
    · obtain ⟨n, -, rfl⟩ := Option.map_eq_some_iff.mp h
      exact .integer n
    · next p heq =>
      cases heq
      obtain ⟨x, hx, rfl⟩ := Option.map_eq_some_iff.mp h
      exact .float (yields_asFloat? p x (hj.payload hcase) hx)
    · next p heq =>
      cases heq
      obtain ⟨t, ht, rfl⟩ := Option.map_eq_some_iff.mp h
      exact .instant (yields_instant p t (hj.payload hcase) ht)
    · obtain ⟨n, -, rfl⟩ := Option.map_eq_some_iff.mp h
      exact expressible_duration n
    · exact expressible_of_decodeEnumeration? h
    · next p heq =>
      cases heq
      obtain ⟨items, hitems, rfl⟩ := Option.map_eq_some_iff.mp h
      exact .array (ih.asList? p items (hj.payload hcase) hitems)
    · next p heq =>
      cases heq
      obtain ⟨r, hr, rfl⟩ := Option.map_eq_some_iff.mp h
      exact .record (Record.yields ih p r (hj.payload hcase) hr)
    · cases h

end Value
end LambdaScript
