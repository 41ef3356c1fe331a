import LambdaScript.Proofs.Value.Literal

/-! # Values without a literal

A literal is missing for one of two reasons: an instant without a binary form, or a record where
none may be written. The reason may lie anywhere in the value, but a record that may not be written
is not looked into, and members that cannot be read are never looked at.
-/

namespace LambdaScript

theorem mapM_eq_none_iff {α β : Type} {f : α → Option β} {as : List α} :
    as.mapM f = none ↔ ∃ a ∈ as, f a = none := by
  induction as with
  | nil => simp
  | cons a as ih =>
    rw [List.mapM_cons, List.exists_mem_cons_iff, ← ih]
    cases f a with
    | none => simp
    | some b => cases as.mapM f <;> simp

namespace Value

/-- `v` is a value or one of its items, in arrays of any depth. -/
inductive Among (v : Value) : Value → Prop
  | self : Among v v
  | item {w : Value} {items : List Value} (mem : w ∈ items) (inner : Among v w) :
      Among v (array items)

theorem literal_array_eq_none_iff {records : Bool} {items : List Value} :
    (array items).literal records = none ↔ ∃ w ∈ items, w.literal records = none := by
  rw [literal_array, Option.map_eq_none_iff, mapM_eq_none_iff]

theorem literal_record_eq_none_iff {r : Record Value} :
    (record r).literal true = none ↔ ∃ m ∈ r.listing, m.2.literal true = none := by
  rw [literal_record, Option.map_eq_none_iff, mapM_eq_none_iff]
  simp only [List.mem_map, exists_exists_and_eq_and]

theorem literal_instant_eq_none_iff {records : Bool} {t : Instant} :
    (instant t).literal records = none ↔ t.toBinary? = none := by
  rw [literal, Option.map_eq_none_iff]

/-- A missing literal is missed wherever its value is inside. -/
theorem Inside.literal_eq_none {u v : Value} (h : Inside u v) (hu : u.literal true = none) :
    v.literal true = none := by
  induction h with
  | self => exact hu
  | item mem _ ih => exact literal_array_eq_none_iff.mpr ⟨_, mem, ih⟩
  | @slot w s r mem readable _ ih =>
    have hlisted : (s.name, w) ∈ r.listing := Record.mem_listing_iff.mpr ⟨s.kind, readable ▸ mem⟩
    exact literal_record_eq_none_iff.mpr ⟨_, hlisted, ih⟩

theorem Among.literal_eq_none {u v : Value} (h : Among u v) (hu : u.literal false = none) :
    v.literal false = none := by
  induction h with
  | self => exact hu
  | item mem _ ih => exact literal_array_eq_none_iff.mpr ⟨_, mem, ih⟩

theorem literal_true_eq_none_iff (v : Value) :
    v.literal true = none ↔ ∃ t, Inside (instant t) v ∧ t.toBinary? = none := by
  constructor
  · intro h
    induction v using parts_induction with
    | step v ih =>
      cases v with
      | instant t => exact ⟨t, .self, literal_instant_eq_none_iff.mp h⟩
      | array items =>
        obtain ⟨w, hw, hnone⟩ := literal_array_eq_none_iff.mp h
        obtain ⟨t, ht, hbinary⟩ := ih w hw hnone
        exact ⟨t, .item hw ht, hbinary⟩
      | record r =>
        obtain ⟨m, hm, hnone⟩ := literal_record_eq_none_iff.mp h
        obtain ⟨kind, hslot⟩ := Record.mem_listing_iff.mp hm
        obtain ⟨t, ht, hbinary⟩ := ih m.2 (List.mem_map_of_mem hm) hnone
        exact ⟨t, .slot hslot rfl ht, hbinary⟩
      | _ => cases h
  · rintro ⟨t, ht, hbinary⟩
    exact ht.literal_eq_none (literal_instant_eq_none_iff.mpr hbinary)

theorem literal_false_eq_none_iff (v : Value) :
    v.literal false = none ↔
      (∃ t, Among (instant t) v ∧ t.toBinary? = none) ∨ ∃ r, Among (record r) v := by
  constructor
  · intro h
    induction v using parts_induction with
    | step v ih =>
      cases v with
      | instant t => exact .inl ⟨t, .self, literal_instant_eq_none_iff.mp h⟩
      | array items =>
        obtain ⟨w, hw, hnone⟩ := literal_array_eq_none_iff.mp h
        rcases ih w hw hnone with ⟨t, ht, hbinary⟩ | ⟨r, hr⟩
        · exact .inl ⟨t, .item hw ht, hbinary⟩
        · exact .inr ⟨r, .item hw hr⟩
      | record r => exact .inr ⟨r, .self⟩
      | _ => cases h
  · rintro (⟨t, ht, hbinary⟩ | ⟨r, hr⟩)
    · exact ht.literal_eq_none (literal_instant_eq_none_iff.mpr hbinary)
    · exact hr.literal_eq_none rfl

mutual

/-- A value without the members that cannot be read, at any depth. -/
def readableOnly : Value → Value
  | array items => array (readableItems items)
  | record ⟨type, slots⟩ => record ⟨type, readableSlots slots⟩
  | v => v

def readableItems : List Value → List Value
  | [] => []
  | v :: vs => readableOnly v :: readableItems vs

def readableSlots : List (Slot Value) → List (Slot Value)
  | [] => []
  | ⟨_, _, none⟩ :: slots => readableSlots slots
  | ⟨name, kind, some v⟩ :: slots => ⟨name, kind, some (readableOnly v)⟩ :: readableSlots slots

end

theorem readableItems_eq_map (vs : List Value) : readableItems vs = vs.map readableOnly := by
  induction vs with
  | nil => rfl
  | cons v vs ih => rw [readableItems, ih, List.map_cons]

theorem readable_readableSlots (type : TypeName) (slots : List (Slot Value)) (kind : MemberKind) :
    (⟨type, readableSlots slots⟩ : Record Value).readable kind =
      ((⟨type, slots⟩ : Record Value).readable kind).map (Prod.map id readableOnly) := by
  simp only [Record.readable]
  induction slots with
  | nil => rfl
  | cons s slots ih =>
    obtain ⟨name, k, value⟩ := s
    cases value with
    | none => simpa [readableSlots] using ih
    | some v => by_cases hk : k = kind <;> simp [readableSlots, hk, ih]

theorem listing_readableSlots (type : TypeName) (slots : List (Slot Value)) :
    (⟨type, readableSlots slots⟩ : Record Value).listing =
      (⟨type, slots⟩ : Record Value).listing.map (Prod.map id readableOnly) := by
  rw [Record.listing, Record.listing, readable_readableSlots, readable_readableSlots,
    List.map_append]

theorem mapM_literal_readableOnly {records : Bool} {vs : List Value}
    (h : ∀ v ∈ vs, v.readableOnly.literal records = v.literal records) :
    (vs.map readableOnly).mapM (literal records) = vs.mapM (literal records) := by
  induction vs with
  | nil => rfl
  | cons v vs ih =>
    obtain ⟨hv, hvs⟩ := List.forall_mem_cons.mp h
    rw [List.map_cons, List.mapM_cons, List.mapM_cons, hv, ih hvs]

/-- Members that cannot be read make no difference to a literal. -/
theorem literal_readableOnly (records : Bool) (v : Value) :
    v.readableOnly.literal records = v.literal records := by
  induction v using parts_induction with
  | step v ih =>
    cases v with
    | array items =>
      have hitems : (items.map readableOnly).mapM (literal records) =
          items.mapM (literal records) := mapM_literal_readableOnly ih
      rw [readableOnly, literal_array, literal_array, readableItems_eq_map, hitems]
    | record r =>
      cases records with
      | false => rfl
      | true =>
        have hvalues := mapM_literal_readableOnly ih
        obtain ⟨type, slots⟩ := r
        rw [readableOnly, literal_record, literal_record, listing_readableSlots, List.map_map,
          List.map_map]
        rw [parts, List.map_map] at hvalues
        exact congrArg _ hvalues
    | _ => rfl

/-- When a value has no literal. Where records may be written, it is for an instant without a binary
form somewhere inside of it; where they may not, for such an instant or any record among its items.
A literal that needs no records is the same where they are allowed, and members that cannot be read
make no difference anywhere. -/
theorem unwritten_iff (v : Value) :
    (v.literal true = none ↔ ∃ t, Inside (instant t) v ∧ t.toBinary? = none) ∧
    (v.literal false = none ↔
      (∃ t, Among (instant t) v ∧ t.toBinary? = none) ∨ ∃ r, Among (record r) v) ∧
    (∀ text, v.literal false = some text → v.literal true = some text) ∧
    ∀ records, v.readableOnly.literal records = v.literal records := by
  refine ⟨literal_true_eq_none_iff v, literal_false_eq_none_iff v, ?_, ?_⟩
  · intro text h
    exact literal_true_of_false h
  · intro records
    exact literal_readableOnly records v

/-- An array in an array, and an instant before the year 1 in a record. -/
theorem unwritten_iff_nested :
    (array [array [], integer 1]).literal false = some "[[],1]" ∧
      (array [array [], integer 1]).literal true = some "[[],1]" ∧
      ∃ t, Inside (instant t) (array [record ⟨⟨"Log"⟩,
        [⟨"Key", .property, none⟩, ⟨"at", .field, some (instant ⟨-62135596801, 0, by decide⟩)⟩]⟩]) ∧
          t.toBinary? = none := by
  have hplain : (array [array [], integer 1]).literal false = some "[[],1]" := rfl
  refine ⟨hplain, (unwritten_iff _).2.2.1 _ hplain, (unwritten_iff _).1.mp rfl⟩

end Value
end LambdaScript
