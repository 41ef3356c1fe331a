import LambdaScript.Proofs.Reading.Datum
import LambdaScript.Proofs.Value.Literal

/-! # What a literal says about its value

The literal of a value is that of its datum, which forgets types and which members cannot be read.
Data are read back from their literals, so that two values without floating-point numbers and
durations have the same literal exactly if they have the same datum.
-/

namespace LambdaScript
namespace Value

/-- The object of a record whose members are data already, if all of them are. -/
def object? (r : Record (Option Datum)) : Option Datum :=
  (r.listing.mapM fun (m : String × Option Datum) => m.2.map (Prod.mk m.1)).map .object

mutual

/-- What the literal of a value shows: a character is a string, an enumeration and an instant are
numbers, and a record is the listing of its readable members. There is no datum for a floating-point
number, a duration, or an instant that has no binary form. -/
def datum? : Value → Option Datum
  | null => some .null
  | string s => some (.string s)
  | char c => some (.string (String.singleton c))
  | boolean b => some (.boolean b)
  | integer n => some (.integer n)
  | float _ => none
  | instant t => t.toBinary?.map .integer
  | duration _ => none
  | enumeration _ n => some (.integer n)
  | array items => (itemData? items).map .list
  | record ⟨type, slots⟩ => object? ⟨type, slotData slots⟩

def itemData? : List Value → Option (List Datum)
  | [] => some []
  | v :: vs => (datum? v).bind fun d => (itemData? vs).map (d :: ·)

def slotData : List (Slot Value) → List (Slot (Option Datum))
  | [] => []
  | ⟨name, kind, none⟩ :: slots => ⟨name, kind, none⟩ :: slotData slots
  | ⟨name, kind, some v⟩ :: slots => ⟨name, kind, some (datum? v)⟩ :: slotData slots

end

theorem itemData?_eq_mapM (vs : List Value) : itemData? vs = vs.mapM datum? := by
  induction vs with
  | nil => rfl
  | cons v vs ih =>
    rw [itemData?, ih, List.mapM_cons]
    cases datum? v <;> cases vs.mapM datum? <;> rfl

theorem slotData_eq_map (slots : List (Slot Value)) :
    slotData slots = slots.map (Slot.map datum?) := by
  induction slots with
  | nil => rfl
  | cons s slots ih =>
    obtain ⟨name, kind, value⟩ := s
    cases value <;> rw [slotData, ih] <;> rfl

theorem datum?_array (items : List Value) :
    datum? (array items) = (items.mapM datum?).map .list := by
  rw [datum?, itemData?_eq_mapM]

/-- The datum of a record pairs the names of its readable members with the data of their values. -/
theorem datum?_record (r : Record Value) :
    datum? (record r) =
      ((r.listing.map Prod.snd).mapM datum?).map fun ds =>
        .object ((r.listing.map Prod.fst).zip ds) := by
  have hslots : (⟨r.type, slotData r.slots⟩ : Record (Option Datum)) = r.map datum? := by
    rw [slotData_eq_map, Record.map]
  change object? ⟨r.type, slotData r.slots⟩ = _
  rw [hslots, object?, Record.listing_map, Record.mapM_members, Option.map_map]
  rfl

/-- Values whose literals say what they are: strings and characters have no quotes, the names of
readable members have no marks, and there are no floating-point numbers and no durations. -/
inductive Legible : Value → Prop
  | null : Legible null
  | string {s : String} (unquoted : '"' ∉ s.toList) : Legible (string s)
  | char {c : Char} (unquoted : c ≠ '"') : Legible (char c)
  | boolean (b : Bool) : Legible (boolean b)
  | integer (n : Int64) : Legible (integer n)
  | instant (t : Instant) : Legible (instant t)
  | enumeration (type : TypeName) (n : Int64) : Legible (enumeration type n)
  | array {items : List Value} (each : ∀ v ∈ items, Legible v) : Legible (array items)
  | record {r : Record Value}
      (unmarked : ∀ m ∈ r.listing, ∀ c ∈ m.1.toList, Datum.isMark c = false)
      (each : ∀ m ∈ r.listing, Legible m.2) : Legible (record r)

theorem mapM_eq_map_mapM {vs : List Value}
    (h : ∀ v ∈ vs, v.literal true = v.datum?.map Datum.literal) :
    vs.mapM (literal true) = (vs.mapM datum?).map (List.map Datum.literal) := by
  induction vs with
  | nil => rfl
  | cons v vs ih =>
    obtain ⟨hv, hvs⟩ := List.forall_mem_cons.mp h
    rw [List.mapM_cons, List.mapM_cons, hv, ih hvs]
    cases v.datum? <;> cases vs.mapM datum? <;> rfl

/-- The literal of a legible value is that of its datum. -/
theorem Legible.literal_eq {v : Value} (h : v.Legible) :
    v.literal true = v.datum?.map Datum.literal := by
  induction h with
  | null => rfl
  | string unquoted => rfl
  | char unquoted => rfl
  | boolean b => rfl
  | integer n => rfl
  | instant t =>
    rw [literal, datum?, Option.map_map]
    rfl
  | enumeration type n => rfl
  | array each ih =>
    rw [literal_array, datum?_array, mapM_eq_map_mapM ih, Option.map_map, Option.map_map]
    congr 1
    funext ds
    simp [Datum.literal, Datum.literals_eq_map]
  | @record r unmarked each ih =>
    have hvalues : ∀ v ∈ r.listing.map Prod.snd, v.literal true = v.datum?.map Datum.literal := by
      intro v hv
      obtain ⟨m, hm, rfl⟩ := List.mem_map.mp hv
      exact ih m hm
    rw [literal_record, datum?_record, mapM_eq_map_mapM hvalues, Option.map_map, Option.map_map]
    congr 1
    funext ds
    simp [Datum.literal, Datum.pairs_eq_map, List.zip, List.map_zipWith, List.zipWith_map_right]

theorem exists_of_mem_mapM {vs : List Value} {ds : List Datum} (h : vs.mapM datum? = some ds)
    {d : Datum} (hd : d ∈ ds) : ∃ v ∈ vs, v.datum? = some d := by
  have hdata := mapM_eq_some_iff.mp h
  clear h
  induction hdata with
  | nil => cases hd
  | @cons v e vs ds hv _ ih =>
    rcases List.mem_cons.mp hd with rfl | hd
    · exact ⟨v, by simp, hv⟩
    · obtain ⟨w, hw, hdatum⟩ := ih hd
      exact ⟨w, by simp [hw], hdatum⟩

/-- The datum of a legible value is legible. -/
theorem Legible.datum {v : Value} (h : v.Legible) {d : Datum} (hd : v.datum? = some d) :
    d.Legible := by
  induction h generalizing d with
  | null =>
    cases hd
    exact .null
  | string unquoted =>
    cases hd
    exact .string unquoted
  | char unquoted =>
    cases hd
    exact .string (by simpa using Ne.symm unquoted)
  | boolean b =>
    cases hd
    exact .boolean b
  | integer n =>
    cases hd
    exact .integer n
  | instant t =>
    obtain ⟨n, -, rfl⟩ := Option.map_eq_some_iff.mp hd
    exact .integer n
  | enumeration type n =>
    cases hd
    exact .integer n
  | array each ih =>
    rw [datum?_array] at hd
    obtain ⟨ds, hds, rfl⟩ := Option.map_eq_some_iff.mp hd
    refine .list fun d hd => ?_
    obtain ⟨v, hv, hdatum⟩ := exists_of_mem_mapM hds hd
    exact ih v hv hdatum
  | @record r unmarked each ih =>
    rw [datum?_record] at hd
    obtain ⟨ds, hds, rfl⟩ := Option.map_eq_some_iff.mp hd
    refine .object (fun m hm => ?_) fun m hm => ?_
    · obtain ⟨⟨name, v⟩, hlisted, hname⟩ := List.mem_map.mp (List.of_mem_zip hm).1
      exact hname ▸ unmarked _ hlisted
    · obtain ⟨v, hv, hdatum⟩ := exists_of_mem_mapM hds (List.of_mem_zip hm).2
      obtain ⟨listed, hlisted, rfl⟩ := List.mem_map.mp hv
      exact ih listed hlisted hdatum

end Value

/-- A literal determines its value up to its datum: a reader recovers the datum from the literal,
and two values have the same literal exactly if they have the same datum. -/
theorem literal_determines_datum {v w : Value} (hv : v.Legible) (hw : w.Legible) :
    (∀ t, v.literal true = some t → ∃ d, v.datum? = some d ∧ Datum.read? t = some d) ∧
      ((∃ t, v.literal true = some t ∧ w.literal true = some t) ↔
        ∃ d, v.datum? = some d ∧ w.datum? = some d) := by
  have hread {v : Value} (hv : v.Legible) {t : String} (ht : v.literal true = some t) :
      ∃ d, v.datum? = some d ∧ Datum.read? t = some d := by
    rw [hv.literal_eq] at ht
    obtain ⟨d, hd, rfl⟩ := Option.map_eq_some_iff.mp ht
    exact ⟨d, hd, (hv.datum hd).read?_literal⟩
  refine ⟨fun t ht => hread hv ht, ?_, ?_⟩
  · rintro ⟨t, ht, ht'⟩
    obtain ⟨d, hd, hdatum⟩ := hread hv ht
    obtain ⟨d', hd', hdatum'⟩ := hread hw ht'
    rw [hdatum] at hdatum'
    cases hdatum'
    exact ⟨d, hd, hd'⟩
  · rintro ⟨d, hd, hd'⟩
    exact ⟨d.literal, by rw [hv.literal_eq, hd]; rfl, by rw [hw.literal_eq, hd']; rfl⟩

/-- A record with a field in front of its properties, one of which cannot be read. -/
def visitValue : Value :=
  .record ⟨⟨"Visit"⟩,
    [⟨"at", .field, some (.instant ⟨0, 0, by decide⟩)⟩, ⟨"Mark", .property, some (.char ',')⟩,
      ⟨"Secret", .property, none⟩,
      ⟨"Kinds", .property, some (.array [.enumeration ⟨"Kind"⟩ (-3), .null, .array []])⟩]⟩

def visitRow : Value :=
  .record ⟨⟨"Row"⟩,
    [⟨"Mark", .field, some (.string ",")⟩,
      ⟨"Kinds", .field, some (.array [.integer (-3), .null, .array []])⟩,
      ⟨"at", .field, some (.integer 5233041986427387904)⟩]⟩

theorem legible_visit {r : Record Value} {mark kinds time : Value}
    (h : r.listing = [("Mark", mark), ("Kinds", kinds), ("at", time)]) (hmark : mark.Legible)
    (hkinds : kinds.Legible) (htime : time.Legible) : (Value.record r).Legible := by
  constructor
  · rw [h]
    simp [Datum.isMark]
  · rw [h]
    simpa using ⟨hmark, hkinds, htime⟩

theorem legible_visitValue : visitValue.Legible := by
  have hkinds : Value.Legible (.array [.enumeration ⟨"Kind"⟩ (-3), .null, .array []]) := by
    refine .array (List.forall_mem_cons.mpr ⟨.enumeration _ _, ?_⟩)
    simpa using ⟨.null, .array (by simp)⟩
  exact legible_visit rfl (.char (by decide)) hkinds (.instant _)

theorem legible_visitRow : visitRow.Legible := by
  have hkinds : Value.Legible (.array [.integer (-3), .null, .array []]) := by
    refine .array (List.forall_mem_cons.mpr ⟨.integer _, ?_⟩)
    simpa using ⟨.null, .array (by simp)⟩
  exact legible_visit rfl (.string (by simp)) hkinds (.integer _)

/-- Two different values with one literal have the same datum, which is read from the literal. -/
theorem literal_determines_datum_visit :
    visitValue.Legible ∧ visitRow.Legible ∧
      visitValue.literal true =
        some "\x7bMark:\",\",Kinds:[-3,null,[]],at:5233041986427387904\x7d" ∧
      visitRow.literal true = visitValue.literal true ∧
      ∃ d, visitValue.datum? = some d ∧ visitRow.datum? = some d ∧
        Datum.read? "\x7bMark:\",\",Kinds:[-3,null,[]],at:5233041986427387904\x7d" = some d := by
  have hvisit : visitValue.literal true =
      some "\x7bMark:\",\",Kinds:[-3,null,[]],at:5233041986427387904\x7d" := by decide +kernel
  have hrow : visitRow.literal true =
      some "\x7bMark:\",\",Kinds:[-3,null,[]],at:5233041986427387904\x7d" := by decide +kernel
  obtain ⟨hread, hiff⟩ := literal_determines_datum legible_visitValue legible_visitRow
  obtain ⟨d, hd, hrecovered⟩ := hread _ hvisit
  obtain ⟨d', hd', hrowDatum⟩ := hiff.mp ⟨_, hvisit, hrow⟩
  rw [hd] at hd'
  cases hd'
  exact ⟨legible_visitValue, legible_visitRow, hvisit, hrow.trans hvisit.symm, d, hd, hrowDatum,
    hrecovered⟩

end LambdaScript
