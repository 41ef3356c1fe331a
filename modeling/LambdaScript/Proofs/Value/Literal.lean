import LambdaScript.Emit
import Mathlib.Data.List.Forall2

/-! # Literals of arrays and records

The parts of a value are its items or the values of its readable members, and a statement about all
values is proved from the parts to the whole. The literal of an array or a record is put together
from those of its parts, in the order in which the readable members are listed. A literal without
records is the same where records are allowed.
-/

namespace LambdaScript

theorem mapM_eq_some_iff {α β : Type} {f : α → Option β} {as : List α} {bs : List β} :
    as.mapM f = some bs ↔ List.Forall₂ (fun a b => f a = some b) as bs := by
  induction as generalizing bs with
  | nil => simp [eq_comm]
  | cons a as ih =>
    rw [List.forall₂_cons_left_iff, List.mapM_cons]
    simp only [Option.bind_eq_bind, Option.bind_eq_some_iff, Option.pure_def, Option.some.injEq, ih]
    constructor
    · rintro ⟨b, hb, cs, hcs, rfl⟩
      exact ⟨b, cs, hb, hcs, rfl⟩
    · rintro ⟨b, cs, hb, hcs, rfl⟩
      exact ⟨b, hb, cs, hcs, rfl⟩

def Slot.map {α β : Type} (f : α → β) (s : Slot α) : Slot β := ⟨s.name, s.kind, s.value.map f⟩

namespace Record
variable {α β : Type}

def map (f : α → β) (r : Record α) : Record β := ⟨r.type, r.slots.map (Slot.map f)⟩

theorem readable_map (f : α → β) (r : Record α) (kind : MemberKind) :
    (r.map f).readable kind = (r.readable kind).map (Prod.map id f) := by
  rw [readable, readable, map, List.filterMap_map, List.map_filterMap]
  congr 1
  funext s
  by_cases hkind : s.kind = kind
  · simp [Slot.map, hkind, Function.comp_def]
  · simp [Slot.map, hkind]

theorem listing_map (f : α → β) (r : Record α) :
    (r.map f).listing = r.listing.map (Prod.map id f) := by
  rw [listing, listing, readable_map, readable_map, List.map_append]

theorem mem_readable_iff {r : Record α} {kind : MemberKind} {name : String} {a : α} :
    (name, a) ∈ r.readable kind ↔ ⟨name, kind, some a⟩ ∈ r.slots := by
  simp only [readable, List.mem_filterMap, Option.ite_none_right_eq_some, Option.map_eq_some_iff,
    Prod.mk.injEq]
  constructor
  · rintro ⟨⟨n, k, value⟩, hs, rfl, b, hb, rfl, rfl⟩
    exact hb ▸ hs
  · intro hs
    exact ⟨_, hs, rfl, a, rfl, rfl, rfl⟩

/-- Members that are made from names and values, if all values can be had. -/
theorem mapM_members {γ : Type} (f : α → Option β) (join : String → β → γ)
    (members : List (String × α)) :
    ((members.map (Prod.map id f)).mapM fun (m : String × Option β) => m.2.map (join m.1)) =
      ((members.map Prod.snd).mapM f).map (List.zipWith join (members.map Prod.fst)) := by
  induction members with
  | nil => rfl
  | cons m members ih =>
    simp only [List.map_cons, List.mapM_cons, ih]
    cases hm : f m.2 with
    | none => simp [hm]
    | some b => cases (members.map Prod.snd).mapM f <;> simp [hm]

/-- The readable members are listed, whatever their kinds are. -/
theorem mem_listing_iff {r : Record α} {name : String} {a : α} :
    (name, a) ∈ r.listing ↔ ∃ kind, ⟨name, kind, some a⟩ ∈ r.slots := by
  rw [listing, List.mem_append, mem_readable_iff, mem_readable_iff]
  constructor
  · rintro (h | h)
    · exact ⟨_, h⟩
    · exact ⟨_, h⟩
  · rintro ⟨kind, h⟩
    cases kind with
    | property => exact .inl h
    | field => exact .inr h

end Record

namespace Value

/-- The items of an array, or the values of the readable members of a record. -/
def parts : Value → List Value
  | array items => items
  | record r => r.listing.map Prod.snd
  | _ => []

theorem sizeOf_lt_of_mem_parts {w v : Value} (h : w ∈ v.parts) : sizeOf w < sizeOf v := by
  cases v with
  | array items =>
    have hitem := List.sizeOf_lt_of_mem (show w ∈ items from h)
    simp only [array.sizeOf_spec]
    omega
  | record r =>
    obtain ⟨⟨name, w⟩, hw, rfl⟩ := List.mem_map.mp h
    obtain ⟨kind, hslot⟩ := Record.mem_listing_iff.mp hw
    obtain ⟨type, slots⟩ := r
    have hmember := List.sizeOf_lt_of_mem hslot
    simp only [Slot.mk.sizeOf_spec, Option.some.sizeOf_spec] at hmember
    simp only [record.sizeOf_spec, Record.mk.sizeOf_spec]
    omega
  | _ => cases h

/-- What holds of a value whenever it holds of its parts holds of all values. -/
@[elab_as_elim]
theorem parts_induction {P : Value → Prop} (step : ∀ v, (∀ w ∈ v.parts, P w) → P v)
    (v : Value) : P v :=
  step v fun w _ => parts_induction step w
termination_by sizeOf v
decreasing_by exact sizeOf_lt_of_mem_parts ‹_›

/-- `v` is a value or lies inside of it: in one of its items or of its readable members. -/
inductive Inside (v : Value) : Value → Prop
  | self : Inside v v
  | item {w : Value} {items : List Value} (mem : w ∈ items) (inner : Inside v w) :
      Inside v (array items)
  | slot {w : Value} {s : Slot Value} {r : Record Value} (mem : s ∈ r.slots)
      (readable : s.value = some w) (inner : Inside v w) : Inside v (record r)

theorem Inside.trans {u v w : Value} (hu : Inside u v) (hv : Inside v w) : Inside u w := by
  induction hv with
  | self => exact hu
  | item mem _ ih => exact .item mem ih
  | slot mem readable _ ih => exact .slot mem readable ih

variable {records : Bool}

theorem literalItems_eq_mapM (vs : List Value) :
    literalItems records vs = vs.mapM (literal records) := by
  induction vs with
  | nil => rfl
  | cons v vs ih =>
    rw [literalItems, ih, List.mapM_cons]
    cases literal records v <;> cases vs.mapM (literal records) <;> rfl

theorem literalSlots_eq_map (slots : List (Slot Value)) :
    literalSlots records slots = slots.map (Slot.map (literal records)) := by
  induction slots with
  | nil => rfl
  | cons s slots ih =>
    obtain ⟨name, kind, value⟩ := s
    cases value <;> rw [literalSlots, ih] <;> rfl

theorem literal_array (items : List Value) :
    literal records (array items) =
      (items.mapM (literal records)).map fun ts => "[" ++ Text.commas ts ++ "]" := by
  rw [literal, literalItems_eq_mapM]

/-- A record is written as the object of its readable members. -/
theorem literal_record (r : Record Value) :
    literal true (record r) =
      ((r.listing.map Prod.snd).mapM (literal true)).map fun ts =>
        objectText (List.zipWith pairText (r.listing.map Prod.fst) ts) := by
  have hslots : (⟨r.type, literalSlots true r.slots⟩ : Record (Option String)) =
      r.map (literal true) := by
    rw [literalSlots_eq_map, Record.map]
  have hpair : Record.pair? = fun m => m.2.map (pairText m.1) := rfl
  change Record.literal ⟨r.type, literalSlots true r.slots⟩ = _
  rw [hslots, Record.literal, hpair, Record.listing_map, Record.mapM_members]
  cases (r.listing.map Prod.snd).mapM (literal true) <;> rfl

mutual

/-- Where records are allowed, a value without records has the same literal. -/
theorem literal_true_of_false : ∀ {v : Value} {t : String},
    v.literal false = some t → v.literal true = some t
  | null, _, h => h
  | string _, _, h => h
  | char _, _, h => h
  | boolean _, _, h => h
  | integer _, _, h => h
  | float _, _, h => h
  | instant _, _, h => h
  | duration _, _, h => h
  | enumeration _ _, _, h => h
  | array items, t, h => by
    rw [literal] at h ⊢
    obtain ⟨ts, hts, rfl⟩ := Option.map_eq_some_iff.mp h
    rw [literalItems_true_of_false hts, Option.map_some]
  | record _, _, h => by
    simp [literal] at h

theorem literalItems_true_of_false : ∀ {vs : List Value} {ts : List String},
    literalItems false vs = some ts → literalItems true vs = some ts
  | [], _, h => h
  | v :: vs, ts, h => by
    rw [literalItems] at h ⊢
    obtain ⟨s, hs, h⟩ := Option.bind_eq_some_iff.mp h
    obtain ⟨rest, hrest, rfl⟩ := Option.map_eq_some_iff.mp h
    rw [literal_true_of_false hs, Option.bind_some, literalItems_true_of_false hrest,
      Option.map_some]

end

end Value
end LambdaScript
