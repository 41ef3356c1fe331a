import LambdaScript.Proofs.Value.Literal
import LambdaScript.Value.Convert
import Mathlib.Data.List.Perm.Basic

/-! # Listing and reading members

The members of a record are seen in two ways: they are listed, properties before fields, or read one
by one, where the first member with the name decides. Both see the same members. What is read is
listed, and what is listed is read if all names are different; members that are appended later do
not change what is read by an earlier name.
-/

namespace LambdaScript

def Slot.isReadable {α : Type} (s : Slot α) : Bool := s.value.isSome

structure Slot.Shows {α : Type} (s : Slot α) (member : String × α) : Prop where
  name : s.name = member.1
  value : s.value = some member.2

namespace Record
variable {α : Type}

/-- The readable members of one kind, in the order of their declaration. -/
def members (r : Record α) (kind : MemberKind) : List (Slot α) :=
  r.slots.filter fun s => s.isReadable && s.kind = kind

theorem shows_readable (r : Record α) (kind : MemberKind) :
    List.Forall₂ Slot.Shows (r.members kind) (r.readable kind) := by
  obtain ⟨type, slots⟩ := r
  simp only [members, readable]
  induction slots with
  | nil => exact .nil
  | cons s slots ih =>
    obtain ⟨name, k, value⟩ := s
    cases value with
    | none => simpa [Slot.isReadable] using ih
    | some a =>
      by_cases hk : k = kind
      · simpa [Slot.isReadable, hk] using ⟨⟨rfl, rfl⟩, ih⟩
      · simpa [Slot.isReadable, hk] using ih

theorem shows_listing (r : Record α) :
    List.Forall₂ Slot.Shows (r.members .property ++ r.members .field) r.listing :=
  List.rel_append (r.shows_readable .property) (r.shows_readable .field)

/-- Every readable member is a property or a field, and not both. -/
theorem members_perm (r : Record α) :
    (r.members .property ++ r.members .field).Perm (r.slots.filter Slot.isReadable) := by
  have hfield : r.members .field =
      (r.slots.filter Slot.isReadable).filter fun s => !decide (s.kind = .property) := by
    rw [members, List.filter_filter]
    apply List.filter_congr
    intro s _
    cases s.kind <;> simp
  have hproperty : r.members .property =
      (r.slots.filter Slot.isReadable).filter fun s => decide (s.kind = .property) := by
    rw [members, List.filter_filter]
    apply List.filter_congr
    intro s _
    rw [Bool.and_comm]
  rw [hproperty, hfield]
  exact List.filter_append_perm _ _

/-- What is read by a name is a member with that name. -/
theorem mem_slots_of_get? {r : Record α} {name : String} {a : α} (h : r.get? name = some a) :
    ∃ kind, ⟨name, kind, some a⟩ ∈ r.slots := by
  obtain ⟨⟨n, kind, value⟩, hfind, rfl⟩ := Option.bind_eq_some_iff.mp h
  have hname : n = name := by simpa using List.find?_some hfind
  exact ⟨kind, hname ▸ List.mem_of_find?_eq_some hfind⟩

/-- With different names, the member with a name is the first one. -/
theorem get?_of_mem_slots {r : Record α} (distinct : (r.slots.map Slot.name).Nodup)
    {s : Slot α} (h : s ∈ r.slots) : r.get? s.name = s.value := by
  obtain ⟨before, after, hslots⟩ := List.append_of_mem h
  rw [hslots, List.map_append, List.map_cons] at distinct
  have earlier : ∀ t ∈ before, t.name ≠ s.name := by
    intro t ht
    exact (List.nodup_append.mp distinct).2.2 _ (List.mem_map_of_mem ht) _ List.mem_cons_self
  have hfind : r.slots.find? (·.name = s.name) = some s := by
    apply List.find?_eq_some_iff_append.mpr
    exact ⟨by simp, before, after, hslots, by simpa using earlier⟩
  rw [get?, hfind, Option.bind_some]

/-- A member that is appended comes after all others with its name. -/
theorem get?_append (r : Record α) (s : Slot α) {name : String}
    (h : name ∈ r.slots.map Slot.name) :
    get? { r with slots := r.slots ++ [s] } name = r.get? name := by
  obtain ⟨t, ht, rfl⟩ := List.mem_map.mp h
  have hfound : (r.slots.find? (·.name = t.name)).isSome = true :=
    List.find?_isSome.mpr ⟨t, ht, by simp⟩
  rw [get?, get?, List.find?_append, Option.or_of_isSome hfound]

end Record

namespace Value

theorem read_record_eq_ok_iff {r : Record Value} {m : Member} {v : Value} :
    (record r).read m = .ok v ↔ r.get? m.name = some v := by
  simp only [read]
  cases r.get? m.name with
  | none => simp
  | some w => simp

/-- Appending a member does not change what is read by a name that is there already. -/
theorem read_append (r : Record Value) (s : Slot Value) {m : Member}
    (h : m.name ∈ r.slots.map Slot.name) :
    (record { r with slots := r.slots ++ [s] }).read m = (record r).read m := by
  simp only [read, r.get?_append s h]

end Value

/-- Listing and reading agree. The members are listed as the readable properties and then the
readable fields, each in the order of their declaration, so each readable member is listed once.
What is read by a name is listed with that name, and what is listed with a name is read by it if all
names are different. No member that is appended changes what is read by a name that is there
already, whether it can be read or not. -/
theorem listing_agrees_with_reading (r : Record Value) :
    List.Forall₂ Slot.Shows (r.members .property ++ r.members .field) r.listing ∧
    (r.members .property ++ r.members .field).Perm (r.slots.filter Slot.isReadable) ∧
    (∀ (m : Member) (v : Value), (Value.record r).read m = .ok v → (m.name, v) ∈ r.listing) ∧
    ((r.slots.map Slot.name).Nodup → ∀ (m : Member) (v : Value),
      (m.name, v) ∈ r.listing → (Value.record r).read m = .ok v) ∧
    ∀ m : Member, m.name ∈ r.slots.map Slot.name → ∀ (name : String) (v : Value),
      (Value.record (r.withProperty name v)).read m = (Value.record r).read m ∧
      (Value.record (r.withField name v)).read m = (Value.record r).read m ∧
      (Value.record (r.withWriteOnly name)).read m = (Value.record r).read m := by
  refine ⟨r.shows_listing, r.members_perm, ?_, ?_, ?_⟩
  · intro m v hread
    have hslot := Record.mem_slots_of_get? (Value.read_record_eq_ok_iff.mp hread)
    exact Record.mem_listing_iff.mpr hslot
  · intro distinct m v hlisted
    obtain ⟨kind, hslot⟩ := Record.mem_listing_iff.mp hlisted
    exact Value.read_record_eq_ok_iff.mpr (Record.get?_of_mem_slots distinct hslot)
  · intro m hm name v
    exact ⟨Value.read_append r _ hm, Value.read_append r _ hm, Value.read_append r _ hm⟩

/-- A record with a field in front of its properties, the last of which cannot be read. -/
def accountRecord : Record Value :=
  { type := ⟨"Account"⟩
    slots := [⟨"id", .field, some (.integer 7)⟩, ⟨"Owner", .property, some (.string "Ada")⟩,
      ⟨"Pin", .property, none⟩] }

theorem listing_agrees_with_reading_account :
    accountRecord.listing = [("Owner", .string "Ada"), ("id", .integer 7)] ∧
    (accountRecord.slots.map Slot.name).Nodup ∧
    (Value.record accountRecord).read ⟨⟨"Account"⟩, "id", .field⟩ = .ok (.integer 7) ∧
    (Value.record (accountRecord.withProperty "Pin" (.integer 0))).read
      ⟨⟨"Account"⟩, "Pin", .property⟩ = .error (.unreadable ⟨"Account"⟩ "Pin") := by
  obtain ⟨-, -, -, hread, happend⟩ := listing_agrees_with_reading accountRecord
  have hlisting : accountRecord.listing = [("Owner", .string "Ada"), ("id", .integer 7)] := rfl
  have hnames : (accountRecord.slots.map Slot.name).Nodup := by decide
  refine ⟨hlisting, hnames, hread hnames _ _ ?_, (happend _ ?_ _ _).1⟩
  · rw [hlisting]
    simp
  · decide

end LambdaScript
