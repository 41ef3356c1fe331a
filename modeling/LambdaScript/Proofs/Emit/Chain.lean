import LambdaScript.Proofs.Emit.Capture
import LambdaScript.Proofs.Emit.Unarmed

/-! # Captured chains

A captured chain reads members one after the other, from a known value. `ChainRule` lists all
outcomes of writing one: an earlier read fails, or the last member is found on `this`, is a global,
or is read and written as a literal. Only the annotations of the last member and of the type of its
owner are looked up.
-/

namespace LambdaScript
namespace Value

/-- The first member with a name can be read and has a value. -/
inductive Holds : Value → String → Value → Prop
  | intro {type : TypeName} {before after : List (Slot Value)} {name : String} {kind : MemberKind}
      {w : Value} (earlier : ∀ s ∈ before, s.name ≠ name) :
      Holds (record ⟨type, before ++ ⟨name, kind, some w⟩ :: after⟩) name w

/-- The causes for which a name cannot be read. -/
inductive Withholds : Value → String → Prop
  /-- The value has no members. -/
  | plain {v : Value} {name : String} (other : ∀ r, v ≠ record r) : Withholds v name
  /-- No member has this name. -/
  | missing {r : Record Value} {name : String} (other : ∀ s ∈ r.slots, s.name ≠ name) :
      Withholds (record r) name
  /-- The first member with this name cannot be read. -/
  | unreadable {type : TypeName} {before after : List (Slot Value)} {name : String}
      {kind : MemberKind} (earlier : ∀ s ∈ before, s.name ≠ name) :
      Withholds (record ⟨type, before ++ ⟨name, kind, none⟩ :: after⟩) name

/-- The first member with a name decides, whether or not it can be read. -/
theorem get?_first {type : TypeName} {before after : List (Slot Value)} {name : String}
    {kind : MemberKind} {value : Option Value} (earlier : ∀ s ∈ before, s.name ≠ name) :
    Record.get? ⟨type, before ++ ⟨name, kind, value⟩ :: after⟩ name = value := by
  have hfind : (before ++ ⟨name, kind, value⟩ :: after).find? (·.name = name) =
      some ⟨name, kind, value⟩ := by
    apply List.find?_eq_some_iff_append.mpr
    exact ⟨by simp, before, after, rfl, by simpa using earlier⟩
  rw [Record.get?, hfind, Option.bind_some]

theorem Holds.read_eq {v w : Value} {m : Member} (h : v.Holds m.name w) : v.read m = .ok w := by
  cases h with
  | intro earlier => simp [read, get?_first earlier]

theorem Withholds.read_eq {v : Value} {m : Member} (h : v.Withholds m.name) :
    v.read m = .error (.unreadable v.type m.name) := by
  apply read_eq_error_iff.mpr
  refine ⟨rfl, ?_⟩
  rintro r rfl
  cases h with
  | plain other => exact absurd rfl (other r)
  | missing other =>
    have hfind : r.slots.find? (·.name = m.name) = none :=
      List.find?_eq_none.mpr (by simpa using other)
    rw [Record.get?, hfind, Option.bind_none]
  | unreadable earlier => exact get?_first earlier

theorem holds_or_withholds (v : Value) (name : String) :
    (∃ w, v.Holds name w) ∨ v.Withholds name := by
  by_cases hv : ∃ r, v = record r
  · obtain ⟨⟨type, slots⟩, rfl⟩ := hv
    cases hs : slots.find? (·.name = name) with
    | none => exact .inr (.missing (by simpa using hs))
    | some s =>
      obtain ⟨hname, before, after, rfl, earlier⟩ := List.find?_eq_some_iff_append.mp hs
      have hfirst : ∀ x ∈ before, x.name ≠ name := by simpa using earlier
      obtain ⟨n, kind, value⟩ := s
      obtain rfl : n = name := by simpa using hname
      cases value with
      | none => exact .inr (.unreadable hfirst)
      | some w => exact .inl ⟨w, .intro hfirst⟩
  · exact .inr (.plain (not_exists.mp hv))

theorem read_eq_ok_iff {v w : Value} {m : Member} : v.read m = .ok w ↔ v.Holds m.name w := by
  constructor
  · intro h
    rcases v.holds_or_withholds m.name with ⟨u, hu⟩ | hw
    · rw [hu.read_eq] at h
      cases h
      exact hu
    · rw [hw.read_eq] at h
      cases h
  · exact Holds.read_eq

theorem read_eq_error_iff_withholds {v : Value} {m : Member} {f : Failure} :
    v.read m = .error f ↔ v.Withholds m.name ∧ f = .unreadable v.type m.name := by
  constructor
  · intro h
    rcases v.holds_or_withholds m.name with ⟨u, hu⟩ | hw
    · rw [hu.read_eq] at h
      cases h
    · exact ⟨hw, (read_eq_error_iff.mp h).1⟩
  · rintro ⟨hw, rfl⟩
    exact hw.read_eq

inductive Leads : Value → List Member → Value → Prop
  | here (v : Value) : Leads v [] v
  | step {v u w : Value} {m : Member} {ms : List Member} (holds : v.Holds m.name u)
      (rest : Leads u ms w) : Leads v (m :: ms) w

theorem follow_eq_ok_iff {v w : Value} {ms : List Member} :
    v.follow ms = .ok w ↔ v.Leads ms w := by
  induction ms generalizing v with
  | nil =>
    constructor
    · intro h
      cases h
      exact .here _
    · rintro ⟨⟩
      rfl
  | cons m ms ih =>
    rw [follow_cons, bind_eq_ok]
    constructor
    · rintro ⟨u, hu, hrest⟩
      exact .step (read_eq_ok_iff.mp hu) (ih.mp hrest)
    · rintro (_ | ⟨holds, rest⟩)
      exact ⟨_, holds.read_eq, ih.mpr rest⟩

/-- The reads of a chain fail at the first owner that withholds its member. -/
theorem follow_eq_error_iff {v : Value} {ms : List Member} {f : Failure} :
    v.follow ms = .error f ↔
      ∃ before m after owner, ms = before ++ m :: after ∧ v.Leads before owner ∧
        owner.Withholds m.name ∧ f = .unreadable owner.type m.name := by
  have hleads (before : List Member) (owner : Value) :
      before.foldlM read v = .ok owner ↔ v.Leads before owner := follow_eq_ok_iff
  rw [follow, foldlM_eq_error_iff]
  simp only [hleads, read_eq_error_iff_withholds]

end Value

/-- The rules for writing the chain of the members `ms` and a last one from a value. -/
inductive ChainRule (lookup : Lookup) (naming : Naming) (v : Value) (ms : List Member)
    (m : Member) : Except Failure (Option String) → Prop
  /-- A read before the last one fails, and none before that. -/
  | stopped {before after : List Member} {n : Member} {owner : Value}
      (split : ms = before ++ n :: after) (leads : v.Leads before owner)
      (withheld : owner.Withholds n.name) :
      ChainRule lookup naming v ms m (.error (.unreadable owner.type n.name))
  /-- The last member is found on `this`, by the type of its owner or by itself. It is not read. -/
  | onThis {owner : Value} (leads : v.Leads ms owner)
      (scope : lookup.type owner.type = some .this ∨ lookup.member m = some .onThis) :
      ChainRule lookup naming v ms m (.ok (some ("this." ++ naming.label m false)))
  /-- The last member has another annotation. It is not read and keeps its name. -/
  | bare {owner : Value} {scope : Scope} (leads : v.Leads ms owner)
      (type : lookup.type owner.type ≠ some .this) (member : lookup.member m = some scope)
      (other : scope ≠ .onThis) : ChainRule lookup naming v ms m (.ok (some m.name))
  /-- The last member is written as its value. -/
  | literal {owner w : Value} {t : String} (leads : v.Leads ms owner)
      (type : lookup.type owner.type ≠ some .this) (plain : lookup.member m = none)
      (holds : owner.Holds m.name w) (text : w.literal false = some t) :
      ChainRule lookup naming v ms m (.ok (some t))
  /-- The value of the last member has no literal. -/
  | noLiteral {owner w : Value} (leads : v.Leads ms owner)
      (type : lookup.type owner.type ≠ some .this) (plain : lookup.member m = none)
      (holds : owner.Holds m.name w) (text : w.literal false = none) :
      ChainRule lookup naming v ms m (.error (.noLiteral w.kind))
  /-- The last member cannot be read. -/
  | unread {owner : Value} (leads : v.Leads ms owner)
      (type : lookup.type owner.type ≠ some .this) (plain : lookup.member m = none)
      (withheld : owner.Withholds m.name) :
      ChainRule lookup naming v ms m (.error (.unreadable owner.type m.name))

namespace ChainRule
variable {lookup : Lookup} {naming : Naming} {v : Value} {ms : List Member} {m : Member}

/-- There is a rule for every chain. -/
theorem exists_rule (lookup : Lookup) (naming : Naming) (v : Value) (ms : List Member)
    (m : Member) : ∃ r, ChainRule lookup naming v ms m r := by
  cases hfollow : v.follow ms with
  | error f =>
    obtain ⟨before, n, after, owner, hsplit, hleads, hwithheld, -⟩ :=
      Value.follow_eq_error_iff.mp hfollow
    exact ⟨_, .stopped hsplit hleads hwithheld⟩
  | ok owner =>
    have hleads := Value.follow_eq_ok_iff.mp hfollow
    by_cases htype : lookup.type owner.type = some .this
    · exact ⟨_, .onThis hleads (.inl htype)⟩
    cases hmember : lookup.member m with
    | some scope =>
      by_cases hscope : scope = .onThis
      · exact ⟨_, .onThis hleads (.inr (hscope ▸ hmember))⟩
      · exact ⟨_, .bare hleads htype hmember hscope⟩
    | none =>
      rcases owner.holds_or_withholds m.name with ⟨w, hw⟩ | hwithheld
      · cases htext : w.literal false with
        | some t => exact ⟨_, .literal hleads htype hmember hw htext⟩
        | none => exact ⟨_, .noLiteral hleads htype hmember hw htext⟩
      · exact ⟨_, .unread hleads htype hmember hwithheld⟩

/-- The rules look at the annotations of the last member and of the type of its owner alone. -/
theorem annotate {other : Lookup} (member : other.member m = lookup.member m)
    (type : ∀ owner, v.Leads ms owner →
      (other.type owner.type = some .this ↔ lookup.type owner.type = some .this))
    {r : Except Failure (Option String)} (h : ChainRule lookup naming v ms m r) :
    ChainRule other naming v ms m r := by
  cases h with
  | stopped split leads withheld => exact .stopped split leads withheld
  | onThis leads scope => exact .onThis leads (by rwa [type _ leads, member])
  | bare leads htype hmember hother =>
    exact .bare leads (by rwa [ne_eq, type _ leads]) (by rw [member, hmember]) hother
  | literal leads htype plain holds text =>
    exact .literal leads (by rwa [ne_eq, type _ leads]) (by rw [member, plain]) holds text
  | noLiteral leads htype plain holds text =>
    exact .noLiteral leads (by rwa [ne_eq, type _ leads]) (by rw [member, plain]) holds text
  | unread leads htype plain withheld =>
    exact .unread leads (by rwa [ne_eq, type _ leads]) (by rw [member, plain]) withheld

end ChainRule

namespace Context
variable {ctx : Context} {owner : Value} {m : Member}

theorem capturedMember_onThis {simple : Bool}
    (h : ctx.lookup.type owner.type = some .this ∨ ctx.lookup.member m = some .onThis) :
    ctx.capturedMember owner m simple = .ok ("this." ++ ctx.label m simple) := by
  by_cases htype : ctx.lookup.type owner.type = some .this
  · simp [capturedMember, Lookup.resolveMember, htype, label]
  · simp [capturedMember, Lookup.resolveMember, htype, h.resolve_left htype, label]

theorem capturedMember_bare {simple : Bool} {scope : Scope}
    (type : ctx.lookup.type owner.type ≠ some .this) (member : ctx.lookup.member m = some scope)
    (other : scope ≠ .onThis) : ctx.capturedMember owner m simple = .ok m.name := by
  cases scope with
  | onThis => exact absurd rfl other
  | _ => simp [capturedMember, Lookup.resolveMember, type, member]

theorem capturedMember_plain {simple : Bool} (type : ctx.lookup.type owner.type ≠ some .this)
    (plain : ctx.lookup.member m = none) :
    ctx.capturedMember owner m simple = owner.read m >>= Value.literalOrFail false := by
  simp [capturedMember, Lookup.resolveMember, type, plain]

end Context

namespace Expr

/-- A chain leads to the owner of its last member, and then that member is written. -/
theorem unarmed_chain {ctx : Context} (closure : ctx.evaluate = evaluate) (v : Value)
    (ms : List Member) (m : Member) :
    unarmed ctx (chain v (ms ++ [m])) = do
      let owner ← v.follow ms
      return some (← ctx.capturedMember owner m false) := by
  rw [chain_append_singleton, unarmed_member, isParameter_chain, Bool.and_false]
  cases h : v.follow ms with
  | error f =>
    rw [captured_chain_of_error closure h]
    rfl
  | ok owner =>
    rw [captured_chain_of_ok closure h]
    rfl

theorem unarmed_of_chainRule {inline : Bool} {lookup : Lookup} {naming : Naming} {v : Value}
    {ms : List Member} {m : Member} {r : Except Failure (Option String)}
    (h : ChainRule lookup naming v ms m r) :
    unarmed (.closure inline lookup naming) (chain v (ms ++ [m])) = r := by
  rw [unarmed_chain rfl]
  cases h with
  | stopped split leads withheld =>
    rw [Value.follow_eq_error_iff.mpr ⟨_, _, _, _, split, leads, withheld, rfl⟩, error_bind]
  | onThis leads scope =>
    rw [Value.follow_eq_ok_iff.mpr leads, ok_bind, Context.capturedMember_onThis scope]
    rfl
  | bare leads type member other =>
    rw [Value.follow_eq_ok_iff.mpr leads, ok_bind, Context.capturedMember_bare type member other]
    rfl
  | literal leads type plain holds text =>
    rw [Value.follow_eq_ok_iff.mpr leads, ok_bind, Context.capturedMember_plain type plain,
      holds.read_eq, ok_bind, Value.literalOrFail, text]
    rfl
  | noLiteral leads type plain holds text =>
    rw [Value.follow_eq_ok_iff.mpr leads, ok_bind, Context.capturedMember_plain type plain,
      holds.read_eq, ok_bind, Value.literalOrFail, text]
    rfl
  | unread leads type plain withheld =>
    rw [Value.follow_eq_ok_iff.mpr leads, ok_bind, Context.capturedMember_plain type plain,
      withheld.read_eq]
    rfl

end Expr

open LambdaScript.Expr

/-- How captured chains are written. Without the hint, in both modes and under all labels, a chain
is written or fails as the rules say, and for every chain there is exactly one outcome that they
allow. The annotations of the members before the last one, and of the types of the values before
its owner, have no influence. -/
theorem chain_written_iff (inline : Bool) (lookup : Lookup) (naming : Naming) (v : Value)
    (ms : List Member) (m : Member) :
    (∀ r, (emit (.closure inline lookup naming) (chain v (ms ++ [m]))).result false = r ↔
      ChainRule lookup naming v ms m r) ∧
    ∀ other : Lookup, other.member m = lookup.member m →
      (∀ owner, v.Leads ms owner →
        (other.type owner.type = some .this ↔ lookup.type owner.type = some .this)) →
      (emit (.closure inline other naming) (chain v (ms ++ [m]))).result false =
        (emit (.closure inline lookup naming) (chain v (ms ++ [m]))).result false := by
  have hiff (r : Except Failure (Option String)) :
      (emit (.closure inline lookup naming) (chain v (ms ++ [m]))).result false = r ↔
        ChainRule lookup naming v ms m r := by
    constructor
    · rintro rfl
      obtain ⟨r, hr⟩ := ChainRule.exists_rule lookup naming v ms m
      rw [← unarmed, unarmed_of_chainRule hr]
      exact hr
    · exact unarmed_of_chainRule
  refine ⟨hiff, fun other member type => ?_⟩
  have hrule := (hiff _).mp rfl
  exact unarmed_of_chainRule (hrule.annotate member type)

/-- Annotations on the way to the captured limit: the type of the closure and the member that holds
the settings. -/
def settingsLookup : Lookup where
  type t := if t = ⟨"Closure"⟩ then some .this else none
  member n := if n.name = "Settings" then some .global else none
  method _ := none

theorem chain_written_limit :
    (emit (.closure true .empty none) (chain (limitClosure [] []) limitPath)).result false =
        .ok (some "18") ∧
      (emit (.closure true settingsLookup none) (chain (limitClosure [] []) limitPath)).result
        false = .ok (some "18") := by
  have written := chain_written_iff true .empty none (limitClosure [] [])
    [⟨⟨"Closure"⟩, "Settings", .field⟩] ⟨⟨"Settings"⟩, "Limit", .property⟩
  have hlimit := (written.1 (.ok (some "18"))).mpr
    (.literal (Value.follow_eq_ok_iff.mp rfl) (by decide) rfl (Value.read_eq_ok_iff.mp rfl) rfl)
  refine ⟨hlimit, (written.2 settingsLookup rfl fun owner leads => ?_).trans hlimit⟩
  have howner := Value.follow_eq_ok_iff.mpr leads
  cases howner
  decide

end LambdaScript
