import LambdaScript.Proofs.Value.Literal
import LambdaScript.Script

/-! # Values as expressions

A value can be written in two ways: as a constant, by its literal, or as the expression that builds
it, in which arrays and records are nodes of their own. Both ways give the same text for every value
and in every context, with the hint armed or not, and they fail for the same values.
-/

namespace LambdaScript
namespace Value

/-- The construction of a record whose members are expressions already. -/
def construct (r : Record Expr) : Expr :=
  .new ⟨r.type, r.listing.map Prod.fst, r.listing.map Prod.snd⟩

mutual

/-- The expression that builds a value: arrays and records node by node, in the order in which they
are written, and everything else as a constant. -/
def lift : Value → Expr
  | array items => .newArray (liftItems items)
  | record ⟨type, slots⟩ => construct ⟨type, liftSlots slots⟩
  | v => .constant v

def liftItems : List Value → List Expr
  | [] => []
  | v :: vs => lift v :: liftItems vs

def liftSlots : List (Slot Value) → List (Slot Expr)
  | [] => []
  | ⟨name, kind, none⟩ :: slots => ⟨name, kind, none⟩ :: liftSlots slots
  | ⟨name, kind, some v⟩ :: slots => ⟨name, kind, some (lift v)⟩ :: liftSlots slots

end

theorem liftItems_eq_map (vs : List Value) : liftItems vs = vs.map lift := by
  induction vs with
  | nil => rfl
  | cons v vs ih => rw [liftItems, ih, List.map_cons]

theorem liftSlots_eq_map (slots : List (Slot Value)) :
    liftSlots slots = slots.map (Slot.map lift) := by
  induction slots with
  | nil => rfl
  | cons s slots ih =>
    obtain ⟨name, kind, value⟩ := s
    cases value <;> rw [liftSlots, ih] <;> rfl

theorem lift_array (items : List Value) : (array items).lift = .newArray (items.map lift) := by
  rw [lift, liftItems_eq_map]

/-- The readable members of a record in the order of their listing, with their values lifted. -/
theorem lift_record (r : Record Value) :
    (record r).lift =
      .new ⟨r.type, r.listing.map Prod.fst, (r.listing.map Prod.snd).map lift⟩ := by
  have hslots : (⟨r.type, liftSlots r.slots⟩ : Record Expr) = r.map lift := by
    rw [liftSlots_eq_map, Record.map]
  change construct ⟨r.type, liftSlots r.slots⟩ = _
  rw [hslots, construct, Record.listing_map]
  simp [Record.map, Function.comp_def]

end Value

namespace Emit
variable {α β : Type}

/-- Whatever the hint is, the writing leaves it alone and returns what is given, or fails if nothing
is. -/
def Settles (x : Emit α) : Option α → Prop
  | some a => ∀ hint, x hint = .ok a hint
  | none => ∀ hint, ∃ f, x hint = .error f hint

theorem settles_pure (a : α) : Settles (pure a) (some a) := fun _ => rfl

theorem settles_ofExcept (x : Except Failure α) : Settles (ofExcept x) x.toOption := by
  cases x with
  | ok a => exact fun _ => rfl
  | error f => exact fun _ => ⟨f, rfl⟩

theorem Settles.bind {x : Emit α} {o : Option α} {k : α → Emit β} {p : α → Option β}
    (hx : x.Settles o) (hk : ∀ a, (k a).Settles (p a)) : (x >>= k).Settles (o.bind p) := by
  cases o with
  | none =>
    intro hint
    obtain ⟨f, hf⟩ := hx hint
    refine ⟨f, ?_⟩
    change EStateM.bind x k hint = _
    rw [EStateM.bind, hf]
  | some a =>
    have hfirst (hint : Bool) : (x >>= k) hint = k a hint := by
      change EStateM.bind x k hint = _
      rw [EStateM.bind, hx hint]
    have hsecond := hk a
    rw [Option.bind_some]
    cases hp : p a with
    | none =>
      rw [hp] at hsecond
      intro hint
      rw [hfirst]
      exact hsecond hint
    | some b =>
      rw [hp] at hsecond
      intro hint
      rw [hfirst]
      exact hsecond hint

theorem Settles.map {x : Emit α} {o : Option α} (hx : x.Settles o) (f : α → β) :
    (do return f (← x) : Emit β).Settles (o.map f) := by
  rw [Option.map_eq_bind]
  exact hx.bind fun a => settles_pure (f a)

theorem Settles.result_eq_ok_iff {x : Emit α} {o : Option α} (hx : x.Settles o) (hint : Bool)
    (a : α) : x.result hint = .ok a ↔ o = some a := by
  cases o with
  | none =>
    obtain ⟨f, hf⟩ := hx hint
    simp [result, hf]
  | some b => simp [result, hx hint]

end Emit

namespace Expr
variable {ctx : Context}

theorem settles_constant (v : Value) :
    (emit ctx (constant v)).Settles ((v.literal true).map some) := by
  have hliteral : (v.literalOrFail true).toOption = v.literal true := by
    unfold Value.literalOrFail
    cases v.literal true <;> rfl
  rw [emit, ← hliteral]
  exact (Emit.settles_ofExcept _).map some

/-- Parts that are written by their literals are written one after the other. -/
theorem settles_emitAll_lift {vs : List Value}
    (h : ∀ v ∈ vs, (emit ctx v.lift).Settles ((v.literal true).map some)) :
    (emitAll ctx (vs.map Value.lift)).Settles (vs.mapM (Value.literal true)) := by
  induction vs with
  | nil => exact Emit.settles_pure []
  | cons v vs ih =>
    obtain ⟨hv, hvs⟩ := List.forall_mem_cons.mp h
    have hcons : (v :: vs).mapM (Value.literal true) =
        ((v.literal true).map some).bind fun r =>
          (vs.mapM (Value.literal true)).map (r.getD "" :: ·) := by
      rw [List.mapM_cons]
      cases v.literal true <;> cases vs.mapM (Value.literal true) <;> rfl
    rw [List.map_cons, emitAll, hcons]
    exact hv.bind fun r => (ih hvs).map (r.getD "" :: ·)

/-- The expression that builds a value is written as the literal of the value. -/
theorem settles_lift (v : Value) : (emit ctx v.lift).Settles ((v.literal true).map some) := by
  induction v using Value.parts_induction with
  | step v ih =>
  cases v with
  | array items =>
    have hitems := settles_emitAll_lift ih
    rw [Value.lift_array, Value.literal_array, emit, Option.map_map]
    exact hitems.map _
  | record r =>
    have hvalues := settles_emitAll_lift ih
    -- there are as many names as values, so that the construction is an object
    have hobject : ∀ ts ∈ (r.listing.map Prod.snd).mapM (Value.literal true),
        objectText (List.zipWith pairText (r.listing.map Prod.fst) ts) =
          constructionText r.type (r.listing.map Prod.fst) ts := by
      intro ts hts
      have hlength := (mapM_eq_some_iff.mp hts).length_eq
      rw [List.length_map] at hlength
      rw [constructionText, if_pos (by rw [List.length_map, hlength])]
    rw [Value.lift_record, Value.literal_record, emit, Option.map_congr hobject, Option.map_map]
    exact hvalues.map _
  | _ => exact settles_constant _

end Expr

/-- Every value is written with the same text as a constant and as the expression that builds it,
and exactly if it has a literal: in every context and with every hint. -/
theorem lift_written_iff_literal (ctx : Context) (hint : Bool) (v : Value) (t : String) :
    ((v.lift.emit ctx).result hint = .ok (some t) ↔ v.literal true = some t) ∧
      (((Expr.constant v).emit ctx).result hint = .ok (some t) ↔ v.literal true = some t) := by
  have hlift : (Expr.emit ctx v.lift).Settles ((v.literal true).map some) := Expr.settles_lift v
  have hconstant : (Expr.emit ctx (.constant v)).Settles ((v.literal true).map some) :=
    Expr.settles_constant v
  rw [hlift.result_eq_ok_iff, hconstant.result_eq_ok_iff]
  simp

end LambdaScript
