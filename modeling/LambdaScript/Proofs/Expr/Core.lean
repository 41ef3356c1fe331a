import LambdaScript.Proofs.Expr.Evaluation

/-! # Expressions as layers around a core

Member accesses and conversions are the layers of an expression; what is left without them is its
core. Evaluation goes down to the core and comes back through the layers, from the inside out. So
`evaluate_eq_pass` says all about it: without a constant at the core there is no value, whatever the
layers are, and otherwise the layers are passed one after the other until one of them fails.
-/

namespace LambdaScript

/-- A node that evaluation goes through. -/
inductive Layer where
  | access (m : Member)
  | cast (t : CastType)
deriving DecidableEq

namespace Layer

def around (layer : Layer) (e : Expr) : Expr :=
  match layer with
  | access m => .member e m
  | cast t => .unary (.convert t) e

def act (v : Value) : Layer → Except Failure Value
  | access m => v.read m
  | cast t => v.convert t

/-- A layer reads or converts; it never says that something is no constant. -/
theorem act_ne_notConstant (layer : Layer) (v : Value) (k : ExprKind) :
    act v layer ≠ .error (.notConstant k) := by
  intro h
  cases layer with
  | access m => cases (Value.read_eq_error_iff.mp h).1
  | cast t => cases (Value.convert_eq_error h).1

end Layer

/-- What a value becomes on its way through layers, from the first to the last. -/
def Value.pass (v : Value) (layers : List Layer) : Except Failure Value :=
  layers.foldlM Layer.act v

namespace Expr

/-- An expression under layers, from the inside out. -/
def under (e : Expr) (layers : List Layer) : Expr :=
  layers.foldl (fun inner layer => layer.around inner) e

/-- The expression without its layers. -/
def core : Expr → Expr
  | member target _ => target.core
  | unary (.convert _) operand => operand.core
  | e => e

def layers : Expr → List Layer
  | member target m => target.layers ++ [.access m]
  | unary (.convert t) operand => operand.layers ++ [.cast t]
  | _ => []

@[simp] theorem under_nil (e : Expr) : e.under [] = e := rfl

@[simp] theorem under_cons (e : Expr) (layer : Layer) (ls : List Layer) :
    e.under (layer :: ls) = (layer.around e).under ls := rfl

theorem under_append (e : Expr) (inner outer : List Layer) :
    e.under (inner ++ outer) = (e.under inner).under outer := by
  simp [under]

theorem under_concat (e : Expr) (ls : List Layer) (layer : Layer) :
    e.under (ls ++ [layer]) = layer.around (e.under ls) := by
  rw [under_append, under_cons, under_nil]

@[simp] theorem core_around (layer : Layer) (e : Expr) : (layer.around e).core = e.core := by
  cases layer <;> rfl

@[simp] theorem core_under (e : Expr) (ls : List Layer) : (e.under ls).core = e.core := by
  induction ls generalizing e with
  | nil => rfl
  | cons layer ls ih => rw [under_cons, ih, core_around]

theorem evaluate_around (layer : Layer) (e : Expr) :
    (layer.around e).evaluate = e.evaluate >>= fun v => Layer.act v layer := by
  cases layer <;> rfl

/-- Every expression is its core under its layers. -/
theorem under_layers (e : Expr) : e.core.under e.layers = e := by
  fun_induction core e with
  | case1 target m ih =>
    rw [layers, under_concat, ih]
    rfl
  | case2 t operand ih =>
    rw [layers, under_concat, ih]
    rfl
  | case3 e hmember hconvert =>
    rw [layers, under_nil]
    · exact hmember
    · exact hconvert

/-- A core is not a layer around something. -/
theorem core_ne_around (e : Expr) (layer : Layer) (inner : Expr) : e.core ≠ layer.around inner := by
  fun_induction core e with
  | case1 target m ih => exact ih
  | case2 t operand ih => exact ih
  | case3 e hmember hconvert =>
    cases layer with
    | access m => exact hmember inner m
    | cast t => exact hconvert t inner

/-- Evaluation knows no core but a constant. -/
theorem evaluate_core {e : Expr} (h : ∀ v, e.core ≠ constant v) :
    e.core.evaluate = .error (.notConstant e.core.kind) := by
  have haround := core_ne_around e
  generalize e.core = c at h haround
  rw [evaluate]
  · exact h
  · exact fun target m => haround (.access m) target
  · exact fun t operand => haround (.cast t) operand

/-- Evaluation passes the layers after the core. -/
theorem evaluate_under (e : Expr) (ls : List Layer) :
    (e.under ls).evaluate = e.evaluate >>= fun v => v.pass ls := by
  induction ls generalizing e with
  | nil => cases h : e.evaluate <;> simp [h, Value.pass]
  | cons layer ls ih =>
    rw [under_cons, ih, evaluate_around, bind_assoc]
    congr 1

/-- A node of an expression is one of its layers, around the same core, or lies in the core. -/
theorem core_eq_or_occurs {x e : Expr} (h : Occurs x e) : x.core = e.core ∨ Occurs x e.core := by
  induction h with
  | self => exact .inl rfl
  | @child c e mem inner ih =>
    fun_cases core e with
    | case1 target m =>
      rw [List.mem_singleton.mp mem] at ih
      exact ih
    | case2 t operand =>
      rw [List.mem_singleton.mp mem] at ih
      exact ih
    | case3 hmember hconvert => exact .inr (.child mem inner)

theorem evaluate_eq_bind (e : Expr) :
    e.evaluate = e.core.evaluate >>= fun v => v.pass e.layers := by
  rw [← evaluate_under, under_layers]

theorem evaluate_of_core_ne {e : Expr} (h : ∀ v, e.core ≠ constant v) :
    e.evaluate = .error (.notConstant e.core.kind) := by
  rw [evaluate_eq_bind, evaluate_core h, error_bind]

theorem evaluate_of_core_eq {e : Expr} {v : Value} (h : e.core = constant v) :
    e.evaluate = v.pass e.layers := by
  rw [evaluate_eq_bind, h, evaluate, ok_bind]

end Expr

/-- The failure of layers is that of the first layer that fails. -/
theorem Value.pass_eq_error_iff {v : Value} {ls : List Layer} {f : Failure} :
    v.pass ls = .error f ↔
      ∃ before layer after w, ls = before ++ layer :: after ∧ v.pass before = .ok w ∧
        Layer.act w layer = .error f :=
  foldlM_eq_error_iff

theorem Value.pass_ne_notConstant (v : Value) (ls : List Layer) (k : ExprKind) :
    v.pass ls ≠ .error (.notConstant k) := by
  intro h
  obtain ⟨_, layer, _, w, -, -, hlayer⟩ := Value.pass_eq_error_iff.mp h
  exact layer.act_ne_notConstant w k hlayer

open LambdaScript.Expr

/-- What evaluation gives. An expression that mentions a parameter anywhere is no constant. It is
said to be none exactly if its core is none, with the kind of the core, and then no layer is looked
at. Otherwise the expression consists of layers around one constant, and its value is that of the
constant after all layers, or its failure that of the first layer that fails. -/
theorem evaluate_eq_pass (e : Expr) :
    (∀ name, Occurs (parameter name) e → ∃ k, e.evaluate = .error (.notConstant k)) ∧
    (∀ k, e.evaluate = .error (.notConstant k) ↔
      (∀ v, e.core ≠ constant v) ∧ e.core.kind = k) ∧
    ∀ v, e.core = constant v →
      e = (constant v).under e.layers ∧ e.evaluate = v.pass e.layers ∧
        ∀ f, e.evaluate = .error f ↔
          ∃ before layer after w, e.layers = before ++ layer :: after ∧ v.pass before = .ok w ∧
            Layer.act w layer = .error f := by
  refine ⟨fun name hname => ?_, fun k => ⟨fun h => ?_, fun h => ?_⟩, fun v hv => ?_⟩
  · have hcore : ∀ v, e.core ≠ constant v := by
      intro v hv
      rcases core_eq_or_occurs hname with heq | hin
      · rw [hv] at heq
        cases heq
      · rw [hv] at hin
        cases hin with
        | child mem _ => cases mem
    exact ⟨_, evaluate_of_core_ne hcore⟩
  · have hcore : ∀ v, e.core ≠ constant v := by
      intro v hv
      rw [evaluate_of_core_eq hv] at h
      exact v.pass_ne_notConstant _ k h
    rw [evaluate_of_core_ne hcore] at h
    cases h
    exact ⟨hcore, rfl⟩
  · rw [evaluate_of_core_ne h.1, h.2]
  · have hvalue := evaluate_of_core_eq hv
    refine ⟨by rw [← hv, under_layers], hvalue, fun f => ?_⟩
    rw [hvalue]
    exact Value.pass_eq_error_iff

def sumLength : Expr :=
  unary (.convert .integer)
    (property (binary .add (parameter "p") (constant (.string "s"))) ⟨"String"⟩ "Length")

/-- A member of a captured limit that should be an integer and is none. -/
def limitDigits : Expr :=
  property
    (unary (.convert .integer)
      (property (constant (.record ⟨⟨"Settings"⟩, [⟨"Limit", .property, some (.string "no")⟩]⟩))
        ⟨"Settings"⟩ "Limit"))
    ⟨"Int64"⟩ "Digits"

theorem evaluate_eq_pass_limit :
    (∃ k, sumLength.evaluate = .error (.notConstant k)) ∧
      sumLength.evaluate = .error (.notConstant .binary) ∧
      limitDigits.evaluate = .error (.conversion .string .integer) := by
  have hparameter : Occurs (parameter "p") sumLength := by
    apply Occurs.child (List.mem_singleton.mpr rfl)
    apply Occurs.child (List.mem_singleton.mpr rfl)
    exact .child List.mem_cons_self .self
  have hcore : ∀ v, sumLength.core ≠ constant v := by
    intro v hv
    cases hv
  refine ⟨(evaluate_eq_pass sumLength).1 "p" hparameter, ?_, ?_⟩
  · exact ((evaluate_eq_pass sumLength).2.1 .binary).mpr ⟨hcore, rfl⟩
  · have hfailure := ((evaluate_eq_pass limitDigits).2.2 _ rfl).2.2
    exact (hfailure _).mpr ⟨[.access ⟨⟨"Settings"⟩, "Limit", .property⟩], .cast .integer,
      [.access ⟨⟨"Int64"⟩, "Digits", .property⟩], .string "no", rfl, rfl, rfl⟩

end LambdaScript
