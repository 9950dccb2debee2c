import SplitOrder.Fault

/-!
# Computations that may end in a fault

How a sequence of checked steps ends in a value: each step does, and the next one goes on from it.

* `bind_eq_ok` — what it says of the steps that their sequence ended in a value.
* `Ends` — a computation ends in a value with some property. `Ends.bind` proves it step by step.
-/

namespace SplitOrder.Checked

variable {ρ σ : Type _}

@[simp] theorem ok_bind (a : ρ) (f : ρ → Checked σ) : (Except.ok a >>= f) = f a := rfl

@[simp] theorem error_bind (e : Fault) (f : ρ → Checked σ) :
    ((Except.error e : Checked ρ) >>= f) = .error e := rfl

@[simp] theorem pure_eq_ok (a : ρ) : (pure a : Checked ρ) = .ok a := rfl

theorem bind_eq_ok {x : Checked ρ} {f : ρ → Checked σ} {b : σ} :
    (x >>= f) = .ok b ↔ ∃ a, x = .ok a ∧ f a = .ok b := by
  cases x with
  | error e => simp
  | ok a => simp

/-- The computation ends in a value, which has the given property. -/
def Ends (P : ρ → Prop) (outcome : Checked ρ) : Prop :=
  ∃ a, outcome = .ok a ∧ P a

theorem ends_ok {P : ρ → Prop} {a : ρ} (h : P a) : Ends P (.ok a) :=
  ⟨a, rfl, h⟩

theorem Ends.mono {P Q : ρ → Prop} {x : Checked ρ} (h : Ends P x)
    (himp : ∀ a, P a → Q a) : Ends Q x := by
  obtain ⟨a, ha, hpost⟩ := h
  exact ⟨a, ha, himp a hpost⟩

/-- A sequence ends if its first step does, and the rest does from whatever that left. -/
theorem Ends.bind {P : ρ → Prop} {Q : σ → Prop} {x : Checked ρ} {f : ρ → Checked σ}
    (h : Ends P x) (hf : ∀ a, P a → Ends Q (f a)) : Ends Q (x >>= f) := by
  obtain ⟨a, rfl, hpost⟩ := h
  exact hf a hpost

end SplitOrder.Checked
