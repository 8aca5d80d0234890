/-
Computations that may fail and count one kind of call, up to where they return or fail.
-/
import Catoshi.Lib.Outcome

universe u v

/-- A computation that may fail, with its number of counted calls. -/
structure Metered (ε : Type u) (α : Type v) where
  outcome : Except ε α
  calls : ℕ

namespace Metered

variable {ε : Type u} {α β σ ι : Type v}

/-- A computation without counted calls. -/
def ofExcept (outcome : Except ε α) : Metered ε α := ⟨outcome, 0⟩

/-- One counted call and its answer. -/
def call (answer : α) : Metered ε α := ⟨.ok answer, 1⟩

def bind (first : Metered ε α) (next : α → Metered ε β) : Metered ε β :=
  match first.outcome with
  | .ok value => ⟨(next value).outcome, first.calls + (next value).calls⟩
  | .error failure => ⟨.error failure, first.calls⟩

instance : Monad (Metered ε) where
  pure value := ofExcept (.ok value)
  bind := bind

variable {first : Metered ε α} {next : α → Metered ε β}

@[simp]
theorem outcome_ofExcept (outcome : Except ε α) : (ofExcept outcome).outcome = outcome := rfl

@[simp]
theorem outcome_pure (value : α) : (pure value : Metered ε α).outcome = .ok value := rfl

@[simp]
theorem outcome_call (answer : α) : (call answer : Metered ε α).outcome = .ok answer := rfl

/-- Without the count, a sequence is just that. -/
@[simp]
theorem outcome_bind : (first >>= next).outcome =
    first.outcome >>= fun value => (next value).outcome := by
  change (bind first next).outcome = _
  rw [bind]
  cases first.outcome with
  | ok | error => rfl

/-- A sequence makes the calls of both. -/
theorem calls_bind_le {before after : ℕ} (hfst : first.calls ≤ before)
    (hnext : ∀ value, first.outcome = .ok value → (next value).calls ≤ after) :
    (first >>= next).calls ≤ before + after := by
  change (bind first next).calls ≤ _
  rw [bind]
  cases houtcome : first.outcome with
  | ok value => exact Nat.add_le_add hfst (hnext value houtcome)
  | error failure => exact hfst.trans (Nat.le_add_right before after)

/-- After a computation without calls only what follows counts. -/
theorem calls_ofExcept_bind_le {outcome : Except ε α} {bound : ℕ}
    (hnext : ∀ value, outcome = .ok value → (next value).calls ≤ bound) :
    (ofExcept outcome >>= next).calls ≤ bound := by
  have hboth : (ofExcept outcome >>= next).calls ≤ 0 + bound := calls_bind_le (Nat.le_refl 0) hnext
  rwa [Nat.zero_add] at hboth

/-- What follows and makes no call adds none. -/
theorem calls_bind_le_left {bound : ℕ} (hfst : first.calls ≤ bound)
    (hnext : ∀ value, first.outcome = .ok value → (next value).calls ≤ 0) :
    (first >>= next).calls ≤ bound :=
  calls_bind_le hfst hnext

@[simp]
theorem outcome_foldlM (step : σ → ι → Metered ε σ) (items : List ι) (state : σ) :
    (items.foldlM step state).outcome =
      items.foldlM (fun state item => (step state item).outcome) state := by
  induction items generalizing state with
  | nil => rfl
  | cons item items ih => simp only [List.foldlM_cons, outcome_bind, ih]

end Metered
