/-
Runs of a machine whose calls can fail.
-/
import Mathlib.Tactic

namespace Runs

universe u v w

variable {σ : Type u} {α : Type v} {ε : Type w} (step : σ → α → Except ε σ)

/-- The state after some calls. A failing call ends the run. -/
def run : List α → σ → Except ε σ
  | [], state => .ok state
  | call :: calls, state =>
    match step state call with
    | .error failure => .error failure
    | .ok next => run calls next

/-- Every state of the run is good. -/
def Always (good : σ → Prop) : List α → σ → Prop
  | [], state => good state
  | call :: calls, state => good state ∧ ∀ next, step state call = .ok next →
      Always good calls next

/-- Every call of the run is fit in its state. -/
def Throughout (fit : σ → α → Prop) : List α → σ → Prop
  | [], _ => True
  | call :: calls, state => fit state call ∧ ∀ next, step state call = .ok next →
      Throughout fit calls next

/-- What the calls of a run meet can be checked. -/
instance {fit : σ → α → Prop} [∀ state call, Decidable (fit state call)] :
    ∀ (calls : List α) (state : σ), Decidable (Throughout step fit calls state)
  | [], _ => .isTrue trivial
  | call :: calls, state =>
    match hstep : step state call with
    | .error _ => decidable_of_iff (fit state call)
        ⟨fun hfit => ⟨hfit, fun next hnext => by rw [hstep] at hnext; cases hnext⟩, And.left⟩
    | .ok after =>
      have : Decidable (Throughout step fit calls after) := instDecidableThroughout calls after
      decidable_of_iff (fit state call ∧ Throughout step fit calls after)
        ⟨fun hfit => ⟨hfit.1, fun next hnext => by
          rw [hstep] at hnext
          exact Except.ok.inj hnext ▸ hfit.2⟩, fun hfit => ⟨hfit.1, hfit.2 after hstep⟩⟩

/-- The run completes, and its last state passes the test. -/
def endsIn (test : σ → Bool) (calls : List α) (state : σ) : Bool :=
  match run step calls state with
  | .ok last => test last
  | .error _ => false

variable {step} {state : σ} {calls : List α} {good : σ → Prop} {fit : σ → α → Prop}

theorem exists_of_endsIn {test : σ → Bool} (hends : endsIn step test calls state = true) :
    ∃ last, run step calls state = .ok last ∧ test last = true := by
  rw [endsIn] at hends
  split at hends
  · next last hrun => exact ⟨last, hrun, hends⟩
  · cases hends

theorem Always.head (halways : Always step good calls state) : good state := by
  cases calls with
  | nil => exact halways
  | cons call calls => exact halways.1

theorem Always.last {next : σ} (halways : Always step good calls state)
    (hrun : run step calls state = .ok next) :
    good next := by
  induction calls generalizing state with
  | nil =>
    cases hrun
    exact halways
  | cons call calls ih =>
    rw [run] at hrun
    split at hrun
    · cases hrun
    · next after hstep => exact ih (halways.2 after hstep) hrun

theorem Always.imp {better : σ → Prop} (himp : ∀ state, good state → better state)
    (halways : Always step good calls state) :
    Always step better calls state := by
  induction calls generalizing state with
  | nil => exact himp state halways
  | cons call calls ih =>
    exact ⟨himp state halways.1, fun next hstep => ih (halways.2 next hstep)⟩

theorem throughout_true (calls : List α) (state : σ) :
    Throughout step (fun _ _ => True) calls state := by
  induction calls generalizing state with
  | nil => trivial
  | cons call calls ih => exact ⟨trivial, fun next _ => ih next⟩

/-- What holds of every call can be added to what the calls meet. -/
theorem Throughout.and_forall {good : α → Prop} (hfit : Throughout step fit calls state)
    (hcalls : ∀ call ∈ calls, good call) :
    Throughout step (fun state call => fit state call ∧ good call) calls state := by
  induction calls generalizing state with
  | nil => trivial
  | cons call calls ih =>
    obtain ⟨hcall, hrest⟩ := List.forall_mem_cons.1 hcalls
    exact ⟨⟨hfit.1, hcall⟩, fun next hstep => ih (hfit.2 next hstep) hrest⟩

/-- An invariant that fit calls keep holds along a run of fit calls. -/
theorem Throughout.always
    (hkeeps : ∀ state call next, good state → fit state call → step state call = .ok next →
      good next) (hfit : Throughout step fit calls state) (hgood : good state) :
    Always step good calls state := by
  induction calls generalizing state with
  | nil => exact hgood
  | cons call calls ih =>
    exact ⟨hgood, fun next hstep =>
      ih (hfit.2 next hstep) (hkeeps state call next hgood hfit.1 hstep)⟩

/-- Fit calls that return in every good state and keep it good make a run that returns. -/
theorem Throughout.exists_run (hreturns : ∀ state call, good state → fit state call →
      ∃ next, step state call = .ok next ∧ good next) (hfit : Throughout step fit calls state)
    (hgood : good state) :
    ∃ last, run step calls state = .ok last ∧ good last := by
  induction calls generalizing state with
  | nil => exact ⟨state, rfl, hgood⟩
  | cons call calls ih =>
    obtain ⟨next, hstep, hnext⟩ := hreturns state call hgood hfit.1
    rw [run, hstep]
    exact ih (hfit.2 next hstep) hnext

/-- If, over an invariant, a call keeps good states good just when fit, then all states of a run
are good just when all calls are fit. -/
theorem always_iff_throughout (base : σ → Prop)
    (hbase : ∀ state call next, base state → step state call = .ok next → base next)
    (hgood : ∀ state call, base state → good state →
      ((∀ next, step state call = .ok next → good next) ↔ fit state call)) (hstart : base state)
    (hfst : good state) :
    Always step good calls state ↔ Throughout step fit calls state := by
  induction calls generalizing state with
  | nil => exact ⟨fun _ => trivial, fun _ => hfst⟩
  | cons call calls ih =>
    rw [Throughout, ← hgood state call hstart hfst]
    constructor
    · rintro ⟨-, hrest⟩
      refine ⟨fun next hstep => (hrest next hstep).head, fun next hstep => ?_⟩
      exact (ih (hbase state call next hstart hstep) (hrest next hstep).head).1 (hrest next hstep)
    · rintro ⟨hnext, hrest⟩
      refine ⟨hfst, fun next hstep => ?_⟩
      exact (ih (hbase state call next hstart hstep) (hnext next hstep)).2 (hrest next hstep)

end Runs
