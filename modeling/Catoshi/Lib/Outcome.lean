/-
Reading a successful `Except` computation backwards, and comparing two computations step by step.
-/
import Mathlib.Tactic

namespace Outcome

universe u v w

variable {ε : Type u} {δ : Type v} {α β : Type w}

/-- Go on if the condition holds, else stop with the failure. -/
def require (condition : Bool) (failure : ε) : Except ε Unit :=
  if condition then .ok () else .error failure

@[simp]
theorem require_ok_iff {condition : Bool} {failure : ε} {done : Unit} :
    require condition failure = .ok done ↔ condition = true := by
  cases condition <;> simp [require]

theorem require_true (failure : ε) : require true failure = .ok () :=
  rfl

theorem ok_bind (value : α) (next : α → Except ε β) : (Except.ok value >>= next) = next value :=
  rfl

/-- A condition that stops with a failure did not hold. -/
theorem ite_error_ok_iff {condition : Prop} [Decidable condition] {failure : ε}
    {next : Except ε α} {value : α} : (if condition then .error failure else next) = .ok value ↔
      ¬ condition ∧ next = .ok value := by
  split <;> simp [*]

/-- Report the failures of a call as the caller's. -/
def lift (wrap : δ → ε) : Except δ α → Except ε α
  | .ok value => .ok value
  | .error failure => .error (wrap failure)

@[simp]
theorem lift_ok_iff {wrap : δ → ε} {call : Except δ α} {value : α} :
    lift wrap call = .ok value ↔ call = .ok value := by
  cases call <;> simp [lift]

@[simp]
theorem bind_ok_iff {call : Except ε α} {next : α → Except ε β} {result : β} :
    (call >>= next) = .ok result ↔ ∃ value, call = .ok value ∧ next value = .ok result := by
  cases call with
  | error | ok => simp [Bind.bind, Except.bind]

@[simp]
theorem pure_ok_iff {value result : α} :
    (pure value : Except ε α) = .ok result ↔ value = result := by
  simp [pure, Except.pure]

/-- What every step of a loop keeps, the loop keeps. -/
theorem foldlM_keeps {σ : Type w} {ι : Type v} {step : σ → ι → Except ε σ} {keeps : σ → Prop}
    (hstep : ∀ state item next, keeps state → step state item = .ok next → keeps next)
    {items : List ι} {state last : σ} (hloop : items.foldlM step state = .ok last)
    (hst : keeps state) : keeps last := by
  induction items generalizing state with
  | nil =>
    cases hloop
    exact hst
  | cons item items ih =>
    rw [List.foldlM_cons, bind_ok_iff] at hloop
    obtain ⟨next, hnext, hloop⟩ := hloop
    exact ih hloop (hstep state item next hst hnext)

/-- A loop of guards and updates returns if all guards hold. -/
theorem foldlM_guard_ok_iff {σ : Type} {ι : Type v} {guards : ι → Except ε Unit}
    {update : σ → ι → σ} {items : List ι} {state last : σ} :
    items.foldlM (fun state item => guards item >>= fun _ => pure (update state item)) state =
      .ok last ↔ (∀ item ∈ items, guards item = .ok ()) ∧ items.foldl update state = last := by
  induction items generalizing state with
  | nil => simp
  | cons item items ih =>
    simp only [List.foldlM_cons, bind_ok_iff, pure_ok_iff, List.forall_mem_cons,
      List.foldl_cons, and_assoc]
    constructor
    · rintro ⟨_, ⟨done, hguard, rfl⟩, hloop⟩
      exact ⟨hguard, ih.1 hloop⟩
    · rintro ⟨hguard, hrest⟩
      exact ⟨_, ⟨(), hguard, rfl⟩, ih.2 hrest⟩

section admits

variable {strict loose : Except ε α}

/-- What the first computation returns the second returns too. It may return where the first fails.
-/
def Admits (strict loose : Except ε α) : Prop :=
  ∀ value, strict = .ok value → loose = .ok value

theorem Admits.refl (call : Except ε α) : Admits call call := fun _ hcall => hcall

theorem Admits.bind {next after : α → Except ε β} (hcall : Admits strict loose)
    (hnext : ∀ value, strict = .ok value → Admits (next value) (after value)) :
    Admits (strict >>= next) (loose >>= after) := by
  intro result hstrict
  obtain ⟨value, hval, hres⟩ := bind_ok_iff.1 hstrict
  exact bind_ok_iff.2 ⟨value, hcall value hval, hnext value hval result hres⟩

theorem Admits.bind_same {next : α → Except ε β} (hcall : Admits strict loose) :
    Admits (strict >>= next) (loose >>= next) :=
  hcall.bind fun value _ => .refl (next value)

theorem Admits.foldlM {σ : Type w} {ι : Type v} {step step' : σ → ι → Except ε σ}
    (hstep : ∀ state item, Admits (step state item) (step' state item)) (items : List ι)
    (state : σ) : Admits (items.foldlM step state) (items.foldlM step' state) := by
  induction items generalizing state with
  | nil => exact .refl _
  | cons item items ih =>
    exact (hstep state item).bind fun next _ => ih next

end admits

section follows

variable {ε δ : Type u} {α α' β β' : Type} {report : ε → Option δ}

/-- A returned value is related to that of the other computation, and a reported failure is the
other's; other failures say nothing. -/
structure Follows (report : ε → Option δ) (rel : α → β → Prop) (call : Except ε α)
    (spec : Except δ β) : Prop where
  returned : ∀ value, call = .ok value → ∃ other, spec = .ok other ∧ rel value other
  stopped : ∀ failure reason, call = .error failure → report failure = some reason →
    spec = .error reason

section

variable {rel : α → β → Prop}

theorem Follows.of_ok {value : α} {other : β} (hrel : rel value other) :
    Follows report rel (.ok value) (.ok other) where
  returned := by
    rintro _ ⟨⟩
    exact ⟨other, rfl, hrel⟩
  stopped := nofun

theorem Follows.of_error (rel : α → β → Prop) {failure : ε} {reason : δ}
    (hreport : report failure = some reason) :
    Follows report rel (.error failure) (.error reason) where
  returned := nofun
  stopped := by
    rintro _ other ⟨⟩ ho
    rw [Option.some.inj (hreport.symm.trans ho)]

/-- A failure not reported is followed by anything. -/
theorem Follows.of_silent (rel : α → β → Prop) {failure : ε} (hsilent : report failure = none)
    (spec : Except δ β) : Follows report rel (.error failure) spec where
  returned := nofun
  stopped := by
    rintro _ other ⟨⟩ ho
    rw [hsilent] at ho
    cases ho

theorem Follows.bind {rel' : α' → β' → Prop} {call : Except ε α}
    {spec : Except δ β} {next : α → Except ε α'} {after : β → Except δ β'}
    (hcall : Follows report rel call spec)
    (hnext : ∀ value other, call = .ok value → rel value other →
      Follows report rel' (next value) (after other)) :
    Follows report rel' (call >>= next) (spec >>= after) := by
  cases call with
  | ok value =>
    obtain ⟨other, rfl, hrel⟩ := hcall.returned value rfl
    exact hnext value other rfl hrel
  | error failure =>
    cases hreport : report failure with
    | none => exact .of_silent _ hreport _
    | some reason =>
      rw [hcall.stopped failure reason rfl hreport]
      exact .of_error _ hreport

/-- The same guard on both sides. -/
theorem Follows.check {failure : ε} {reason : δ} {condition other : Bool} {next : Unit → Except ε α}
    {after : Unit → Except δ β} (hreport : report failure = some reason) (heq : condition = other)
    (hnext : condition = true → Follows report rel (next ()) (after ())) :
    Follows report rel (require condition failure >>= next) (require other reason >>= after) := by
  subst heq
  cases condition with
  | true => exact hnext rfl
  | false => exact .of_error _ hreport

theorem Follows.guard {condition : Bool} {failure : ε}
    (hsilent : report failure = none) {next : Unit → Except ε α} {spec : Except δ β}
    (hnext : condition = true → Follows report rel (next ()) spec) :
    Follows report rel (require condition failure >>= next) spec := by
  cases condition with
  | true => exact hnext rfl
  | false => exact .of_silent _ hsilent _

/-- What is done to the value at the end. -/
theorem Follows.map {rel' : α' → β → Prop} {call : Except ε α}
    {spec : Except δ β} {finish : α → α'} (hcall : Follows report rel call spec)
    (hrel : ∀ value other, rel value other → rel' (finish value) other) :
    Follows report rel' (call >>= fun value => pure (finish value)) spec where
  returned := by
    intro value hval
    obtain ⟨before, hpre, hfinish⟩ := bind_ok_iff.1 hval
    obtain ⟨other, ho, hmatch⟩ := hcall.returned before hpre
    exact ⟨other, ho, pure_ok_iff.1 hfinish ▸ hrel before other hmatch⟩
  stopped := by
    intro failure reason hfailure
    cases call with
    | ok value => cases hfailure
    | error first =>
      cases hfailure
      exact hcall.stopped failure reason rfl

/-- A call whose failures are handed on and reported. -/
theorem Follows.lift {wrap : δ → ε} (hreport : ∀ reason, report (wrap reason) = some reason)
    (call : Except δ α) : Follows report (· = ·) (lift wrap call) call := by
  cases call with
  | ok value => exact .of_ok rfl
  | error reason => exact .of_error _ (hreport reason)

end

end follows

end Outcome
