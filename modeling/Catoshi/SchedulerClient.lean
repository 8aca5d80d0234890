/-
Callbacks that run one at a time on the threads of a scheduler (`scheduler.cpp`,
`SingleThreadedSchedulerClient`). Every `AddToProcessQueue` and every run of `ProcessQueue` is an
activity, on any thread. A step is one stretch under the callbacks mutex or one call into the
scheduler.
-/
import Catoshi.Lib.Runs

namespace Catoshi

universe u v

/-- `unannounced` is before the mutex in `MaybeScheduleProcessQueue`, `scheduling` between it and
the scheduler, `starting` at the beginning of `ProcessQueue`. -/
inductive Activity (C : Type u) where
  | idle
  | unannounced
  | scheduling
  | starting
  | executing (callback : C)

/-- `SingleThreadedSchedulerClient`, the runs the scheduler has yet to start, and the activities.
`added` and `executed` are what the run has added and executed, by returning or throwing. -/
structure SchedulerClient (C : Type u) (A : Type v) where
  callbacksPending : List C
  areCallbacksRunning : Bool
  scheduled : ℕ
  activity : A → Activity C
  added : List C
  executed : List C

inductive NotNow where
  | notNow

namespace SchedulerClient

variable {C : Type u} {A : Type v} [DecidableEq A]

def create : SchedulerClient C A where
  callbacksPending := []
  areCallbacksRunning := false
  scheduled := 0
  activity _ := .idle
  added := []
  executed := []

inductive Event (C : Type u) (A : Type v) where
  | add (a : A) (callback : C)
  | maybeSchedule (a : A)
  | schedule (a : A)
  | start (a : A)
  | process (a : A)
  | finish (a : A) (throws : Bool)

section

variable (client : SchedulerClient C A) (a : A)

def moveTo (next : Activity C) : SchedulerClient C A :=
  { client with activity := Function.update client.activity a next }

/-- The part of `AddToProcessQueue` under the mutex. -/
def addToProcessQueue (callback : C) : SchedulerClient C A :=
  { client.moveTo a .unannounced with
    callbacksPending := client.callbacksPending ++ [callback] }

/-- `MaybeScheduleProcessQueue` under the mutex. -/
def maybeScheduleProcessQueue : SchedulerClient C A :=
  if client.areCallbacksRunning ∨ client.callbacksPending.isEmpty then client.moveTo a .idle
  else client.moveTo a .scheduling

/-- `ProcessQueue` under the mutex before the callback. -/
def processQueue : SchedulerClient C A :=
  if client.areCallbacksRunning then client.moveTo a .idle
  else
    match client.callbacksPending with
    | [] => client.moveTo a .idle
    | callback :: rest =>
      { client.moveTo a (.executing callback) with
        areCallbacksRunning := true
        callbacksPending := rest }

/-- The destructor of `RAIICallbacksRunning`, which runs also if the callback throws. -/
def callbackDone : SchedulerClient C A :=
  { client.moveTo a .unannounced with areCallbacksRunning := false }

/-- The steps also note which callbacks are added and have been executed. -/
def step : Event C A → Except NotNow (SchedulerClient C A)
  | .add a callback =>
    match client.activity a with
    | .idle => .ok { client.addToProcessQueue a callback with added := client.added ++ [callback] }
    | _ => .error .notNow
  | .maybeSchedule a =>
    match client.activity a with
    | .unannounced => .ok (client.maybeScheduleProcessQueue a)
    | _ => .error .notNow
  | .schedule a =>
    match client.activity a with
    | .scheduling => .ok { client.moveTo a .idle with scheduled := client.scheduled + 1 }
    | _ => .error .notNow
  | .start a =>
    match client.activity a, client.scheduled with
    | .idle, scheduled + 1 => .ok { client.moveTo a .starting with scheduled := scheduled }
    | _, _ => .error .notNow
  | .process a =>
    match client.activity a with
    | .starting => .ok (client.processQueue a)
    | _ => .error .notNow
  | .finish a _ =>
    match client.activity a with
    | .executing callback =>
      .ok { client.callbackDone a with executed := client.executed ++ [callback] }
    | _ => .error .notNow

/-- Some activity has added a callback, or cleared the running flag, and not yet finished
`MaybeScheduleProcessQueue`. -/
def Announcing : Prop :=
  ∃ a, client.activity a = .unannounced ∨ client.activity a = .scheduling

/-- A run of `ProcessQueue` is yet to be started, or to look at the callbacks. -/
def Scheduled : Prop :=
  0 < client.scheduled ∨ ∃ a, client.activity a = .starting

/-- Callbacks are executed one at a time, in order and each once: those added are those executed,
the running one, and those pending. -/
structure Ordered (client : SchedulerClient C A) : Prop where
  one : ∀ a b callback other, client.activity a = .executing callback →
    client.activity b = .executing other → a = b
  running : ∀ a callback, client.activity a = .executing callback →
    client.areCallbacksRunning = true ∧
      client.added = client.executed ++ callback :: client.callbacksPending
  idle : (∀ a callback, client.activity a ≠ .executing callback) →
    client.areCallbacksRunning = false ∧ client.added = client.executed ++ client.callbacksPending

/-- Callbacks are executed in order, and while some are pending and none is running a run is or
will be scheduled. -/
structure Serial (client : SchedulerClient C A) : Prop extends client.Ordered where
  noted : client.callbacksPending ≠ [] → (∀ a callback, client.activity a ≠ .executing callback) →
    client.Scheduled ∨ client.Announcing

theorem activity_moveTo (a b : A) (next : Activity C) :
    (client.moveTo a next).activity b = if b = a then next else client.activity b :=
  Function.update_apply ..

end

variable {a : A} {client : SchedulerClient C A}

theorem executing_moveTo {next : Activity C}
    (hpre : ∀ callback, client.activity a ≠ .executing callback)
    (hafter : ∀ callback, next ≠ .executing callback) (b : A) (callback : C) :
    (client.moveTo a next).activity b = .executing callback ↔
      client.activity b = .executing callback := by
  rw [activity_moveTo]
  split_ifs with heq
  · subst heq
    exact ⟨fun hnext => absurd hnext (hafter callback), fun hthen => absurd hthen (hpre callback)⟩
  · exact Iff.rfl

@[simp] theorem activity_moveTo_self (client : SchedulerClient C A) (a : A) (next : Activity C) :
    (client.moveTo a next).activity a = next := by
  simp [activity_moveTo]

theorem Ordered.moveTo (hord : client.Ordered) {next : Activity C}
    (hpre : ∀ callback, client.activity a ≠ .executing callback)
    (hafter : ∀ callback, next ≠ .executing callback) : (client.moveTo a next).Ordered where
  one b b' callback other hb hb' := by
    rw [executing_moveTo hpre hafter] at hb hb'
    exact hord.one b b' callback other hb hb'
  running b callback hb := by
    rw [executing_moveTo hpre hafter] at hb
    exact hord.running b callback hb
  idle hno := hord.idle fun b callback hb =>
    hno b callback ((executing_moveTo hpre hafter b callback).2 hb)

omit [DecidableEq A] in
theorem Ordered.schedule (hord : client.Ordered) (n : ℕ) :
    Ordered { client with scheduled := n } :=
  ⟨hord.one, hord.running, hord.idle⟩

omit [DecidableEq A] in
theorem Ordered.append (hord : client.Ordered) (callback : C) :
    Ordered { client with
      callbacksPending := client.callbacksPending ++ [callback]
      added := client.added ++ [callback] } where
  one := hord.one
  running a current ha := by
    obtain ⟨hflag, hadded⟩ := hord.running a current ha
    exact ⟨hflag, by simp [hadded]⟩
  idle hno := by
    obtain ⟨hflag, hadded⟩ := hord.idle hno
    exact ⟨hflag, by simp [hadded]⟩

omit [DecidableEq A] in
/-- Without the flag no activity is executing a callback. -/
theorem Ordered.none_executing (hord : client.Ordered)
    (hflag : client.areCallbacksRunning = false) (a : A) (callback : C) :
    client.activity a ≠ .executing callback := by
  intro ha
  rw [(hord.running a callback ha).1] at hflag
  cases hflag

omit [DecidableEq A] in
/-- With the flag some activity is executing a callback. -/
theorem Ordered.exists_executing (hord : client.Ordered)
    (hflag : client.areCallbacksRunning = true) :
    ∃ a callback, client.activity a = .executing callback := by
  by_contra hno
  have hidle := hord.idle fun a callback ha => hno ⟨a, callback, ha⟩
  rw [hflag] at hidle
  cases hidle.1

section

variable (hserial : client.Serial)

include hserial

theorem Serial.addToProcessQueue (ha : client.activity a = .idle) (callback : C) :
    Serial { client.addToProcessQueue a callback with added := client.added ++ [callback] } where
  toOrdered := by
    have hmoved : (client.moveTo a .unannounced).Ordered :=
      hserial.toOrdered.moveTo (by simp [ha]) (by simp)
    exact hmoved.append callback
  noted _ _ := .inr ⟨a, .inl (activity_moveTo_self client a .unannounced)⟩

theorem Serial.maybeScheduleProcessQueue (ha : client.activity a = .unannounced) :
    (client.maybeScheduleProcessQueue a).Serial := by
  have hpre : ∀ callback, client.activity a ≠ .executing callback := by simp [ha]
  rw [SchedulerClient.maybeScheduleProcessQueue]
  split_ifs with hreturn
  · -- a return without scheduling: a callback is running, or there is none
    refine ⟨hserial.toOrdered.moveTo hpre (by simp), fun hpend hno => ?_⟩
    rcases hreturn with hflag | hempty
    · obtain ⟨b, callback, hb⟩ := hserial.exists_executing hflag
      exact absurd ((executing_moveTo hpre (by simp) b callback).2 hb) (hno b callback)
    · exact absurd (List.isEmpty_iff.1 hempty) hpend
  · exact ⟨hserial.toOrdered.moveTo hpre (by simp),
      fun _ _ => .inr ⟨a, .inr (activity_moveTo_self client a .scheduling)⟩⟩

theorem Serial.processQueue (ha : client.activity a = .starting) :
    (client.processQueue a).Serial := by
  have hpre : ∀ callback, client.activity a ≠ .executing callback := by simp [ha]
  rw [SchedulerClient.processQueue]
  split_ifs with hflag
  · refine ⟨hserial.toOrdered.moveTo hpre (by simp), fun _ hno => ?_⟩
    obtain ⟨b, callback, hb⟩ := hserial.exists_executing hflag
    exact absurd ((executing_moveTo hpre (by simp) b callback).2 hb) (hno b callback)
  · have hno := hserial.none_executing (Bool.eq_false_iff.2 hflag)
    split
    · next hpend =>
      exact ⟨hserial.toOrdered.moveTo hpre (by simp), fun hsome => absurd hpend hsome⟩
    · next callback rest hpend =>
      -- only this activity executes a callback from here on
      have honly : ∀ b other, (client.moveTo a (.executing callback)).activity b =
          .executing other → b = a ∧ other = callback := by
        intro b other hb
        rw [activity_moveTo] at hb
        split_ifs at hb with heq
        · exact ⟨heq, (Activity.executing.inj hb).symm⟩
        · exact absurd hb (hno b other)
      refine ⟨⟨fun b b' other other' hb hb' => ?_, fun b other hb => ?_, fun hidle => ?_⟩,
        fun _ hidle => ?_⟩
      · rw [(honly b other hb).1, (honly b' other' hb').1]
      · refine ⟨rfl, ?_⟩
        rw [(honly b other hb).2]
        have hadded := (hserial.idle hno).2
        rw [hpend] at hadded
        exact hadded
      · exact absurd (activity_moveTo_self client a (.executing callback)) (hidle a callback)
      · exact absurd (activity_moveTo_self client a (.executing callback)) (hidle a callback)

theorem Serial.callbackDone {callback : C} (ha : client.activity a = .executing callback) :
    Serial { client.callbackDone a with executed := client.executed ++ [callback] } := by
  have hno : ∀ b other, (client.callbackDone a).activity b ≠ .executing other := by
    intro b other hb
    have hb : (client.moveTo a .unannounced).activity b = .executing other := hb
    rw [activity_moveTo] at hb
    split_ifs at hb with hne
    exact hne (hserial.one b a other callback hb ha)
  refine ⟨⟨fun b _ other _ hb => absurd hb (hno b other),
    fun b other hb => absurd hb (hno b other), fun _ => ⟨rfl, ?_⟩⟩, fun _ _ => ?_⟩
  · exact (hserial.running a callback ha).2.trans (by simp [SchedulerClient.callbackDone, moveTo])
  · exact .inr ⟨a, .inl (activity_moveTo_self client a .unannounced)⟩

theorem Serial.step {next : SchedulerClient C A} {event : Event C A}
    (hstep : client.step event = .ok next) : next.Serial := by
  cases event with
  | add a callback =>
    cases ha : client.activity a <;> simp only [SchedulerClient.step, ha, reduceCtorEq] at hstep
    exact Except.ok.inj hstep ▸ hserial.addToProcessQueue ha callback
  | maybeSchedule a =>
    cases ha : client.activity a <;> simp only [SchedulerClient.step, ha, reduceCtorEq] at hstep
    exact Except.ok.inj hstep ▸ hserial.maybeScheduleProcessQueue ha
  | schedule a =>
    cases ha : client.activity a <;> simp only [SchedulerClient.step, ha, reduceCtorEq] at hstep
    rw [← Except.ok.inj hstep]
    refine ⟨Ordered.schedule (hserial.toOrdered.moveTo (by simp [ha]) (by simp)) _, ?_⟩
    exact fun _ _ => .inl (.inl (Nat.succ_pos _))
  | start a =>
    cases ha : client.activity a <;> cases hscheduled : client.scheduled <;>
      simp only [SchedulerClient.step, ha, hscheduled, reduceCtorEq] at hstep
    rw [← Except.ok.inj hstep]
    refine ⟨Ordered.schedule (hserial.toOrdered.moveTo (by simp [ha]) (by simp)) _, ?_⟩
    exact fun _ _ => .inl (.inr ⟨a, activity_moveTo_self client a .starting⟩)
  | process a =>
    cases ha : client.activity a <;> simp only [SchedulerClient.step, ha, reduceCtorEq] at hstep
    exact Except.ok.inj hstep ▸ hserial.processQueue ha
  | finish a throws =>
    cases ha : client.activity a <;> simp only [SchedulerClient.step, ha, reduceCtorEq] at hstep
    exact Except.ok.inj hstep ▸ hserial.callbackDone ha

end

end SchedulerClient

end Catoshi
