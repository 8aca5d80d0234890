/-
The queue of script checks that workers and the master share (`checkqueue.h`). A step is one
stretch of code under the queue mutex. The checks of a batch run without it, so they count when the
thread takes it again. The counters count objects in memory and are natural numbers here.
-/
import Catoshi.Lib.Tally
import Catoshi.Lib.Runs

namespace Catoshi

open Multiset

universe u v

/-- Where a thread stands in `Loop`: outside, blocked in `cond.wait`, about to go on after it, or
running a batch taken when `fAllOk` had the given value. -/
inductive LoopState (T : Type u) where
  | outside
  | waiting
  | woken
  | working (vChecks : List T) (fOk : Bool)

/-- `CCheckQueue` and its threads: workers and, as `none`, the master. The queue has its back in
front. -/
structure CCheckQueue (T : Type u) (W : Type v) where
  queue : List T
  nIdle : ℕ
  nTotal : ℕ
  fAllOk : Bool
  nTodo : ℕ
  fQuit : Bool
  thread : Option W → LoopState T

/-- A queue in use: with the checks added since the last `Wait`, and what each `Wait` returned for
which checks. -/
structure QueueUse (T : Type u) (W : Type v) where
  state : CCheckQueue T W
  added : List T
  results : List (Bool × List T)

inductive Blocked where
  | blocked

namespace CCheckQueue

variable {T : Type u} {W : Type v} [DecidableEq W]

/-- A new queue, before any thread has called `Loop`. -/
def create : CCheckQueue T W where
  queue := []
  nIdle := 0
  nTotal := 0
  fAllOk := true
  nTodo := 0
  fQuit := false
  thread _ := .outside

section

variable (eval : T → Bool) (nBatchSize : ℕ) (state : CCheckQueue T W) (t : Option W)
  (vChecks : List T)

def setThread (next : LoopState T) : CCheckQueue T W :=
  { state with thread := Function.update state.thread t next }

def wake : CCheckQueue T W :=
  match state.thread t with
  | .waiting => state.setThread t .woken
  | _ => state

/-- `condWorker.notify_all`. -/
def wakeWorkers : CCheckQueue T W :=
  { state with
    thread := fun t =>
      match t, state.thread t with
      | some _, .waiting => .woken
      | _, other => other }

/-- A batch is accounted for. Its `fOk` is false if it was when the batch was taken or a check
failed. -/
def account (fOk : Bool) : CCheckQueue T W :=
  { state.setThread t .woken with
    fAllOk := state.fAllOk && (fOk && vChecks.all eval)
    nTodo := state.nTodo - vChecks.length }

/-- The clean-up after a batch; a worker with nothing left to do informs the master. -/
def cleanUp (fOk : Bool) : CCheckQueue T W :=
  let state := state.account eval t vChecks fOk
  if state.nTodo = 0 ∧ t ≠ none then state.wake none else state

def batchSize : ℕ :=
  max 1 (min nBatchSize (state.queue.length / (state.nTotal + state.nIdle + 1)))

/-- From the test of the inner loop: return, with the value returned, wait, or take a batch. -/
def loopHead : CCheckQueue T W × Option Bool :=
  if state.queue.isEmpty then
    if (t = none ∨ state.fQuit) ∧ state.nTodo = 0 then
      let next := { state.setThread t .outside with nTotal := state.nTotal - 1 }
      (if t = none then { next with fAllOk := true } else next, some state.fAllOk)
    else
      ({ state.setThread t .waiting with nIdle := state.nIdle + 1 }, none)
  else
    let nNow := state.batchSize nBatchSize
    ({ state.setThread t (.working (state.queue.take nNow) state.fAllOk) with
      queue := state.queue.drop nNow }, none)

/-- The next stretch of `Loop` under the mutex: the first, one after a wait, or one after a batch.
A waiting thread has to be woken first. -/
def lock : Except Blocked (CCheckQueue T W × Option Bool) :=
  match state.thread t with
  | .outside => .ok (loopHead nBatchSize { state with nTotal := state.nTotal + 1 } t)
  | .waiting => .error .blocked
  | .woken => .ok (loopHead nBatchSize { state with nIdle := state.nIdle - 1 } t)
  | .working vChecks fOk => .ok (loopHead nBatchSize (cleanUp eval state t vChecks fOk) t)

def enqueue : CCheckQueue T W :=
  { state with
    queue := vChecks.reverse ++ state.queue
    nTodo := state.nTodo + vChecks.length }

/-- `Add`, with the worker that `notify_one` wakes, if any. -/
def add (notified : Option W) : CCheckQueue T W :=
  if vChecks.length = 1 then
    match notified with
    | some w => (state.enqueue vChecks).wake (some w)
    | none => state.enqueue vChecks
  else if vChecks.length > 1 then (state.enqueue vChecks).wakeWorkers
  else state.enqueue vChecks

/-- The master, outside of `Wait`, adds a batch; a thread takes the mutex; a waiting thread is
woken for no reason. -/
inductive Event (T : Type u) (W : Type v) where
  | add (vChecks : List T) (notified : Option W)
  | lock (t : Option W)
  | spurious (t : Option W)

/-- What the master returns is the result of `Wait`. -/
def noteResult (use : QueueUse T W) : CCheckQueue T W × Option Bool → QueueUse T W
  | (state, some fRet) =>
    if t = none then ⟨state, [], (fRet, use.added) :: use.results⟩ else { use with state }
  | (state, none) => { use with state }

def step (use : QueueUse T W) : Event T W → Except Blocked (QueueUse T W)
  | .add vChecks notified =>
    match use.state.thread none with
    | .outside => .ok
      { use with state := use.state.add vChecks notified, added := use.added ++ vChecks }
    | _ => .error .blocked
  | .lock t => (use.state.lock eval nBatchSize t).map (noteResult t use)
  | .spurious t => .ok { use with state := use.state.wake t }

end

section invariant

variable (eval : T → Bool)

def inFlight : LoopState T → Multiset T
  | .working vChecks _ => vChecks
  | _ => 0

def pending [Fintype W] (state : CCheckQueue T W) : Multiset T :=
  state.queue + ∑ t, inFlight (state.thread t)

/-- The checks added are those accounted for and those pending, and `fAllOk` says whether the
former passed. A skipped batch was taken after a failure. -/
structure Counted [Fintype W] (added : List T) (state : CCheckQueue T W) : Prop where
  nTodo_eq : state.nTodo = card state.pending
  accounted : ∃ done : Multiset T, (added : Multiset T) = done + state.pending ∧
    (state.fAllOk = true ↔ ∀ check ∈ done, eval check = true)
  skipped : ∀ t vChecks, state.thread t = .working vChecks false → state.fAllOk = false
  busy : ∀ t vChecks fOk, state.thread t = .working vChecks fOk → vChecks ≠ []
  fQuit_eq : state.fQuit = false

/-- The master waits only while others have checks pending. -/
def Asleep (state : CCheckQueue T W) : Prop :=
  state.thread none = .waiting → state.queue = [] ∧ state.nTodo ≠ 0

variable {eval}

theorem pending_setThread [Fintype W] (state : CCheckQueue T W) (t : Option W)
    (next : LoopState T) :
    (state.setThread t next).pending + inFlight (state.thread t) =
      state.pending + inFlight next := by
  rw [pending, pending, setThread, add_assoc, Slots.sum_update, add_assoc]

theorem thread_setThread_self (state : CCheckQueue T W) (t : Option W) (next : LoopState T) :
    (state.setThread t next).thread t = next := by
  simp [setThread]

variable {t : Option W} {state next : CCheckQueue T W} {added vChecks : List T} {fOk : Bool}
  {nBatchSize : ℕ} {use after : QueueUse T W}

theorem thread_setThread_of_ne (state : CCheckQueue T W) {other : Option W} (next : LoopState T)
    (ho : other ≠ t) : (state.setThread t next).thread other = state.thread other := by
  simp [setThread, ho]

/-- Some threads were woken, and their number may have changed. -/
structure Roused (state next : CCheckQueue T W) : Prop where
  queue : next.queue = state.queue
  nTodo : next.nTodo = state.nTodo
  fAllOk : next.fAllOk = state.fAllOk
  fQuit : next.fQuit = state.fQuit
  thread : ∀ t, next.thread t = state.thread t ∨ state.thread t = .waiting ∧ next.thread t = .woken

omit [DecidableEq W] in
theorem Roused.refl (state : CCheckQueue T W) : Roused state state :=
  ⟨rfl, rfl, rfl, rfl, fun _ => .inl rfl⟩

omit [DecidableEq W] in
theorem Roused.working (hroused : Roused state next)
    (hwork : next.thread t = .working vChecks fOk) : state.thread t = .working vChecks fOk := by
  rcases hroused.thread t with heq | ⟨-, hwoken⟩
  · exact heq.symm.trans hwork
  · cases hwoken.symm.trans hwork

omit [DecidableEq W] in
theorem Roused.pending [Fintype W] (hroused : Roused state next) :
    next.pending = state.pending := by
  rw [CCheckQueue.pending, CCheckQueue.pending, hroused.queue]
  congr 1
  apply Finset.sum_congr rfl
  intro t _
  rcases hroused.thread t with heq | ⟨hwait, hwoken⟩
  · rw [heq]
  · rw [hwait, hwoken]
    rfl

/-- The same checks are pending, and a new batch is not empty and was taken just now. -/
structure Kept [Fintype W] (state next : CCheckQueue T W) : Prop where
  pending : next.pending = state.pending
  nTodo : next.nTodo = state.nTodo
  fAllOk : next.fAllOk = state.fAllOk
  fQuit : next.fQuit = state.fQuit
  working : ∀ t vChecks fOk, next.thread t = .working vChecks fOk →
    state.thread t = .working vChecks fOk ∨ vChecks ≠ [] ∧ fOk = state.fAllOk

omit [DecidableEq W] in
theorem Roused.kept [Fintype W] (hroused : Roused state next) : Kept state next :=
  ⟨hroused.pending, hroused.nTodo, hroused.fAllOk, hroused.fQuit,
    fun _ _ _ hwork => .inl (hroused.working hwork)⟩

omit [DecidableEq W] in
theorem Counted.keep [Fintype W] (hst : Counted eval added state) (hkept : Kept state next) :
    Counted eval added next where
  nTodo_eq := by
    rw [hkept.nTodo, hkept.pending]
    exact hst.nTodo_eq
  accounted := by
    rw [hkept.pending, hkept.fAllOk]
    exact hst.accounted
  skipped t vChecks hwork := by
    rw [hkept.fAllOk]
    rcases hkept.working t vChecks false hwork with hpre | ⟨-, htaken⟩
    · exact hst.skipped t vChecks hpre
    · exact htaken.symm
  busy t vChecks fOk hwork := by
    rcases hkept.working t vChecks fOk hwork with hpre | ⟨hbatch, -⟩
    · exact hst.busy t vChecks fOk hpre
    · exact hbatch
  fQuit_eq := hkept.fQuit.trans hst.fQuit_eq

omit [DecidableEq W] in
theorem Asleep.rouse (hst : Asleep state) (hroused : Roused state next) : Asleep next := by
  intro hwait
  rw [hroused.queue, hroused.nTodo]
  rcases hroused.thread none with heq | ⟨-, hwoken⟩
  · exact hst (heq.symm.trans hwait)
  · cases hwoken.symm.trans hwait

theorem roused_wake (state : CCheckQueue T W) (t : Option W) : Roused state (state.wake t) := by
  rw [wake]
  split
  · next hwait =>
    refine ⟨rfl, rfl, rfl, rfl, fun other => ?_⟩
    by_cases ho : other = t
    · subst ho
      exact .inr ⟨hwait, thread_setThread_self state other .woken⟩
    · exact .inl (thread_setThread_of_ne state .woken ho)
  · exact ⟨rfl, rfl, rfl, rfl, fun _ => .inl rfl⟩

omit [DecidableEq W] in
theorem roused_wakeWorkers (state : CCheckQueue T W) : Roused state state.wakeWorkers := by
  refine ⟨rfl, rfl, rfl, rfl, fun t => ?_⟩
  rw [wakeWorkers]
  cases t with
  | none => exact .inl rfl
  | some w =>
    cases hthread : state.thread (some w) with
    | waiting => exact .inr ⟨rfl, by simp [hthread]⟩
    | outside | woken | working => exact .inl (by simp [hthread])

omit [DecidableEq W] in
/-- `Add` puts the new checks with those pending. -/
theorem Counted.enqueue [Fintype W] (hst : Counted eval added state) (vChecks : List T) :
    Counted eval (added ++ vChecks) (state.enqueue vChecks) := by
  have hpend : (state.enqueue vChecks).pending = vChecks + state.pending := by
    rw [CCheckQueue.pending, CCheckQueue.pending, CCheckQueue.enqueue, ← coe_add,
      coe_reverse, add_assoc]
  refine ⟨?_, ?_, hst.skipped, hst.busy, hst.fQuit_eq⟩
  · rw [hpend, card_add, coe_card, ← hst.nTodo_eq, Nat.add_comm]
    rfl
  · obtain ⟨done, hdone, hok⟩ := hst.accounted
    refine ⟨done, ?_, hok⟩
    rw [hpend, ← coe_add, hdone]
    abel

theorem roused_add (state : CCheckQueue T W) (vChecks : List T) (notified : Option W) :
    Roused (state.enqueue vChecks) (state.add vChecks notified) := by
  rw [CCheckQueue.add.eq_def]
  split_ifs
  · split
    · exact roused_wake _ _
    · exact .refl _
  · exact roused_wakeWorkers _
  · exact .refl _

/-- The checks of a finished batch become accounted for. -/
theorem Counted.account [Fintype W] (hst : Counted eval added state)
    (hwork : state.thread t = .working vChecks fOk) :
    Counted eval added (state.account eval t vChecks fOk) := by
  have hpend : (state.account eval t vChecks fOk).pending + (vChecks : Multiset T) =
      state.pending := by
    have hmoved := pending_setThread state t .woken
    rw [hwork] at hmoved
    exact hmoved.trans (add_zero _)
  have hothers {other : Option W} {batch : List T} {ok : Bool}
      (ho : (state.account eval t vChecks fOk).thread other = .working batch ok) :
      state.thread other = .working batch ok := by
    by_cases heq : other = t
    · subst heq
      cases (thread_setThread_self state other .woken).symm.trans ho
    · exact (thread_setThread_of_ne state .woken heq).symm.trans ho
  refine ⟨?_, ?_, ?_, fun other batch ok ho => hst.busy other batch ok (hothers ho),
    hst.fQuit_eq⟩
  · have hcard := congrArg card hpend
    rw [card_add, coe_card, ← hst.nTodo_eq] at hcard
    change state.nTodo - vChecks.length = _
    omega
  · obtain ⟨done, hdone, hok⟩ := hst.accounted
    refine ⟨done + vChecks, ?_, ?_⟩
    · rw [hdone, ← hpend]
      abel
    · -- a skipped batch was taken after a failure, so it cannot hide one
      have hskipped := hst.skipped t vChecks
      rw [hwork] at hskipped
      change (state.fAllOk && (fOk && vChecks.all eval)) = true ↔ _
      simp only [Bool.and_eq_true, List.all_eq_true, hok, mem_add, mem_coe]
      constructor
      · rintro ⟨hdone, -, hbatch⟩ check (hcheck | hcheck)
        · exact hdone check hcheck
        · exact hbatch check hcheck
      · intro hall
        have hpre := hok.2 fun check hcheck => hall check (.inl hcheck)
        refine ⟨fun check hcheck => hall check (.inl hcheck), ?_,
          fun check hcheck => hall check (.inr hcheck)⟩
        cases fOk with
        | true => rfl
        | false => exact absurd (hskipped rfl) (by simp [hpre])
  · intro other batch ho
    change (state.fAllOk && _) = false
    rw [hst.skipped other batch (hothers ho), Bool.false_and]

theorem roused_cleanUp (state : CCheckQueue T W) (t : Option W) (vChecks : List T) (fOk : Bool) :
    Roused (state.account eval t vChecks fOk) (state.cleanUp eval t vChecks fOk) := by
  rw [CCheckQueue.cleanUp]
  split_ifs
  · exact roused_wake _ _
  · exact .refl _

omit [DecidableEq W] in
/-- With nothing to do no thread is running a batch. -/
theorem Counted.idle [Fintype W] (hst : Counted eval added state) (hzero : state.nTodo = 0)
    (t : Option W) (vChecks : List T) (fOk : Bool) : state.thread t ≠ .working vChecks fOk := by
  intro hwork
  have hpend : state.pending = 0 := by
    rw [← card_eq_zero, ← hst.nTodo_eq, hzero]
  rw [pending, add_eq_zero, Finset.sum_eq_zero_iff] at hpend
  have hno := hpend.2 t (Finset.mem_univ t)
  rw [hwork] at hno
  exact hst.busy t vChecks fOk hwork (coe_eq_zero vChecks |>.1 hno)

/-- How a stretch of `Loop` ends: the thread goes on, or it is the master and `Wait` returns. -/
inductive Stretch [Fintype W] (eval : T → Bool) (added : List T) (t : Option W) :
    CCheckQueue T W × Option Bool → Prop where
  | goesOn (next : CCheckQueue T W) (hcount : Counted eval added next)
      (hinside : next.thread t ≠ .outside) : Stretch eval added t (next, none)
  | returns (next : CCheckQueue T W) (hcount : Counted eval [] next) (hmaster : t = none)
      (hqueue : next.queue = []) (hfAllOk : next.fAllOk = true) :
      Stretch eval added t (next, some (added.all eval))

/-- A thread not running a batch gets to the head of the loop. -/
theorem Counted.loopHead [Fintype W] (hst : Counted eval added state) (nBatchSize : ℕ)
    (hidle : inFlight (state.thread t) = 0) :
    Stretch eval added t (state.loopHead nBatchSize t) := by
  have hmoved (next : LoopState T) :
      (state.setThread t next).pending = state.pending + inFlight next := by
    rw [← pending_setThread state t next, hidle, add_zero]
  have hothers {next : LoopState T} {other : Option W} {vChecks : List T} {fOk : Bool}
      (hwork : (state.setThread t next).thread other = .working vChecks fOk) :
      state.thread other = .working vChecks fOk ∨ next = .working vChecks fOk := by
    by_cases ho : other = t
    · subst ho
      exact .inr ((thread_setThread_self state other next).symm.trans hwork)
    · exact .inl ((thread_setThread_of_ne state next ho).symm.trans hwork)
  rw [CCheckQueue.loopHead]
  split_ifs with hempty hreturn hmaster
  · -- the master returns: nothing is pending, so every check added is accounted for
    have hzero : state.pending = 0 := by
      rw [← card_eq_zero, ← hst.nTodo_eq, hreturn.2]
    have hafter : (state.setThread t .outside).pending = 0 :=
      (hmoved .outside).trans ((add_zero _).trans hzero)
    have hno (other : Option W) (vChecks : List T) (fOk : Bool) :
        (state.setThread t .outside).thread other ≠ .working vChecks fOk := by
      intro hwork
      rcases hothers hwork with hpre | hnever
      · exact hst.idle hreturn.2 other vChecks fOk hpre
      · cases hnever
    have hexact : state.fAllOk = added.all eval := by
      obtain ⟨done, hdone, hok⟩ := hst.accounted
      rw [hzero, add_zero] at hdone
      rw [Bool.eq_iff_iff, hok, ← hdone]
      simp
    rw [hexact]
    refine .returns _ ⟨?_, ⟨0, ?_, by simp⟩, fun other vChecks hwork => absurd hwork (hno _ _ _),
      fun other vChecks fOk hwork => absurd hwork (hno _ _ _), hst.fQuit_eq⟩ hmaster
      (List.isEmpty_iff.1 hempty) rfl
    · exact hreturn.2.trans (congrArg card hafter).symm
    · exact hafter.symm.trans (zero_add _).symm
  · rcases hreturn.1 with hno | hquit
    · exact absurd hno hmaster
    · cases hst.fQuit_eq.symm.trans hquit
  · refine .goesOn _ (hst.keep ⟨(hmoved .waiting).trans (add_zero _), rfl, rfl, rfl, ?_⟩)
      (by simp [setThread])
    intro other vChecks fOk hwork
    rcases hothers hwork with hpre | hnever
    · exact .inl hpre
    · cases hnever
  · have hbatch : state.queue.take (state.batchSize nBatchSize) ≠ [] := by
      intro hnil
      rcases List.take_eq_nil_iff.1 hnil with hzero | hqueue
      · have hone : 1 ≤ state.batchSize nBatchSize := le_max_left _ _
        omega
      · rw [hqueue] at hempty
        exact hempty rfl
    refine .goesOn _ (hst.keep ⟨?_, rfl, rfl, rfl, ?_⟩) (by simp [setThread])
    · -- the batch only moves from the queue to the thread
      have hsplit : (state.queue : Multiset T) = state.queue.take (state.batchSize nBatchSize) +
          state.queue.drop (state.batchSize nBatchSize) := by
        rw [coe_add, List.take_append_drop]
      have hsum := Slots.sum_update inFlight state.thread t
        (.working (state.queue.take (state.batchSize nBatchSize)) state.fAllOk)
      rw [hidle, add_zero] at hsum
      rw [pending, pending, hsplit]
      refine (congrArg _ hsum).trans ?_
      abel
    · intro other vChecks fOk hwork
      rcases hothers hwork with hpre | htaken
      · exact .inl hpre
      · cases htaken
        exact .inr ⟨hbatch, rfl⟩

theorem Asleep.loopHead (nBatchSize : ℕ) (hothers : t ≠ none → Asleep state) :
    Asleep (state.loopHead nBatchSize t).1 := by
  have hthread (next : LoopState T) (hwait : (state.setThread t next).thread none = .waiting)
      (hnext : next ≠ .waiting) : state.queue = [] ∧ state.nTodo ≠ 0 := by
    by_cases hmaster : none = t
    · rw [← hmaster] at hwait
      exact absurd hwait hnext
    · rw [thread_setThread_of_ne _ _ hmaster] at hwait
      exact hothers (Ne.symm hmaster) hwait
  rw [CCheckQueue.loopHead]
  split_ifs with hempty hreturn hmaster
  · intro hwait
    exact hthread .outside hwait nofun
  · intro hwait
    exact hthread .outside hwait nofun
  · intro hwait
    refine ⟨List.isEmpty_iff.1 hempty, ?_⟩
    by_cases hmaster : none = t
    · have hleft : state.nTodo ≠ 0 := by
        rw [← hmaster] at hreturn
        simpa using hreturn
      exact hleft
    · exact (hothers (Ne.symm hmaster)
        ((thread_setThread_of_ne state .waiting hmaster).symm.trans hwait)).2
  · intro hwait
    have hqueue := (hthread _ hwait nofun).1
    rw [hqueue] at hempty
    exact absurd rfl hempty

theorem thread_cleanUp (state : CCheckQueue T W) (t : Option W) (vChecks : List T) (fOk : Bool) :
    (state.cleanUp eval t vChecks fOk).thread t = .woken := by
  have haccount : (state.account eval t vChecks fOk).thread t = .woken :=
    thread_setThread_self state t .woken
  have hroused : Roused (state.account eval t vChecks fOk) (state.cleanUp eval t vChecks fOk) :=
    roused_cleanUp state t vChecks fOk
  rcases hroused.thread t with heq | ⟨-, hwoken⟩
  · exact heq.trans haccount
  · exact hwoken

/-- The waiting master is woken before nothing is left to do. -/
theorem Asleep.cleanUp (hst : Asleep state) (hworker : t ≠ none) (vChecks : List T)
    (fOk : Bool) : Asleep (state.cleanUp eval t vChecks fOk) := by
  rw [CCheckQueue.cleanUp]
  split_ifs with hlast
  · intro hwait
    rw [wake] at hwait
    split at hwait
    · cases (thread_setThread_self _ none .woken).symm.trans hwait
    · contradiction
  · intro hwait
    have hpre : state.thread none = .waiting :=
      (thread_setThread_of_ne state .woken (Ne.symm hworker)).symm.trans hwait
    exact ⟨(hst hpre).1, fun hzero => hlast ⟨hzero, hworker⟩⟩

theorem Counted.lock [Fintype W] {ret : Option Bool} (hst : Counted eval added state)
    (hasleep : Asleep state) (hlock : state.lock eval nBatchSize t = .ok (next, ret)) :
    Stretch eval added t (next, ret) ∧ Asleep next := by
  have hhead {state : CCheckQueue T W} (heq : state.loopHead nBatchSize t = (next, ret))
      (hst : Counted eval added state) (hidle : inFlight (state.thread t) = 0)
      (hothers : t ≠ none → Asleep state) :
      Stretch eval added t (next, ret) ∧ Asleep next := by
    have hstretch := hst.loopHead nBatchSize hidle
    have hasleep := Asleep.loopHead nBatchSize hothers
    rw [heq] at hstretch hasleep
    exact ⟨hstretch, hasleep⟩
  rw [CCheckQueue.lock] at hlock
  cases hthread : state.thread t with
  | waiting =>
    rw [hthread] at hlock
    cases hlock
  | outside | woken =>
    rw [hthread] at hlock
    refine hhead (Except.ok.inj hlock) ?_ (congrArg inFlight hthread) fun _ => hasleep
    exact hst.keep ⟨rfl, rfl, rfl, rfl, fun _ _ _ => .inl⟩
  | working vChecks fOk =>
    rw [hthread] at hlock
    refine hhead (Except.ok.inj hlock) ?_ ?_ fun hworker => hasleep.cleanUp hworker vChecks fOk
    · exact (hst.account hthread).keep (roused_cleanUp state t vChecks fOk).kept
    · rw [thread_cleanUp]
      rfl

/-- What holds between two steps. -/
structure Consistent (eval : T → Bool) [Fintype W] (use : QueueUse T W) : Prop where
  counted : Counted eval use.added use.state
  asleep : Asleep use.state

omit [DecidableEq W] in
theorem consistent_create [Fintype W] : Consistent eval (⟨create, [], []⟩ : QueueUse T W) := by
  have hpend : (create : CCheckQueue T W).pending = 0 := by
    simp [pending, create, inFlight]
  refine ⟨⟨?_, ⟨0, ?_, by simp [create]⟩, nofun, nofun, rfl⟩, nofun⟩
  · rw [hpend]
    rfl
  · rw [hpend]
    rfl

/-- The master returns just when the step notes a result, which is right. -/
theorem Consistent.lock [Fintype W] (hst : Consistent eval use)
    (hstep : step eval nBatchSize use (.lock t) = .ok after) :
    Consistent eval after ∧
      ((use.state.lock eval nBatchSize t = .ok (after.state, none) ∧
          after.state.thread t ≠ .outside ∧ after.results = use.results) ∨
        after.results = (use.added.all eval, use.added) :: use.results ∧ after.state.queue = [] ∧
          after.state.nTodo = 0 ∧ after.state.fAllOk = true ∧ after.added = []) := by
  rw [CCheckQueue.step] at hstep
  cases hlock : use.state.lock eval nBatchSize t with
  | error =>
    rw [hlock] at hstep
    cases hstep
  | ok result =>
    obtain ⟨next, ret⟩ := result
    rw [hlock] at hstep
    cases hstep
    obtain ⟨hstretch, hasleep⟩ := hst.counted.lock hst.asleep hlock
    cases hstretch with
    | goesOn _ hcount hinside => exact ⟨⟨hcount, hasleep⟩, .inl ⟨rfl, hinside, rfl⟩⟩
    | returns _ hcount hmaster hqueue hfAllOk =>
      subst hmaster
      refine ⟨⟨hcount, hasleep⟩, .inr ⟨rfl, hqueue, ?_, hfAllOk, rfl⟩⟩
      obtain ⟨done, hdone, -⟩ := hcount.accounted
      exact hcount.nTodo_eq.trans (congrArg card (add_eq_zero.1 hdone.symm).2)

/-- Every step keeps the queue consistent. -/
theorem Consistent.step [Fintype W] (hst : Consistent eval use) {event : Event T W}
    (hstep : step eval nBatchSize use event = .ok after) : Consistent eval after := by
  cases event with
  | add vChecks notified =>
    rw [CCheckQueue.step] at hstep
    split at hstep
    · next hmaster =>
      cases hstep
      have hroused := roused_add use.state vChecks notified
      refine ⟨(hst.counted.enqueue vChecks).keep hroused.kept, ?_⟩
      apply Asleep.rouse _ hroused
      intro hwait
      cases hmaster.symm.trans hwait
    · cases hstep
  | lock t => exact (hst.lock hstep).1
  | spurious t =>
    cases hstep
    have hroused := roused_wake use.state t
    exact ⟨hst.counted.keep hroused.kept, hst.asleep.rouse hroused⟩

end invariant

section progress

variable {eval : T → Bool} [Fintype W]

/-- How much a thread has to do before it waits. -/
def weight : LoopState T → ℕ
  | .outside => 1
  | .waiting => 0
  | .woken => 1
  | .working _ _ => 2

/-- Bounds how often the mutex is taken before the master returns. -/
def rank (state : CCheckQueue T W) : ℕ :=
  2 * state.queue.length + ∑ t, weight (state.thread t)

theorem rank_setThread (state : CCheckQueue T W) (t : Option W) (next : LoopState T) :
    (state.setThread t next).rank + weight (state.thread t) = state.rank + weight next := by
  rw [rank, rank, setThread, add_assoc, Slots.sum_update, add_assoc]

variable {state : CCheckQueue T W} {t : Option W} {nBatchSize : ℕ}

/-- A thread that wakes another had more to do itself. -/
theorem rank_cleanUp {vChecks : List T} {fOk : Bool}
    (hwork : state.thread t = .working vChecks fOk) :
    (state.cleanUp eval t vChecks fOk).rank ≤ state.rank := by
  have haccount : (state.account eval t vChecks fOk).rank + 2 = state.rank + 1 := by
    have hmoved := rank_setThread state t .woken
    rw [hwork] at hmoved
    exact hmoved
  rw [cleanUp]
  split_ifs
  · rw [wake]
    split
    · next hwait =>
      have hmoved := rank_setThread (state.account eval t vChecks fOk) none .woken
      simp only [weight] at hmoved
      omega
    · omega
  · omega

/-- A thread that goes on at the head of the loop waits or takes a batch. -/
theorem rank_loopHead {next : CCheckQueue T W} (hweight : weight (state.thread t) = 1)
    (hhead : state.loopHead nBatchSize t = (next, none)) : next.rank < state.rank := by
  rw [loopHead] at hhead
  split_ifs at hhead with hempty hreturn hmaster
  · cases hhead
  · cases hhead
  · obtain ⟨rfl, -⟩ := Prod.mk.inj hhead
    have hmoved := rank_setThread state t .waiting
    have hzero : weight (.waiting : LoopState T) = 0 := rfl
    change (state.setThread t .waiting).rank < _
    omega
  · obtain ⟨rfl, -⟩ := Prod.mk.inj hhead
    have hmoved := Slots.sum_update weight state.thread t
      (.working (state.queue.take (state.batchSize nBatchSize)) state.fAllOk)
    have hone : 1 ≤ state.batchSize nBatchSize := le_max_left _ _
    have hqueue : state.queue.length ≠ 0 := by
      intro hzero
      rw [List.length_eq_zero_iff.1 hzero] at hempty
      exact hempty rfl
    have htwo : weight (.working (state.queue.take (state.batchSize nBatchSize))
        state.fAllOk) = 2 := rfl
    rw [rank, rank, List.length_drop]
    change 2 * (state.queue.length - state.batchSize nBatchSize) +
      ∑ other, weight (Function.update state.thread t _ other) < _
    omega

theorem rank_lock {next : CCheckQueue T W}
    (hlock : state.lock eval nBatchSize t = .ok (next, none)) : next.rank < state.rank := by
  rw [lock] at hlock
  cases hthread : state.thread t with
  | waiting =>
    rw [hthread] at hlock
    cases hlock
  | outside =>
    rw [hthread] at hlock
    exact @rank_loopHead _ _ _ _ { state with nTotal := state.nTotal + 1 } t nBatchSize next
      (congrArg weight hthread) (Except.ok.inj hlock)
  | woken =>
    rw [hthread] at hlock
    exact @rank_loopHead _ _ _ _ { state with nIdle := state.nIdle - 1 } t nBatchSize next
      (congrArg weight hthread) (Except.ok.inj hlock)
  | working vChecks fOk =>
    rw [hthread] at hlock
    have hhead := rank_loopHead (congrArg weight (thread_cleanUp state t vChecks fOk))
      (Except.ok.inj hlock)
    exact hhead.trans_le (rank_cleanUp hthread)

/-- The mutex is taken only so often before `Wait` returns. -/
theorem length_le_rank {use last : QueueUse T W} (hst : Consistent eval use)
    {locks : List (Option W)}
    (hrun : Runs.run (step eval nBatchSize) (locks.map .lock) use = .ok last) :
    use.results.length ≤ last.results.length ∧
      (locks.length ≤ use.state.rank ∨ use.results.length < last.results.length) := by
  induction locks generalizing use with
  | nil =>
    cases hrun
    exact ⟨le_rfl, .inl (Nat.zero_le _)⟩
  | cons t locks ih =>
    rw [List.map_cons, Runs.run] at hrun
    split at hrun
    · cases hrun
    · next next hstep =>
      obtain ⟨hnext, hends⟩ := hst.lock hstep
      obtain ⟨hgrow, hrest⟩ := ih hnext hrun
      rw [List.length_cons]
      rcases hends with ⟨hlock, -, heq⟩ | ⟨hreturned, -⟩
      · have hless := rank_lock hlock
        rw [heq] at hgrow hrest
        omega
      · rw [hreturned, List.length_cons] at hgrow hrest
        omega

/-- The threads never all wait. -/
theorem Consistent.exists_lock {use : QueueUse T W} (hst : Consistent eval use)
    (nBatchSize : ℕ) : ∃ t next, CCheckQueue.step eval nBatchSize use (.lock t) = .ok next := by
  have hgo (t : Option W) (hthread : use.state.thread t ≠ .waiting) :
      ∃ next, CCheckQueue.step eval nBatchSize use (.lock t) = .ok next := by
    have hlock : ∃ result, use.state.lock eval nBatchSize t = .ok result := by
      rw [CCheckQueue.lock]
      cases hst : use.state.thread t with
      | waiting => exact absurd hst hthread
      | outside | woken | working => exact ⟨_, rfl⟩
    obtain ⟨result, hlock⟩ := hlock
    rw [CCheckQueue.step, hlock]
    exact ⟨_, rfl⟩
  by_cases hwait : use.state.thread none = .waiting
  · -- the checks left are in the batches of the workers
    obtain ⟨hqueue, hleft⟩ := hst.asleep hwait
    have hsome : ∃ t, inFlight (use.state.thread t) ≠ 0 := by
      by_contra hno
      simp only [not_exists, not_not] at hno
      apply hleft
      rw [hst.counted.nTodo_eq, pending, hqueue, Finset.sum_eq_zero fun t _ => hno t]
      rfl
    obtain ⟨t, ht⟩ := hsome
    have hbusy : use.state.thread t ≠ .waiting := by
      intro hidle
      rw [hidle] at ht
      exact ht rfl
    exact ⟨t, hgo t hbusy⟩
  · exact ⟨none, hgo none hwait⟩

/-- `Wait` returns whether every check added since the last call passes, with the queue empty and
ready again; some thread can always take the mutex, and only so often before `Wait` returns. -/
structure WaitsExactly (eval : T → Bool) (nBatchSize : ℕ) (use : QueueUse T W) : Prop where
  returned : ∀ next, step eval nBatchSize use (.lock none) = .ok next →
    next.state.thread none = .outside →
      next.results = (use.added.all eval, use.added) :: use.results ∧
        next.state.queue = [] ∧ next.state.nTodo = 0 ∧ next.state.fAllOk = true ∧ next.added = []
  continues : ∃ t next, step eval nBatchSize use (.lock t) = .ok next
  ends : ∃ bound, ∀ (locks : List (Option W)) (last : QueueUse T W),
    Runs.run (step eval nBatchSize) (locks.map .lock) use = .ok last → bound < locks.length →
      use.results.length < last.results.length

theorem Consistent.waitsExactly {use : QueueUse T W} (hst : Consistent eval use)
    (nBatchSize : ℕ) : WaitsExactly eval nBatchSize use where
  returned next hstep houtside := by
    rcases (hst.lock hstep).2 with ⟨-, hinside, -⟩ | hreturned
    · exact absurd houtside hinside
    · exact hreturned
  continues := hst.exists_lock nBatchSize
  ends := by
    refine ⟨use.state.rank, fun locks last hrun hmore => ?_⟩
    exact (length_le_rank hst hrun).2.resolve_left (Nat.not_le.2 hmore)

end progress

/-- For any number of workers, in every interleaving `Wait` is exact. -/
theorem always_waitsExactly [Fintype W] (eval : T → Bool) (nBatchSize : ℕ)
    (events : List (Event T W)) :
    Runs.Always (step eval nBatchSize) (WaitsExactly eval nBatchSize) events
      ⟨create, [], []⟩ := by
  have hconsistent : Runs.Always (step eval nBatchSize) (Consistent eval) events
      ⟨create, [], []⟩ := by
    apply (Runs.throughout_true events _).always _ consistent_create
    exact fun _ _ _ hst _ hstep => Consistent.step hst hstep
  exact hconsistent.imp fun _ hst => hst.waitsExactly nBatchSize

end CCheckQueue

end Catoshi
