/-
The states of a deployment do not depend on the cache: they are a recursion over periods.
-/
import Catoshi.VersionBits
import Catoshi.Lib.Runs

namespace Catoshi

open CBlockIndex

namespace CBlockIndex

theorem getAncestorInt_natCast (pindex : CBlockIndex) (height : ℕ) :
    pindex.getAncestorInt (height : ℤ) = pindex.getAncestor height := by
  rw [getAncestorInt, if_neg (by omega), Int.toNat_natCast]

/-- A chain has a block before every height up to the one after its tip. -/
theorem exists_getAncestorInt {tip : CBlockIndex} {height : ℕ} (hpos : 0 < height)
    (hheight : height ≤ tip.nHeight + 1) :
    ∃ low ∈ tip.ancestors, tip.getAncestorInt ((height : ℤ) - 1) = some low ∧
      low.nHeight + 1 = height := by
  obtain ⟨low, hf, hlow, hlevel, -⟩ := exists_getAncestor (Nat.sub_le_of_le_add hheight)
  refine ⟨low, hlow, ?_, by omega⟩
  rw [show (height : ℤ) - 1 = (height - 1 : ℕ) by omega, getAncestorInt_natCast, hf]

theorem mem_of_getAncestorInt {low tip : CBlockIndex} {height : ℤ}
    (hf : tip.getAncestorInt height = some low) : low ∈ tip.ancestors := by
  rw [getAncestorInt] at hf
  split_ifs at hf
  exact mem_of_getAncestor hf

end CBlockIndex

/-- The moves of a deployment between periods. -/
inductive ThresholdState.Moves : ThresholdState → ThresholdState → Prop
  | start : Moves .defined .started
  | lockIn : Moves .started .lockedIn
  | activate : Moves .lockedIn .active
  | miss : Moves .defined .failed
  | timeout : Moves .started .failed

/-- How far a state is from the first one. -/
def ThresholdState.rank : ThresholdState → ℕ
  | .defined => 0
  | .started => 1
  | .lockedIn => 2
  | .active => 3
  | .failed => 4

theorem ThresholdState.rank_injective : Function.Injective ThresholdState.rank := by
  intro first second hrank
  cases first <;> cases second <;> simp_all [rank]

theorem ThresholdState.Moves.rank_lt {first second : ThresholdState} (hmove : first.Moves second) :
    first.rank < second.rank := by
  cases hmove <;> decide

/-- Blocks with all their ancestors, whose median time never goes back along a chain. -/
structure MedianOrdered (tree : Set CBlockIndex) : Prop where
  pprev_mem : ∀ pindex ∈ tree, ∀ pprev ∈ pindex.pprev, pprev ∈ tree
  median_le : ∀ pindex ∈ tree, ∀ pprev ∈ pindex.pprev,
    pprev.getMedianTimePast ≤ pindex.getMedianTimePast

namespace MedianOrdered

variable {tree : Set CBlockIndex}

theorem of_ancestor (htree : MedianOrdered tree) {low tip : CBlockIndex} (htip : tip ∈ tree)
    (hlow : low ∈ tip.ancestors) :
    low ∈ tree ∧ low.getMedianTimePast ≤ tip.getMedianTimePast := by
  induction tip, hlow using ancestors_induction with
  | self => exact ⟨htip, le_rfl⟩
  | child pprev hash time hbelow ih =>
    obtain ⟨hmem, hle⟩ := ih (htree.pprev_mem _ htip pprev rfl)
    exact ⟨hmem, hle.trans (htree.median_le _ htip pprev rfl)⟩

end MedianOrdered

namespace ThresholdConditionChecker

variable (checker : ThresholdConditionChecker)

/-- The state after a period, by the rules: its last block says the time, and its blocks are
counted. -/
def bip9Next (state : ThresholdState) (last : CBlockIndex) : ThresholdState :=
  match state with
  | .defined =>
    if checker.endTime ≤ last.getMedianTimePast then .failed
    else if checker.beginTime ≤ last.getMedianTimePast then .started
    else .defined
  | .started =>
    if checker.endTime ≤ last.getMedianTimePast then .failed
    else if checker.threshold ≤ (last.ancestors.take checker.period).countP checker.condition then
      .lockedIn
    else .started
  | .lockedIn => .active
  | .active => .active
  | .failed => .failed

/-- The state of a period below a block. The genesis block's is defined. -/
def periodState (tip : CBlockIndex) : ℕ → ThresholdState
  | 0 => .defined
  | k + 1 =>
    match tip.getAncestor ((k + 1) * checker.period - 1) with
    | some last => checker.bip9Next (periodState tip k) last
    | none => periodState tip k

/-- The state of the block after `pindexPrev`. -/
def bip9State : Option CBlockIndex → ThresholdState
  | none => .defined
  | some pindexPrev => checker.periodState pindexPrev ((pindexPrev.nHeight + 1) / checker.period)

/-- The state at a height on the chain through `pindexPrev`. -/
def stateAt (pindexPrev : Option CBlockIndex) (height : ℕ) : ThresholdState :=
  checker.bip9State (pindexPrev.bind fun pindex => pindex.getAncestorInt ((height : ℤ) - 1))

/-- The height of the block after `pindexPrev`. -/
def nextHeight : Option CBlockIndex → ℕ
  | none => 0
  | some pindexPrev => pindexPrev.nHeight + 1

/-- A cache of states of the recursion. -/
def Consistent (cache : ThresholdConditionCache) : Prop :=
  ∀ pindexPrev state, cache.lookup pindexPrev = some state → state = checker.bip9State pindexPrev

/-- The null block, or the last block of a period. -/
def EndsPeriod : Option CBlockIndex → Prop
  | none => True
  | some pindex => ∃ k, pindex.nHeight + 1 = (k + 1) * checker.period

variable {checker}

section Recursion

variable {tip : CBlockIndex}

/-- The state of a period an ancestor has seen the end of. -/
theorem periodState_of_mem {low : CBlockIndex} (hlow : low ∈ tip.ancestors) {k : ℕ}
    (hk : k * checker.period ≤ low.nHeight + 1) :
    checker.periodState tip k = checker.periodState low k := by
  induction k with
  | zero => rfl
  | succ k ih =>
    have hpre : k * checker.period ≤ low.nHeight + 1 :=
      (Nat.mul_le_mul_right _ (Nat.le_succ k)).trans hk
    rw [periodState, periodState, ih hpre, getAncestor_of_mem hlow (Nat.sub_le_of_le_add hk)]

/-- The state after a block that ends a period below a block. -/
theorem bip9State_of_ends (hperiod : 1 ≤ checker.period) {low : CBlockIndex}
    (hlow : low ∈ tip.ancestors) {k : ℕ} (hends : low.nHeight + 1 = k * checker.period) :
    checker.bip9State (some low) = checker.periodState tip k := by
  rw [bip9State, hends, Nat.mul_div_cancel _ hperiod]
  exact (periodState_of_mem hlow hends.ge).symm

/-- The state at any height below a block. -/
theorem stateAt_some {height : ℕ} (hheight : height ≤ tip.nHeight + 1) :
    checker.stateAt (some tip) height = checker.periodState tip (height / checker.period) := by
  cases height with
  | zero =>
    rw [Nat.zero_div]
    rfl
  | succ height =>
    obtain ⟨low, hlow, hat, hlevel⟩ := exists_getAncestorInt (Nat.succ_pos height) hheight
    rw [stateAt, Option.bind_some, hat, bip9State, hlevel]
    refine (periodState_of_mem hlow ?_).symm
    rw [hlevel]
    exact Nat.div_mul_le_self _ _

theorem stateAt_nextHeight (pindexPrev : Option CBlockIndex) :
    checker.stateAt pindexPrev (nextHeight pindexPrev) = checker.bip9State pindexPrev := by
  cases pindexPrev with
  | none => rfl
  | some tip => rw [nextHeight, stateAt_some le_rfl, bip9State]

/-- One period moves the state by one move at most. -/
theorem periodState_succ (tip : CBlockIndex) (k : ℕ) :
    checker.periodState tip (k + 1) = checker.periodState tip k ∨
      (checker.periodState tip k).Moves (checker.periodState tip (k + 1)) := by
  rw [periodState]
  cases tip.getAncestor ((k + 1) * checker.period - 1) with
  | none => exact .inl rfl
  | some last =>
    generalize checker.periodState tip k = state
    cases state with
    | defined =>
      simp only [bip9Next]
      split
      · exact .inr .miss
      · split
        · exact .inr .start
        · exact .inl rfl
    | started =>
      simp only [bip9Next]
      split
      · exact .inr .timeout
      · split
        · exact .inr .lockIn
        · exact .inl rfl
    | lockedIn => exact .inr .activate
    | active | failed => exact .inl rfl

/-- The states of the periods only go forward. -/
theorem rank_periodState_mono (tip : CBlockIndex) :
    Monotone fun k => (checker.periodState tip k).rank := by
  refine monotone_nat_of_le_succ fun k => ?_
  rcases @periodState_succ checker tip k with hsame | hmove
  · rw [hsame]
  · exact hmove.rank_lt.le

/-- A state of two periods is that of those between. -/
theorem periodState_between {first mid last : ℕ} (hfst : first ≤ mid) (hlast : mid ≤ last)
    (hsame : checker.periodState tip first = checker.periodState tip last) :
    checker.periodState tip mid = checker.periodState tip last := by
  apply ThresholdState.rank_injective
  apply le_antisymm
  · exact rank_periodState_mono tip hlast
  · rw [← hsame]
    exact rank_periodState_mono tip hfst

/-- Before the start time every period is defined. -/
theorem bip9State_of_early {tree : Set CBlockIndex} (htree : MedianOrdered tree)
    (htimes : checker.beginTime ≤ checker.endTime) (htip : tip ∈ tree)
    (hearly : tip.getMedianTimePast < checker.beginTime) :
    checker.bip9State (some tip) = .defined := by
  rw [bip9State]
  induction (tip.nHeight + 1) / checker.period with
  | zero => rfl
  | succ k ih =>
    rw [periodState, ih]
    cases hf : tip.getAncestor ((k + 1) * checker.period - 1) with
    | none => rfl
    | some last =>
      have hmedian := (htree.of_ancestor htip (mem_of_getAncestor hf)).2
      simp only [bip9Next]
      rw [if_neg (by omega), if_neg (by omega)]

end Recursion

section Walks

/-- The walks start at the end of a period with the same state. -/
theorem endsPeriod_periodParent (hperiod : 1 ≤ checker.period) (pindexPrev : CBlockIndex) :
    checker.EndsPeriod (checker.periodParent pindexPrev) ∧
      checker.bip9State (checker.periodParent pindexPrev) =
        checker.bip9State (some pindexPrev) := by
  have hdiv := Nat.div_add_mod' (pindexPrev.nHeight + 1) checker.period
  rw [bip9State]
  generalize (pindexPrev.nHeight + 1) / checker.period = k at hdiv
  have hheight : (pindexPrev.nHeight : ℤ) -
      (((pindexPrev.nHeight + 1) % checker.period : ℕ) : ℤ) =
        ((k * checker.period : ℕ) : ℤ) - 1 := by
    omega
  rw [periodParent, hheight]
  cases k with
  | zero =>
    rw [getAncestorInt, if_pos (by simp)]
    exact ⟨trivial, rfl⟩
  | succ k =>
    have hbelow : (k + 1) * checker.period ≤ pindexPrev.nHeight + 1 := by omega
    obtain ⟨low, hlow, hat, hends⟩ :=
      exists_getAncestorInt (Nat.mul_pos (Nat.succ_pos k) hperiod) hbelow
    rw [hat]
    exact ⟨⟨k, hends⟩, bip9State_of_ends hperiod hlow hends⟩

variable {pindex : CBlockIndex}

/-- The end of the period before. -/
theorem previousPeriodParent_spec (hperiod : 1 ≤ checker.period) {k : ℕ}
    (hends : pindex.nHeight + 1 = (k + 1) * checker.period) :
    (checker.previousPeriodParent pindex = none ∧ k = 0) ∨
      ∃ parent j, checker.previousPeriodParent pindex = some parent ∧ k = j + 1 ∧
        parent ∈ pindex.ancestors ∧ parent.nHeight + 1 = (j + 1) * checker.period := by
  rw [Nat.add_mul] at hends
  have hheight : (pindex.nHeight : ℤ) - (checker.period : ℤ) =
      ((k * checker.period : ℕ) : ℤ) - 1 := by
    omega
  rw [previousPeriodParent, hheight]
  cases k with
  | zero =>
    refine .inl ⟨?_, rfl⟩
    rw [getAncestorInt, if_pos (by simp)]
  | succ j =>
    have hbelow : (j + 1) * checker.period ≤ pindex.nHeight + 1 := by omega
    obtain ⟨low, hlow, hat, hpar⟩ :=
      exists_getAncestorInt (Nat.mul_pos (Nat.succ_pos j) hperiod) hbelow
    exact .inr ⟨low, j, hat, rfl, hlow, hpar⟩

/-- The count stays on the chain while it is long enough. -/
theorem countLoop_eq {left : ℕ} {tip : CBlockIndex} (hleft : left ≤ tip.nHeight + 1) (count : ℕ) :
    checker.countLoop left (some tip) count =
      .ok (count + (tip.ancestors.take left).countP checker.condition) := by
  induction left generalizing tip count with
  | zero => simp [countLoop]
  | succ left ih =>
    rw [countLoop]
    cases tip with
    | genesis hash time =>
      obtain rfl : left = 0 := by
        rw [CBlockIndex.nHeight] at hleft
        omega
      simp only [CBlockIndex.ancestors, countLoop, List.take_succ_cons, List.take_zero,
        List.countP_cons, List.countP_nil]
      split <;> simp_all
    | child pprev hash time =>
      rw [CBlockIndex.pprev, ih (by rw [CBlockIndex.nHeight] at hleft; omega)]
      simp only [CBlockIndex.ancestors, List.take_succ_cons, List.countP_cons]
      split <;> simp_all [Nat.add_assoc, Nat.add_comm]

/-- One round of the walk forward. -/
theorem stateNext_spec (hperiod : 1 ≤ checker.period) (hends : checker.EndsPeriod (some pindex)) :
    checker.stateNext (checker.bip9State (checker.previousPeriodParent pindex)) pindex =
      .ok (checker.bip9State (some pindex)) := by
  obtain ⟨k, hends⟩ := hends
  have hpre : checker.bip9State (checker.previousPeriodParent pindex) =
      checker.periodState pindex k := by
    rcases previousPeriodParent_spec hperiod hends with ⟨hno, rfl⟩ | ⟨parent, j, hsome, rfl, hlow,
      hpar⟩
    · rw [hno]
      rfl
    · rw [hsome]
      exact bip9State_of_ends hperiod hlow hpar
  have hlast : pindex.getAncestor ((k + 1) * checker.period - 1) = some pindex := by
    rw [← hends, Nat.add_sub_cancel, getAncestor_self]
  have hlong : checker.period ≤ pindex.nHeight + 1 := by
    rw [hends]
    exact Nat.le_mul_of_pos_left _ (Nat.succ_pos k)
  rw [hpre, bip9State, hends, Nat.mul_div_cancel _ hperiod, periodState, hlast]
  generalize checker.periodState pindex k = state
  cases state with
  | defined =>
    simp only [stateNext, bip9Next]
    split
    · rfl
    · split <;> rfl
  | started =>
    simp only [stateNext, bip9Next]
    split
    · rfl
    · rw [countLoop_eq hlong, Nat.zero_add]
      show (if _ then _ else _) = _
      split <;> rfl
  | lockedIn | active | failed => rfl

theorem Consistent.insert {cache : ThresholdConditionCache} (hcache : checker.Consistent cache)
    (pindexPrev : Option CBlockIndex) :
    checker.Consistent (cache.insert pindexPrev (checker.bip9State pindexPrev)) := by
  intro other state hst
  rw [Table.lookup_insert] at hst
  split_ifs at hst with heq
  · rw [heq]
    exact (Option.some.inj hst).symm
  · exact hcache other state hst

end Walks

section Queries

variable {tree : Set CBlockIndex} (htree : MedianOrdered tree)
  (hactive : checker.beginTime ≠ alwaysActive) (htimes : checker.beginTime ≤ checker.endTime)
  (hperiod : 1 ≤ checker.period) {cache : ThresholdConditionCache}
  {fuel : ℕ} {pindexPrev : Option CBlockIndex}

include htree htimes hperiod in
/-- The walk back ends, and the walk forward from there brings the state of the block. -/
theorem walkForward_of_walkBack {start : Option CBlockIndex} (hends : checker.EndsPeriod start)
    (hstart : ∀ pindex ∈ start, pindex ∈ tree) (hfuel : remaining start ≤ fuel)
    (hcache : checker.Consistent cache) (vToCompute : List CBlockIndex) :
    ∃ state todo known, checker.walkBack fuel start vToCompute cache = .ok (state, todo, known) ∧
      ∃ next, checker.Consistent next ∧ checker.walkForward todo state known =
        checker.walkForward vToCompute (checker.bip9State start) next := by
  induction fuel generalizing start vToCompute with
  | zero => cases start <;> simp [remaining] at hfuel
  | succ fuel ih =>
    rw [walkBack.eq_def]
    cases hf : cache.lookup start with
    | some state =>
      simp only [hf]
      refine ⟨state, vToCompute, cache, rfl, cache, hcache, ?_⟩
      rw [hcache start state hf]
    | none =>
      cases start with
      | none =>
        simp only [hf]
        exact ⟨.defined, vToCompute, _, rfl, _, hcache.insert none, rfl⟩
      | some pindex =>
        simp only [hf]
        have hmem := hstart pindex rfl
        by_cases hearly : pindex.getMedianTimePast < checker.beginTime
        · have hdefined := bip9State_of_early htree htimes hmem hearly
          refine ⟨.defined, vToCompute, _, if_pos hearly, _, hcache.insert (some pindex), ?_⟩
          rw [hdefined]
        · obtain ⟨k, hk⟩ := id hends
          -- the block before stands lower, so the fuel still suffices
          have hlower : checker.EndsPeriod (checker.previousPeriodParent pindex) ∧
              (∀ parent ∈ checker.previousPeriodParent pindex, parent ∈ tree) ∧
              remaining (checker.previousPeriodParent pindex) ≤ fuel := by
            rw [remaining] at hfuel
            rcases previousPeriodParent_spec hperiod hk with ⟨hno, -⟩ | ⟨parent, j, hsome,
              rfl, hlow, hpar⟩
            · rw [hno]
              exact ⟨trivial, nofun, by rw [remaining]; omega⟩
            · rw [hsome]
              refine ⟨⟨j, hpar⟩, ?_, ?_⟩
              · rintro _ ⟨⟩
                exact (htree.of_ancestor hmem hlow).1
              · rw [Nat.add_mul, Nat.one_mul] at hk
                rw [remaining]
                omega
          obtain ⟨hendsBefore, hmemBefore, hfuelBefore⟩ := hlower
          obtain ⟨state, todo, known, hback, next, hnext, hforward⟩ :=
            ih hendsBefore hmemBefore hfuelBefore (pindex :: vToCompute)
          refine ⟨state, todo, known, (if_neg hearly).trans hback, _,
            hnext.insert (some pindex), ?_⟩
          rw [hforward, walkForward, stateNext_spec hperiod hends]
          rfl

include htree hactive htimes hperiod in
/-- `GetStateFor` returns the state of the recursion and keeps the cache consistent. -/
theorem getStateFor_spec (hcache : checker.Consistent cache)
    (hprev : ∀ pindex ∈ pindexPrev, pindex ∈ tree) :
    ∃ next, checker.getStateFor pindexPrev cache = .ok (checker.bip9State pindexPrev, next) ∧
      checker.Consistent next := by
  have hstart : checker.EndsPeriod (pindexPrev.bind checker.periodParent) ∧
      (∀ pindex ∈ pindexPrev.bind checker.periodParent, pindex ∈ tree) ∧
      checker.bip9State (pindexPrev.bind checker.periodParent) = checker.bip9State pindexPrev := by
    cases pindexPrev with
    | none => exact ⟨trivial, nofun, rfl⟩
    | some tip =>
      obtain ⟨hends, hst⟩ := endsPeriod_periodParent hperiod tip
      refine ⟨hends, fun low hlow => ?_, hst⟩
      exact (htree.of_ancestor (hprev tip rfl) (mem_of_getAncestorInt hlow)).1
  obtain ⟨hends, hmem, hst⟩ := hstart
  obtain ⟨state, todo, known, hback, next, hnext, hforward⟩ :=
    walkForward_of_walkBack htree htimes hperiod hends hmem le_rfl hcache []
  refine ⟨next, ?_, hnext⟩
  rw [getStateFor, if_neg hactive]
  simp only [hback, bind, Except.bind]
  rw [hforward, hst]
  rfl

include htree hactive htimes hperiod in
/-- The loop goes back to the first period of the state. -/
theorem sinceLoop_spec {tip : CBlockIndex} {initialState : ThresholdState}
    (hinitial : initialState ≠ .defined) {pindexPrev : CBlockIndex} {k : ℕ}
    (hmem : pindexPrev ∈ tree) (hbelow : pindexPrev ∈ tip.ancestors)
    (hends : pindexPrev.nHeight + 1 = (k + 1) * checker.period)
    (hsame : checker.periodState tip (k + 1) = initialState) (hfuel : k < fuel)
    (hcache : checker.Consistent cache) :
    ∃ first next, checker.sinceLoop initialState fuel pindexPrev cache =
        .ok (((first * checker.period : ℕ) : ℤ), next) ∧ checker.Consistent next ∧
      first ≤ k + 1 ∧ checker.periodState tip first = initialState ∧
      ∀ earlier < first, checker.periodState tip earlier ≠ initialState := by
  induction fuel generalizing pindexPrev k cache with
  | zero => exact absurd hfuel (Nat.not_lt_zero k)
  | succ fuel ih =>
    have hreturned : (pindexPrev.nHeight : ℤ) + 1 = (((k + 1) * checker.period : ℕ) : ℤ) := by
      rw [← hends]
      push_cast
      rfl
    rw [sinceLoop]
    rcases previousPeriodParent_spec hperiod hends with ⟨hno, rfl⟩ | ⟨parent, j, hsome, rfl,
      hlow, hpar⟩
    · rw [hno]
      refine ⟨1, cache, by rw [← hreturned], hcache, le_rfl, hsame, fun earlier hprior => ?_⟩
      obtain rfl : earlier = 0 := Nat.lt_one_iff.1 hprior
      exact fun hdefined => hinitial hdefined.symm
    · have hparentMem := (htree.of_ancestor hmem hlow).1
      have hparentBelow := ancestors_trans hlow hbelow
      have hparentTree : ∀ pindex ∈ some parent, pindex ∈ tree := by
        rintro _ ⟨⟩
        exact hparentMem
      obtain ⟨next, hst, hnext⟩ := getStateFor_spec htree hactive htimes hperiod hcache hparentTree
      rw [bip9State_of_ends hperiod hparentBelow hpar] at hst
      rw [hsome]
      simp only [hst, bind, Except.bind]
      by_cases hback : checker.periodState tip (j + 1) = initialState
      · obtain ⟨first, last, hloop, hlast, hle, hfst, hleast⟩ :=
          ih hparentMem hparentBelow hpar hback (Nat.lt_of_succ_lt_succ hfuel) hnext
        exact ⟨first, last, (if_pos hback).trans hloop, hlast, hle.trans (Nat.le_succ _), hfst,
          hleast⟩
      · refine ⟨j + 1 + 1, next, by rw [if_neg hback, ← hreturned], hnext, le_rfl, hsame, ?_⟩
        -- a state that came back would have been there all the time
        intro earlier hprior hf
        apply hback
        rw [← hsame]
        exact periodState_between (Nat.lt_succ_iff.1 hprior) (Nat.le_succ _) (hf.trans hsame.symm)

include htree hactive htimes hperiod in
theorem getStateSinceHeightFor_spec (hcache : checker.Consistent cache)
    (hprev : ∀ pindex ∈ pindexPrev, pindex ∈ tree) :
    ∃ (since : ℕ) (next : ThresholdConditionCache),
      checker.getStateSinceHeightFor pindexPrev cache = .ok ((since : ℤ), next) ∧
      checker.Consistent next ∧
      IsLeast {height | height ≤ nextHeight pindexPrev ∧
        checker.stateAt pindexPrev height = checker.bip9State pindexPrev} since := by
  obtain ⟨known, hst, hknown⟩ := getStateFor_spec htree hactive htimes hperiod hcache hprev
  rw [getStateSinceHeightFor, if_neg hactive, hst]
  simp only [bind, Except.bind]
  by_cases hdefined : checker.bip9State pindexPrev = .defined
  · refine ⟨0, known, if_pos hdefined, hknown, ⟨Nat.zero_le _, ?_⟩, fun _ _ => Nat.zero_le _⟩
    rw [hdefined]
    cases pindexPrev <;> rfl
  · rw [if_neg hdefined]
    cases pindexPrev with
    | none => exact absurd rfl hdefined
    | some tip =>
      obtain ⟨hends, hparentState⟩ := endsPeriod_periodParent hperiod tip
      rw [Option.bind_some]
      cases hpar : checker.periodParent tip with
      | none =>
        rw [hpar] at hparentState
        exact absurd hparentState.symm hdefined
      | some start =>
        rw [hpar] at hends hparentState
        obtain ⟨k, hends⟩ := hends
        have hbelow : start ∈ tip.ancestors := mem_of_getAncestorInt hpar
        have hfuel : k < start.nHeight + 1 := by
          rw [hends]
          exact Nat.lt_of_lt_of_le (Nat.lt_succ_self k) (Nat.le_mul_of_pos_right _ hperiod)
        obtain ⟨first, next, hloop, hnext, hle, hfst, hleast⟩ :=
          sinceLoop_spec htree hactive htimes hperiod hdefined
            (htree.of_ancestor (hprev tip rfl) hbelow).1 hbelow hends
            ((bip9State_of_ends hperiod hbelow hends).symm.trans hparentState) hfuel hknown
        have hinside : first * checker.period ≤ nextHeight (some tip) := by
          have hstart := nHeight_le_of_mem hbelow
          have hbound := Nat.mul_le_mul_right checker.period hle
          rw [nextHeight]
          omega
        refine ⟨first * checker.period, next, hloop, hnext, ⟨hinside, ?_⟩, ?_⟩
        · rw [stateAt_some hinside, Nat.mul_div_cancel _ hperiod, hfst]
        · rintro height ⟨hheight, hsame⟩
          rw [stateAt_some hheight] at hsame
          refine (Nat.mul_le_mul_right _ ?_).trans (Nat.div_mul_le_self height checker.period)
          by_contra hprior
          exact hleast _ (not_le.1 hprior) hsame

include htree hactive htimes hperiod in
/-- A query returns and keeps the cache consistent. -/
theorem query_spec (hcache : checker.Consistent cache) {call : Query}
    (hcall : ∀ pindex ∈ call.pindexPrev, pindex ∈ tree) :
    ∃ next, checker.query cache call = .ok next ∧ checker.Consistent next := by
  cases call with
  | stateFor pindexPrev =>
    obtain ⟨next, hst, hnext⟩ := getStateFor_spec htree hactive htimes hperiod hcache hcall
    exact ⟨next, congrArg (Except.map Prod.snd) hst, hnext⟩
  | stateSinceHeightFor pindexPrev =>
    obtain ⟨since, next, hsince, hnext, -⟩ :=
      getStateSinceHeightFor_spec htree hactive htimes hperiod hcache hcall
    exact ⟨next, congrArg (Except.map Prod.snd) hsince, hnext⟩

/-- Blocks of a period have one state, and from block to block it makes one move at most. -/
theorem stateAt_steps (pindexPrev : Option CBlockIndex) :
    (∀ first second, first ≤ nextHeight pindexPrev → second ≤ nextHeight pindexPrev →
      first / checker.period = second / checker.period →
      checker.stateAt pindexPrev first = checker.stateAt pindexPrev second) ∧
    ∀ height < nextHeight pindexPrev,
      checker.stateAt pindexPrev (height + 1) = checker.stateAt pindexPrev height ∨
        (checker.stateAt pindexPrev height).Moves (checker.stateAt pindexPrev (height + 1)) := by
  cases pindexPrev with
  | none =>
    refine ⟨fun first second hfst hsnd _ => ?_, fun height hheight => ?_⟩
    · rw [Nat.le_zero.1 hfst, Nat.le_zero.1 hsnd]
    · exact absurd hheight (Nat.not_lt_zero height)
  | some tip =>
    refine ⟨fun first second hfst hsnd hsame => ?_, fun height hheight => ?_⟩
    · rw [stateAt_some hfst, stateAt_some hsnd, hsame]
    · rw [stateAt_some hheight, stateAt_some hheight.le, Nat.succ_div]
      split
      · exact periodState_succ tip (height / checker.period)
      · exact .inl rfl

include htree hactive htimes hperiod in
/-- Whatever queries have filled the cache, both functions answer by the recursion over
whole periods: the state is the recursion's, all blocks of a period have it, along a
chain it starts as defined and only makes the moves of `ThresholdState.Moves`, and the
height returned is the first one with the state. -/
theorem threshold_states_cache_independent (queries : List Query)
    (hqueries : ∀ call ∈ queries, ∀ pindex ∈ call.pindexPrev, pindex ∈ tree) :
    ∃ cache, Runs.run checker.query queries ∅ = .ok cache ∧
      ∀ pindexPrev : Option CBlockIndex, (∀ pindex ∈ pindexPrev, pindex ∈ tree) →
        (∃ next, checker.getStateFor pindexPrev cache = .ok (checker.bip9State pindexPrev, next)) ∧
        (∀ first second, first ≤ nextHeight pindexPrev → second ≤ nextHeight pindexPrev →
          first / checker.period = second / checker.period →
          checker.stateAt pindexPrev first = checker.stateAt pindexPrev second) ∧
        checker.stateAt pindexPrev 0 = .defined ∧
        checker.stateAt pindexPrev (nextHeight pindexPrev) = checker.bip9State pindexPrev ∧
        (∀ height < nextHeight pindexPrev,
          checker.stateAt pindexPrev (height + 1) = checker.stateAt pindexPrev height ∨
            (checker.stateAt pindexPrev height).Moves (checker.stateAt pindexPrev (height + 1))) ∧
        ∃ (since : ℕ) (next : ThresholdConditionCache),
          checker.getStateSinceHeightFor pindexPrev cache = .ok ((since : ℤ), next) ∧
          IsLeast {height | height ≤ nextHeight pindexPrev ∧
            checker.stateAt pindexPrev height = checker.bip9State pindexPrev} since := by
  have hempty : checker.Consistent ∅ := by
    intro pindexPrev state hst
    rw [AList.lookup_empty] at hst
    cases hst
  have hreturns : ∀ (known : ThresholdConditionCache) (call : Query), checker.Consistent known →
      (True ∧ ∀ pindex ∈ call.pindexPrev, pindex ∈ tree) →
      ∃ next, checker.query known call = .ok next ∧ checker.Consistent next :=
    fun _ _ hknown hcall => query_spec htree hactive htimes hperiod hknown hcall.2
  obtain ⟨cache, hrun, hcache⟩ :=
    ((Runs.throughout_true queries ∅).and_forall hqueries).exists_run hreturns hempty
  refine ⟨cache, hrun, fun pindexPrev hprev => ?_⟩
  obtain ⟨next, hst, -⟩ := getStateFor_spec htree hactive htimes hperiod hcache hprev
  obtain ⟨hconstant, hmoves⟩ := stateAt_steps pindexPrev
  obtain ⟨since, last, hsince, -, hleast⟩ :=
    getStateSinceHeightFor_spec htree hactive htimes hperiod hcache hprev
  refine ⟨⟨next, hst⟩, hconstant, ?_, stateAt_nextHeight pindexPrev, hmoves,
    since, last, hsince, hleast⟩
  cases pindexPrev <;> rfl

end Queries

namespace VersionBitsWitness

def block1 : CBlockIndex := .child (.genesis (hashOf 0) 5) (hashOf 1) 10

def block2 : CBlockIndex := .child block1 (hashOf 2) 20

/-- Every block signals bit 0, and a period is one block. -/
def signalled : ThresholdConditionChecker :=
  versionBitsConditionChecker (fun _ => 0x20000001#32) 1 1 ⟨0, 10, 100⟩

theorem medianOrdered : MedianOrdered {pindex | pindex ∈ block2.ancestors} where
  pprev_mem := by
    show ∀ pindex ∈ block2.ancestors, ∀ pprev ∈ pindex.pprev, pprev ∈ block2.ancestors
    decide
  median_le := by
    show ∀ pindex ∈ block2.ancestors, ∀ pprev ∈ pindex.pprev,
      pprev.getMedianTimePast ≤ pindex.getMedianTimePast
    decide

/-- A chain on which the deployment is defined, started and locked in. -/
theorem signalled_locks_in :
    ∃ cache, Runs.run signalled.query
        [.stateFor (some block2), .stateSinceHeightFor (some block1)] ∅ = .ok cache ∧
      ∃ next, signalled.getStateFor (some block2) cache = .ok (.lockedIn, next) := by
  obtain ⟨cache, hrun, hanswers⟩ := @threshold_states_cache_independent signalled _
    medianOrdered (by decide) (by decide) (by decide)
    [.stateFor (some block2), .stateSinceHeightFor (some block1)] (by decide)
  obtain ⟨⟨next, hst⟩, -⟩ := hanswers (some block2) (by
    rintro _ ⟨⟩
    exact ancestors_self _)
  exact ⟨cache, hrun, next, hst⟩

end VersionBitsWitness

end ThresholdConditionChecker

end Catoshi
