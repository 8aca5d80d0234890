/-
Deployments by version bits (`versionbits.cpp`): `GetStateFor` walks back over periods to a cached
state, and forward again, caching what it finds.
-/
import Catoshi.Chain
import Catoshi.Lib.Table

namespace Catoshi

namespace CBlockIndex

def nMedianTimeSpan : ℕ := 11

/-- The median time of the block and the ten before it. -/
def getMedianTimePast (pindex : CBlockIndex) : ℤ :=
  let times := (pindex.ancestors.take nMedianTimeSpan).map fun other => (other.nTime.toNat : ℤ)
  (times.insertionSort (· ≤ ·)).getD (times.length / 2) 0

/-- `GetAncestor` of a signed height. -/
def getAncestorInt (pindex : CBlockIndex) (height : ℤ) : Option CBlockIndex :=
  if height < 0 then none else pindex.getAncestor height.toNat

end CBlockIndex

inductive ThresholdState where
  | defined
  | started
  | lockedIn
  | active
  | failed
deriving DecidableEq, Repr

/-- The state of a period, under the last block before it. -/
abbrev ThresholdConditionCache := Table.Rows (Option CBlockIndex) ThresholdState

def alwaysActive : ℤ := -1

/-- The virtual functions of `AbstractThresholdConditionChecker`. -/
structure ThresholdConditionChecker where
  condition : CBlockIndex → Bool
  beginTime : ℤ
  endTime : ℤ
  period : ℕ
  threshold : ℕ

/-- A null block is followed, or a walk does not end. -/
inductive ThresholdFault where
  | nullBlock
  | unfinished
deriving DecidableEq, Repr

namespace ThresholdConditionChecker

variable (checker : ThresholdConditionChecker)

/-- The last block before the period of the block after `pindexPrev`. -/
def periodParent (pindexPrev : CBlockIndex) : Option CBlockIndex :=
  pindexPrev.getAncestorInt
    ((pindexPrev.nHeight : ℤ) - ((pindexPrev.nHeight + 1) % checker.period : ℕ))

def previousPeriodParent (pindexPrev : CBlockIndex) : Option CBlockIndex :=
  pindexPrev.getAncestorInt ((pindexPrev.nHeight : ℤ) - (checker.period : ℤ))

/-- The blocks left to walk over, with the null block. -/
def remaining : Option CBlockIndex → ℕ
  | none => 1
  | some pindex => pindex.nHeight + 2

/-- Walk back to a block whose state is known. The last pushed block of `vToCompute` comes first. -/
def walkBack : ℕ → Option CBlockIndex → List CBlockIndex → ThresholdConditionCache →
    Except ThresholdFault (ThresholdState × List CBlockIndex × ThresholdConditionCache)
  | 0, _, _, _ => .error .unfinished
  | fuel + 1, pindexPrev, vToCompute, cache =>
    match cache.lookup pindexPrev with
    | some state => .ok (state, vToCompute, cache)
    | none =>
      match pindexPrev with
      | none => .ok (.defined, vToCompute, cache.insert none .defined)
      | some pindex =>
        -- every earlier block is before the start time as well
        if pindex.getMedianTimePast < checker.beginTime then
          .ok (.defined, vToCompute, cache.insert (some pindex) .defined)
        else
          walkBack fuel (checker.previousPeriodParent pindex) (pindex :: vToCompute) cache

/-- Count the blocks of a period that meet the condition. -/
def countLoop : ℕ → Option CBlockIndex → ℕ → Except ThresholdFault ℕ
  | 0, _, count => .ok count
  | _ + 1, none, _ => .error .nullBlock
  | left + 1, some pindexCount, count =>
    countLoop left pindexCount.pprev (if checker.condition pindexCount then count + 1 else count)

/-- The state after the period that `pindexPrev` ends. -/
def stateNext (state : ThresholdState) (pindexPrev : CBlockIndex) :
    Except ThresholdFault ThresholdState :=
  match state with
  | .defined =>
    if checker.endTime ≤ pindexPrev.getMedianTimePast then .ok .failed
    else if checker.beginTime ≤ pindexPrev.getMedianTimePast then .ok .started
    else .ok .defined
  | .started =>
    if checker.endTime ≤ pindexPrev.getMedianTimePast then .ok .failed
    else do
      let count ← checker.countLoop checker.period (some pindexPrev) 0
      if checker.threshold ≤ count then .ok .lockedIn else .ok .started
  | .lockedIn => .ok .active
  | .failed => .ok .failed
  | .active => .ok .active

def walkForward : List CBlockIndex → ThresholdState → ThresholdConditionCache →
    Except ThresholdFault (ThresholdState × ThresholdConditionCache)
  | [], state, cache => .ok (state, cache)
  | pindexPrev :: vToCompute, state, cache => do
      let next ← checker.stateNext state pindexPrev
      walkForward vToCompute next (cache.insert (some pindexPrev) next)

def getStateFor (pindexPrev : Option CBlockIndex) (cache : ThresholdConditionCache) :
    Except ThresholdFault (ThresholdState × ThresholdConditionCache) :=
  if checker.beginTime = alwaysActive then .ok (.active, cache)
  else do
    let start := pindexPrev.bind checker.periodParent
    let (state, vToCompute, cache) ← checker.walkBack (remaining start) start [] cache
    checker.walkForward vToCompute state cache

/-- `GetStateSinceHeightFor`: go back while the period before has the state. -/
def sinceLoop (initialState : ThresholdState) : ℕ → CBlockIndex → ThresholdConditionCache →
    Except ThresholdFault (ℤ × ThresholdConditionCache)
  | 0, _, _ => .error .unfinished
  | fuel + 1, pindexPrev, cache =>
    match checker.previousPeriodParent pindexPrev with
    | none => .ok (pindexPrev.nHeight + 1, cache)
    | some parent => do
        let (state, cache) ← checker.getStateFor (some parent) cache
        if state = initialState then sinceLoop initialState fuel parent cache
        else .ok (pindexPrev.nHeight + 1, cache)

def getStateSinceHeightFor (pindexPrev : Option CBlockIndex) (cache : ThresholdConditionCache) :
    Except ThresholdFault (ℤ × ThresholdConditionCache) :=
  if checker.beginTime = alwaysActive then .ok (0, cache)
  else do
    let (initialState, cache) ← checker.getStateFor pindexPrev cache
    if initialState = .defined then .ok (0, cache)
    else
      match pindexPrev.bind checker.periodParent with
      | none => .error .nullBlock
      | some start => checker.sinceLoop initialState (start.nHeight + 1) start cache

inductive Query where
  | stateFor (pindexPrev : Option CBlockIndex)
  | stateSinceHeightFor (pindexPrev : Option CBlockIndex)

def Query.pindexPrev : Query → Option CBlockIndex
  | stateFor pindexPrev => pindexPrev
  | stateSinceHeightFor pindexPrev => pindexPrev

def query (cache : ThresholdConditionCache) :
    Query → Except ThresholdFault ThresholdConditionCache
  | .stateFor pindexPrev => do
      let (_, cache) ← checker.getStateFor pindexPrev cache
      .ok cache
  | .stateSinceHeightFor pindexPrev => do
      let (_, cache) ← checker.getStateSinceHeightFor pindexPrev cache
      .ok cache

end ThresholdConditionChecker

def versionBitsTopBits : BitVec 32 := 0x20000000#32

def versionBitsTopMask : BitVec 32 := 0xE0000000#32

structure BIP9Deployment where
  bit : ℕ
  nStartTime : ℤ
  nTimeout : ℤ

def BIP9Deployment.mask (deployment : BIP9Deployment) : BitVec 32 := 1#32 <<< deployment.bit

/-- `VersionBitsConditionChecker`, given the versions of the headers. -/
def versionBitsConditionChecker (nVersion : CBlockIndex → BitVec 32)
    (nMinerConfirmationWindow nRuleChangeActivationThreshold : ℕ)
    (deployment : BIP9Deployment) : ThresholdConditionChecker where
  condition pindex := decide (nVersion pindex &&& versionBitsTopMask = versionBitsTopBits) &&
    decide (nVersion pindex &&& deployment.mask ≠ 0)
  beginTime := deployment.nStartTime
  endTime := deployment.nTimeout
  period := nMinerConfirmationWindow
  threshold := nRuleChangeActivationThreshold

end Catoshi
