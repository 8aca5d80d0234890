/-
The operations of the memory pool over many entries (`txmempool.cpp`), and the acceptance of a
transaction (`AcceptToMemoryPoolWorker` in `validation.cpp`).
-/
import Catoshi.Connect
import Catoshi.Mempool

namespace Catoshi

open Outcome Table

/-- What `removeForReorg` asks the chain: whether an entry is final and its sequence locks are met,
with new lock points where the old no longer hold, and the coin under an outpoint, an absent one
being spent. -/
structure ReorgView where
  finality : CTxMemPool → CTxMemPoolEntry → Bool × Option LockPoints
  accessCoin : COutPoint → Coin
  nMemPoolHeight : ℤ

/-- An input of a coinbase-spending entry is gone or not mature. -/
def ReorgView.spendsImmature (chain : ReorgView) (pool : CTxMemPool)
    (entry : CTxMemPoolEntry) : Bool :=
  entry.tx.prevouts.any fun prevout =>
    !decide (prevout.hash ∈ pool.mapTx) &&
      ((chain.accessCoin prevout).isSpent ||
        ((chain.accessCoin prevout).fCoinBase &&
          decide (chain.nMemPoolHeight - (chain.accessCoin prevout).nHeight < coinbaseMaturity)))

/-- What `TrimToSize` reads: the memory of the pool, and the first entry by descendant score. -/
structure TrimOrder where
  dynamicMemoryUsage : CTxMemPool → ℕ
  lowestScore : CTxMemPool → Uint256

namespace CTxMemPool

/-- Where `removeRecursive` starts: the given transaction or, if not in the pool, those that spend
its outputs. -/
def spendersOf (pool : CTxMemPool) (origTx : CTransaction) :
    ℕ → List CTxOut → List Uint256 → Except Fault (List Uint256)
  | _, [], txToRemove => .ok txToRemove
  | i, _ :: rest, txToRemove =>
    match pool.mapNextTx.lookup ⟨origTx.getHash, i⟩ with
    | none => pool.spendersOf origTx (i + 1) rest txToRemove
    | some spender =>
      if spender.getHash ∈ pool.mapTx then
        pool.spendersOf origTx (i + 1) rest (txToRemove.insert spender.getHash)
      else
        .error (.assertFailed "nextit != mapTx.end()")

variable (pool : CTxMemPool) (tx : CTransaction) (hash : Uint256)

def removeRecursive (origTx : CTransaction) : Except Fault CTxMemPool := do
  let txToRemove ← (if origTx.getHash ∈ pool.mapTx then
      .ok [origTx.getHash]
    else
      pool.spendersOf origTx 0 origTx.vout [])
  let setAllRemoves ← pool.calculateAllDescendants txToRemove []
  pool.removeStaged setAllRemoves false

/-- The loop of `removeForReorg` over the entries. -/
def reorgLoop (chain : ReorgView) :
    List Uint256 → CTxMemPool → List Uint256 → Except Fault (CTxMemPool × List Uint256)
  | [], pool, txToRemove => .ok (pool, txToRemove)
  | it :: its, pool, txToRemove => do
      let entry ← pool.deref it
      let (final, lp) := chain.finality pool entry
      let txToRemove :=
        if !final || (entry.spendsCoinbase && chain.spendsImmature pool entry) then
          txToRemove.insert it
        else
          txToRemove
      let pool ← (match lp with
        | none => .ok pool
        | some lockPoints => pool.modify it fun entry => .ok { entry with lockPoints })
      reorgLoop chain its pool txToRemove

def removeForReorg (chain : ReorgView) : Except Fault CTxMemPool := do
  let (pool, txToRemove) ← reorgLoop chain pool.mapTx.keys pool []
  let setAllRemoves ← pool.calculateAllDescendants txToRemove []
  pool.removeStaged setAllRemoves false

def clearPrioritisation : CTxMemPool :=
  { pool with mapDeltas := pool.mapDeltas.erase hash }

/-- The loop of `removeConflicts` over the inputs. -/
def removeConflictsAt (prevout : COutPoint) : Except Fault CTxMemPool :=
  match pool.mapNextTx.lookup prevout with
  | none => .ok pool
  | some txConflict =>
    if txConflict.getHash = tx.getHash then .ok pool
    else (pool.clearPrioritisation txConflict.getHash).removeRecursive txConflict

def removeConflicts : Except Fault CTxMemPool :=
  tx.prevouts.foldlM (fun pool prevout => pool.removeConflictsAt tx prevout) pool

/-- The loop of `removeForBlock` over the block. -/
def removeConfirmed : Except Fault CTxMemPool := do
  let pool ← (if tx.getHash ∈ pool.mapTx then pool.removeStaged [tx.getHash] true else .ok pool)
  let pool ← pool.removeConflicts tx
  return pool.clearPrioritisation tx.getHash

def removeForBlock (vtx : List CTransaction) : Except Fault CTxMemPool :=
  vtx.foldlM removeConfirmed pool

def clear : CTxMemPool :=
  { pool with mapLinks := ∅, mapTx := ∅, mapNextTx := ∅, totalTxSize := 0 }

def prioritiseTransaction (nFeeDelta : CAmount) : Except Fault CTxMemPool := do
  let delta := (pool.mapDeltas.lookup hash).getD 0 + nFeeDelta
  let pool := { pool with mapDeltas := pool.mapDeltas.insert hash delta }
  match pool.mapTx.lookup hash with
  | none => return pool
  | some found =>
    let pool := { pool with mapTx := pool.mapTx.insert hash (found.updateFeeDelta delta) }
    let setAncestors ← pool.linkedAncestors (found.updateFeeDelta delta)
    let pool ← pool.modifyAll setAncestors (·.updateDescendantState 0 nFeeDelta 0)
    let setDescendants ← pool.calculateDescendants hash []
    pool.modifyAll (setDescendants.erase hash) (·.updateAncestorState 0 nFeeDelta 0 0)

def expire (time : ℤ) : Except Fault CTxMemPool := do
  let toremove := pool.mapTx.keys.filter fun it =>
    (pool.mapTx.lookup it).any fun entry => decide (entry.nTime < time)
  let stage ← pool.calculateAllDescendants toremove []
  pool.removeStaged stage false

/-- The loop of `TrimToSize`; every pass removes an entry. -/
def trimLoop (order : TrimOrder) (sizelimit : ℕ) : ℕ → CTxMemPool → Except Fault CTxMemPool
  | 0, pool => .ok pool
  | fuel + 1, pool =>
    if !pool.mapTx.keys.isEmpty && decide (sizelimit < order.dynamicMemoryUsage pool) then do
      let stage ← pool.calculateDescendants (order.lowestScore pool) []
      let pool ← pool.removeStaged stage false
      trimLoop order sizelimit fuel pool
    else
      .ok pool

def trimToSize (order : TrimOrder) (sizelimit : ℕ) : Except Fault CTxMemPool :=
  trimLoop order sizelimit pool.mapTx.keys.length pool

def limitMempoolSize (order : TrimOrder) (limit : ℕ) (oldest : ℤ) : Except Fault CTxMemPool := do
  let pool ← pool.expire oldest
  pool.trimToSize order limit

/-- `UpdateForDescendants` over the children of a visited entry: a child with known descendants
brings them in and is not visited. -/
def stageChildren (cachedDescendants : Rows Uint256 (List Uint256)) :
    List Uint256 → List Uint256 × List Uint256 → List Uint256 × List Uint256
  | [], sets => sets
  | child :: rest, (stageEntries, setAllDescendants) =>
    match cachedDescendants.lookup child with
    | some cached => stageChildren cachedDescendants rest
        (stageEntries, cached.foldl (fun all it => all.insert it) setAllDescendants)
    | none => stageChildren cachedDescendants rest
        (if child ∈ setAllDescendants then stageEntries else stageEntries.insert child,
          setAllDescendants)

/-- The outer loop of `UpdateForDescendants`. -/
def descendantLoop (pool : CTxMemPool) (cachedDescendants : Rows Uint256 (List Uint256)) :
    ℕ → List Uint256 → List Uint256 → Except Fault (List Uint256)
  | _, [], setAllDescendants => .ok setAllDescendants
  | 0, _ :: _, _ => .error unfinished
  | fuel + 1, cit :: stageEntries, setAllDescendants => do
      let setChildren ← pool.getMemPoolChildren cit
      let (stageEntries, setAllDescendants) :=
        stageChildren cachedDescendants setChildren (stageEntries, setAllDescendants.insert cit)
      descendantLoop pool cachedDescendants fuel stageEntries setAllDescendants

def updateForDescendants (updateIt : Uint256)
    (cachedDescendants : Rows Uint256 (List Uint256)) (setExclude : List Uint256) :
    Except Fault (CTxMemPool × Rows Uint256 (List Uint256)) := do
  let stageEntries ← pool.getMemPoolChildren updateIt
  let setAllDescendants ←
    pool.descendantLoop cachedDescendants pool.mapTx.keys.length stageEntries []
  let updated ← pool.deref updateIt
  let counted := setAllDescendants.filter fun cit => !decide (cit ∈ setExclude)
  let descendants ← counted.mapM pool.deref
  let pool ← pool.modifyAll counted fun descendant =>
    descendant.updateAncestorState updated.nTxSize updated.getModifiedFee 1 updated.sigOpCost
  let pool ← pool.modify updateIt fun entry =>
    entry.updateDescendantState (descendants.map (·.nTxSize)).sum
      (descendants.map CTxMemPoolEntry.getModifiedFee).sum counted.length
  -- the cache gets a row only when there is something to put into it
  return (pool, if counted.isEmpty then cachedDescendants
    else cachedDescendants.insert updateIt (counted ∪ (cachedDescendants.lookup updateIt).getD []))

/-- The pool transactions that spend the given one, by `mapNextTx`. -/
def nextTxOf : List Uint256 :=
  (pool.mapNextTx.entries.filter fun row => decide (row.1.hash = hash)).map fun row =>
    row.2.getHash

/-- `UpdateTransactionsFromBlock` over the children of a transaction. -/
def linkChildren (it : Uint256) (setAlreadyIncluded : List Uint256) :
    List Uint256 → List Uint256 → CTxMemPool → Except Fault CTxMemPool
  | [], _, pool => .ok pool
  | child :: rest, setChildren, pool =>
    if child ∉ pool.mapTx then .error (.assertFailed "childIter != mapTx.end()")
    else if child ∈ setChildren ∨ child ∈ setAlreadyIncluded then
      linkChildren it setAlreadyIncluded rest (setChildren.insert child) pool
    else
      linkChildren it setAlreadyIncluded rest (setChildren.insert child)
        ((pool.updateChild it child true).updateParent child it true)

/-- One pass of `UpdateTransactionsFromBlock`. -/
def updateTransactionFromBlock (setAlreadyIncluded : List Uint256)
    (state : CTxMemPool × Rows Uint256 (List Uint256)) (hash : Uint256) :
    Except Fault (CTxMemPool × Rows Uint256 (List Uint256)) :=
  if hash ∈ state.1.mapTx then do
    let pool ← linkChildren hash setAlreadyIncluded (state.1.nextTxOf hash) [] state.1
    pool.updateForDescendants hash state.2 setAlreadyIncluded
  else
    .ok state

def updateTransactionsFromBlock (vHashesToUpdate : List Uint256) : Except Fault CTxMemPool := do
  let (pool, _) ← vHashesToUpdate.reverse.foldlM
    (updateTransactionFromBlock vHashesToUpdate) (pool, ∅)
  return pool

end CTxMemPool

def rejectDuplicate : ℕ := 0x12

def rejectNonstandard : ℕ := 0x40

def rejectInsufficientFee : ℕ := 0x42

def rejectHighFee : ℕ := 0x100

def maxStandardTxSigopsCost : ℕ := maxBlockSigopsCost / 5

def maxBip125RbfSequence : UInt32 := 0xfffffffd

def mempoolHeight : ℕ := 0x7FFFFFFF

def maxDescendantsToVisit : ℤ := 100

/-- `state.DoS(level, false, code, reason)`. -/
def refusal (level code : ℕ) (reason : String) : Reject := ⟨level, code, reason, false⟩

/-- `CFeeRate`: fee per 1000 bytes, rounded towards zero. -/
def feeRate (nFeePaid : CAmount) (nSize : ℤ) : ℤ :=
  if 0 < nSize then (nFeePaid * 1000).tdiv nSize else 0

def getFee (nSatoshisPerK nSize : ℤ) : CAmount :=
  let nFee := (nSatoshisPerK * nSize).tdiv 1000
  if nFee = 0 ∧ nSize ≠ 0 then
    if 0 < nSatoshisPerK then 1 else if nSatoshisPerK < 0 then -1 else 0
  else
    nFee

/-- What `AcceptToMemoryPoolWorker` reads besides pool and transaction: the coins of the tip, the
checks not modelled, and the policy. -/
structure AcceptContext where
  checks : OpaqueChecks
  coins : COutPoint → Option Coin
  haveCoinInCache : COutPoint → Bool
  nSpendHeight : ℕ
  prematureWitness : CTransaction → Bool
  fRequireStandard : Bool
  nonStandard : CTransaction → Option String
  checkFinalTx : CTransaction → Bool
  checkSequenceLocks : CTxMemPool → CTransaction → Option LockPoints
  areInputsStandard : CTransaction → List Coin → Bool
  isWitnessStandard : CTransaction → List Coin → Bool
  sigOpCost : CTransaction → List Coin → ℕ
  witnessHash : CTransaction → Uint256
  txSize : CTransaction → ℕ → ℤ
  txSize_pos : ∀ tx sigOps, 0 < txSize tx sigOps
  minFee : CTxMemPool → ℤ
  minRelayTxFee : ℤ
  incrementalRelayFee : ℤ
  limits : AncestorLimits
  fEnableReplacement : Bool
  checkInputs : CTransaction → List Coin → Option Reject
  checkInputsForBlock : CTransaction → List Coin → Option Reject
  fAddressIndex : Bool
  fSpentIndex : Bool
  trimOrder : TrimOrder
  maxMempool : ℕ
  expiryTime : ℤ

/-- The arguments besides the transaction. -/
structure AcceptArgs where
  nAcceptTime : ℤ
  bypassLimits : Bool
  nAbsurdFee : CAmount

/-- Why a transaction is not let in: the state, or an unknown input. -/
inductive AcceptRefusal where
  | rejected (reject : Reject)
  | missingInputs
deriving DecidableEq

inductive AcceptVerdict where
  | accepted
  | refused (refusal : AcceptRefusal)
deriving DecidableEq

/-- How the checks end without letting it in. -/
inductive AcceptFailure where
  | refused (refusal : AcceptRefusal)
  | fault (fault : Fault)
deriving DecidableEq

def rejecting (reject : Reject) : AcceptFailure := .refused (.rejected reject)

def CTxMemPool.getCoin (pool : CTxMemPool) (base : COutPoint → Option Coin)
    (outpoint : COutPoint) : Option Coin :=
  match pool.mapTx.lookup outpoint.hash with
  | some entry => (entry.tx.vout[outpoint.n]?).map fun out => ⟨out, false, mempoolHeight⟩
  | none => base outpoint

/-- The `CCoinsView` that holds nothing. -/
def dummyView : CCoinsView := .db ⟨∅, none, none, 0, fun _ => 0⟩

namespace AcceptContext

variable (ctx : AcceptContext) (args : AcceptArgs) (pool : CTxMemPool) (entry : CTxMemPoolEntry)

section

variable (tx : CTransaction)

def checkAlone : Except AcceptFailure Unit := do
  lift rejecting (checkTransaction ctx.checks tx true)
  require (!tx.isCoinBase) (rejecting (dos 100 "coinbase"))
  require (!ctx.prematureWitness tx) (rejecting ⟨0, rejectNonstandard, "no-witness-yet", true⟩)
  (match ctx.nonStandard tx with
    | some reason =>
      require (!ctx.fRequireStandard) (rejecting (refusal 0 rejectNonstandard reason))
    | none => .ok ())
  require (ctx.checkFinalTx tx) (rejecting (refusal 0 rejectNonstandard "non-final"))

def findConflicts (ctx : AcceptContext) (pool : CTxMemPool) :
    List COutPoint → List Uint256 → Except AcceptFailure (List Uint256)
  | [], setConflicts => .ok setConflicts
  | prevout :: rest, setConflicts =>
    match pool.mapNextTx.lookup prevout with
    | none => ctx.findConflicts pool rest setConflicts
    | some conflicting =>
      if conflicting.getHash ∈ setConflicts then
        ctx.findConflicts pool rest setConflicts
      else if ctx.fEnableReplacement &&
          conflicting.vin.any (fun txin => decide (txin.nSequence ≤ maxBip125RbfSequence))
      then ctx.findConflicts pool rest (setConflicts.insert conflicting.getHash)
      else
        .error (rejecting (refusal 0 rejectDuplicate "txn-mempool-conflict"))

/-- The loop that brings the coins spent into the view. -/
def loadInputs (ctx : AcceptContext) (pool : CTxMemPool) (tx : CTransaction) :
    List COutPoint → CCoinsCacheLayer → Except AcceptFailure CCoinsCacheLayer
  | [], layer => .ok layer
  | prevout :: rest, layer =>
    let fetched := match layer.find prevout with
      | some entry => (some entry, layer)
      | none => layer.fetched prevout (pool.getCoin ctx.coins prevout)
    if fetched.1.any (fun entry => !entry.coin.isSpent) then
      ctx.loadInputs pool tx rest fetched.2
    else if (List.range tx.vout.length).any (fun out => ctx.haveCoinInCache ⟨tx.getHash, out⟩) then
      .error (rejecting (refusal 0 rejectDuplicate "txn-already-known"))
    else
      .error (.refused .missingInputs)

/-- A failure of `CheckTxInputs` as one of the call. -/
def ofConnectFailure : ConnectFailure → AcceptFailure
  | .invalid reject => rejecting reject
  | .fault fault => .fault fault

/-- The entry, with the checks of scripts and fees. -/
def makeEntry (view : CCoinsViewCache) : Except AcceptFailure CTxMemPoolEntry := do
  let lp ← (match ctx.checkSequenceLocks pool tx with
    | some lp => .ok lp
    | none => .error (rejecting (refusal 0 rejectNonstandard "non-BIP68-final")))
  let (nFees, view) ← lift ofConnectFailure (checkTxInputs tx view ctx.nSpendHeight)
  let coins := (view.accessCoins tx.prevouts).1
  require (!ctx.fRequireStandard || ctx.areInputsStandard tx coins)
    (rejecting (refusal 0 rejectNonstandard "bad-txns-nonstandard-inputs"))
  require (!ctx.fRequireStandard || ctx.isWitnessStandard tx coins)
    (rejecting ⟨0, rejectNonstandard, "bad-witness-nonstandard", true⟩)
  let nSigOpsCost := ctx.sigOpCost tx coins
  let nModifiedFees := nFees + (pool.mapDeltas.lookup tx.getHash).getD 0
  let data : EntryData :=
    { tx
      witnessHash := ctx.witnessHash tx
      nFee := nFees
      nTxSize := ctx.txSize tx nSigOpsCost
      nTxSize_pos := ctx.txSize_pos tx nSigOpsCost
      nTime := args.nAcceptTime
      spendsCoinbase := coins.any (·.fCoinBase)
      sigOpCost := nSigOpsCost }
  let nSize := data.nTxSize % 2 ^ 32
  require (decide (nSigOpsCost ≤ maxStandardTxSigopsCost))
    (rejecting (refusal 0 rejectNonstandard "bad-txns-too-many-sigops"))
  require (args.bypassLimits || !decide (0 < getFee (ctx.minFee pool) nSize) ||
      decide (getFee (ctx.minFee pool) nSize ≤ nModifiedFees))
    (rejecting (refusal 0 rejectInsufficientFee "mempool min fee not met"))
  require (args.bypassLimits || decide (getFee ctx.minRelayTxFee nSize ≤ nModifiedFees))
    (rejecting (refusal 0 rejectInsufficientFee "min relay fee not met"))
  require (decide (args.nAbsurdFee = 0) || decide (nFees ≤ args.nAbsurdFee))
    (rejecting (refusal 0 rejectHighFee "absurdly-high-fee"))
  return CTxMemPoolEntry.ofData data lp

/-- The fee with what `PrioritiseTransaction` added. -/
def modifiedFees : CAmount :=
  entry.nFee + (pool.mapDeltas.lookup entry.getHash).getD 0

/-- `CalculateMemPoolAncestors` with the node's limits, and the check that no ancestor is a
conflict. -/
def findAncestors (setConflicts : List Uint256) : Except AcceptFailure (List Uint256) := do
  let calculated ← lift .fault (pool.calculateMemPoolAncestors entry ctx.limits true)
  let setAncestors ← lift
    (fun _ => rejecting (refusal 0 rejectNonstandard "too-long-mempool-chain")) calculated
  require (!setAncestors.any fun ancestor => decide (ancestor ∈ setConflicts))
    (rejecting (dos 10 "bad-txns-spends-conflicting-tx"))
  return setAncestors

structure Conflicts where
  setIterConflicting : List Uint256
  setConflictsParents : List Uint256
  nConflictingCount : ℤ

def weighConflicts (pool : CTxMemPool) (newFeeRate : ℤ) :
    List Uint256 → Conflicts → Except AcceptFailure Conflicts
  | [], conflicts => .ok conflicts
  | hashConflicting :: rest, conflicts =>
    match pool.mapTx.lookup hashConflicting with
    | none => weighConflicts pool newFeeRate rest conflicts
    | some mi =>
      if newFeeRate ≤ feeRate mi.getModifiedFee mi.nTxSize then
        .error (rejecting (refusal 0 rejectInsufficientFee "insufficient fee"))
      else
        weighConflicts pool newFeeRate rest
          { setIterConflicting := conflicts.setIterConflicting.insert hashConflicting
            setConflictsParents := mi.tx.prevouts.map COutPoint.hash ∪ conflicts.setConflictsParents
            nConflictingCount := conflicts.nConflictingCount + mi.nCountWithDescendants }

/-- The rules for a replacement, giving the entries to evict. -/
def checkReplacement (setConflicts : List Uint256) : Except AcceptFailure (List Uint256) := do
  let nSize := entry.nTxSize % 2 ^ 32
  let nModifiedFees := modifiedFees pool entry
  let conflicts ← weighConflicts pool (feeRate nModifiedFees nSize) setConflicts ⟨[], [], 0⟩
  require (decide (conflicts.nConflictingCount ≤ maxDescendantsToVisit))
    (rejecting (refusal 0 rejectNonstandard "too many potential replacements"))
  let allConflicting ← lift .fault (pool.calculateAllDescendants conflicts.setIterConflicting [])
  let evicted ← lift .fault (allConflicting.mapM pool.deref)
  let nConflictingFees := (evicted.map CTxMemPoolEntry.getModifiedFee).sum
  require (entry.tx.prevouts.all fun prevout =>
      decide (prevout.hash ∈ conflicts.setConflictsParents) || !decide (prevout.hash ∈ pool.mapTx))
    (rejecting (refusal 0 rejectNonstandard "replacement-adds-unconfirmed"))
  require (decide (nConflictingFees ≤ nModifiedFees))
    (rejecting (refusal 0 rejectInsufficientFee "insufficient fee"))
  require (decide (getFee ctx.incrementalRelayFee nSize ≤ nModifiedFees - nConflictingFees))
    (rejecting (refusal 0 rejectInsufficientFee "insufficient fee"))
  return allConflicting

/-- `CheckInputsFromMempoolAndCache`: the view agrees with the pool and the coins of the tip. -/
def checkView (ctx : AcceptContext) (pool : CTxMemPool) (view : COutPoint → Coin) :
    List COutPoint → Except AcceptFailure Unit
  | [] => .ok ()
  | prevout :: rest => do
      (match pool.mapTx.lookup prevout.hash with
        | some txFrom =>
          require (decide (txFrom.tx.vout[prevout.n]? = some (view prevout).out))
            (.fault (.assertFailed "txFrom->vout[txin.prevout.n] == coin.out"))
        | none =>
          require (decide ((ctx.coins prevout).map Coin.out = some (view prevout).out))
            (.fault (.assertFailed "coinFromDisk.out == coin.out")))
      ctx.checkView pool view rest

/-- The script checks, with the flags of the policy and of the tip. -/
def checkScripts (view : CCoinsViewCache) : Except AcceptFailure Unit := do
  let coins := (view.accessCoins tx.prevouts).1
  (match ctx.checkInputs tx coins with
    | some reject => .error (rejecting reject)
    | none => .ok ())
  ctx.checkView pool (fun prevout => (view.accessCoin prevout).1) tx.prevouts
  (match ctx.checkInputsForBlock tx coins with
    | some reject => .error (rejecting reject)
    | none => .ok ())

/-- What the checks hand on when they all passed. -/
structure Admission where
  entry : CTxMemPoolEntry
  setConflicts : List Uint256
  setAncestors : List Uint256
  allConflicting : List Uint256
  view : COutPoint → CTxOut

/-- `AcceptToMemoryPoolWorker` before it changes the pool. -/
def examine : Except AcceptFailure Admission := do
  ctx.checkAlone tx
  require (!decide (tx.getHash ∈ pool.mapTx))
    (rejecting (refusal 0 rejectDuplicate "txn-already-in-mempool"))
  let setConflicts ← ctx.findConflicts pool tx.prevouts []
  let layer ← ctx.loadInputs pool tx tx.prevouts .fresh
  let view : CCoinsViewCache := ⟨layer, dummyView⟩
  let entry ← ctx.makeEntry args pool tx view
  let setAncestors ← ctx.findAncestors pool entry setConflicts
  let allConflicting ← (if setConflicts.isEmpty then .ok []
    else ctx.checkReplacement pool entry setConflicts)
  ctx.checkScripts pool tx view
  return ⟨entry, setConflicts, setAncestors, allConflicting,
    fun prevout => (view.accessCoin prevout).1.out⟩

/-- The rows of the address and spent maps for the entry. -/
def indexEntry (admission : Admission) (pool : CTxMemPool) : CTxMemPool :=
  let data := admission.entry.toEntryData
  let pool := if ctx.fAddressIndex then pool.addAddressIndex data admission.view else pool
  if ctx.fSpentIndex then pool.addSpentIndex data admission.view else pool

/-- `AcceptToMemoryPoolWorker` from the first change of the pool to the index maps. -/
def storeInMemory (admission : Admission) : Except Fault CTxMemPool := do
  let pool ← pool.removeStaged admission.allConflicting false
  let pool ← pool.addUnchecked admission.entry admission.setAncestors
  return ctx.indexEntry admission pool

def acceptToMemoryPoolWorker : Except Fault (CTxMemPool × AcceptVerdict) :=
  match ctx.examine args pool tx with
  | .error (.fault fault) => .error fault
  | .error (.refused refusal) => .ok (pool, .refused refusal)
  | .ok admission => do
      let pool ← ctx.storeInMemory pool admission
      let pool ← (if args.bypassLimits then .ok pool
        else pool.limitMempoolSize ctx.trimOrder ctx.maxMempool ctx.expiryTime)
      return (pool, if args.bypassLimits || decide (tx.getHash ∈ pool.mapTx) then .accepted
        else .refused (.rejected (refusal 0 rejectInsufficientFee "mempool full")))

end

end AcceptContext

end Catoshi
