/-
The memory pool (`txmempool.h`, `txmempool.cpp`): entries with the totals of their packages, their
links, the maps beside them, and how a transaction is added and removed. An iterator is the hash of
its transaction.
-/
import Catoshi.Lib.Reach
import Catoshi.Lib.Table
import Catoshi.Index

namespace Catoshi

open Outcome Table

/-- The conversion of a 64-bit integer to `int`. -/
def toInt32 (value : ℤ) : ℤ := value.bmod (2 ^ 32)

structure LockPoints where
  height : ℤ
  time : ℤ
  maxInputBlock : Option Uint256
deriving DecidableEq, Repr

/-- What a pool entry is built from. `nTxSize` is what `GetTxSize` returns; weights, and so sizes,
are positive. -/
structure EntryData where
  tx : CTransaction
  witnessHash : Uint256
  nFee : CAmount
  nTxSize : ℤ
  nTxSize_pos : 0 < nTxSize
  nTime : ℤ
  spendsCoinbase : Bool
  sigOpCost : ℤ
deriving DecidableEq

/-- A transaction of the pool. The 64-bit counters are integers, taken to stay in range. -/
structure CTxMemPoolEntry extends EntryData where
  feeDelta : ℤ
  lockPoints : LockPoints
  nCountWithDescendants : ℤ
  nSizeWithDescendants : ℤ
  nModFeesWithDescendants : CAmount
  nCountWithAncestors : ℤ
  nSizeWithAncestors : ℤ
  nModFeesWithAncestors : CAmount
  nSigOpCostWithAncestors : ℤ
  vTxHashesIdx : ℕ
deriving DecidableEq

namespace CTxMemPoolEntry

def ofData (data : EntryData) (lp : LockPoints) : CTxMemPoolEntry where
  toEntryData := data
  feeDelta := 0
  lockPoints := lp
  nCountWithDescendants := 1
  nSizeWithDescendants := data.nTxSize
  nModFeesWithDescendants := data.nFee
  nCountWithAncestors := 1
  nSizeWithAncestors := data.nTxSize
  nModFeesWithAncestors := data.nFee
  nSigOpCostWithAncestors := data.sigOpCost
  vTxHashesIdx := 0

def getHash (entry : CTxMemPoolEntry) : Uint256 := entry.tx.getHash

section

variable (entry : CTxMemPoolEntry)

def getModifiedFee : CAmount := entry.nFee + entry.feeDelta

def updateFeeDelta (newFeeDelta : ℤ) : CTxMemPoolEntry :=
  { entry with
    nModFeesWithDescendants := entry.nModFeesWithDescendants + (newFeeDelta - entry.feeDelta)
    nModFeesWithAncestors := entry.nModFeesWithAncestors + (newFeeDelta - entry.feeDelta)
    feeDelta := newFeeDelta }

def updateDescendantState (modifySize : ℤ) (modifyFee : CAmount)
    (modifyCount : ℤ) : Except Fault CTxMemPoolEntry := do
  require (decide (0 < entry.nSizeWithDescendants + modifySize))
    (.assertFailed "int64_t(nSizeWithDescendants) > 0")
  require (decide (0 < entry.nCountWithDescendants + modifyCount))
    (.assertFailed "int64_t(nCountWithDescendants) > 0")
  return { entry with
    nSizeWithDescendants := entry.nSizeWithDescendants + modifySize
    nModFeesWithDescendants := entry.nModFeesWithDescendants + modifyFee
    nCountWithDescendants := entry.nCountWithDescendants + modifyCount }

def updateAncestorState (modifySize : ℤ) (modifyFee : CAmount)
    (modifyCount modifySigOps : ℤ) : Except Fault CTxMemPoolEntry := do
  require (decide (0 < entry.nSizeWithAncestors + modifySize))
    (.assertFailed "int64_t(nSizeWithAncestors) > 0")
  require (decide (0 < entry.nCountWithAncestors + modifyCount))
    (.assertFailed "int64_t(nCountWithAncestors) > 0")
  require (decide (0 ≤ toInt32 (entry.nSigOpCostWithAncestors + modifySigOps)))
    (.assertFailed "int(nSigOpCostWithAncestors) >= 0")
  return { entry with
    nSizeWithAncestors := entry.nSizeWithAncestors + modifySize
    nModFeesWithAncestors := entry.nModFeesWithAncestors + modifyFee
    nCountWithAncestors := entry.nCountWithAncestors + modifyCount
    nSigOpCostWithAncestors := entry.nSigOpCostWithAncestors + modifySigOps }

end

end CTxMemPoolEntry

/-- The parents and children of an entry in the pool, as lists without repetition. -/
structure TxLinks where
  parents : List Uint256
  children : List Uint256
deriving DecidableEq

def TxLinks.empty : TxLinks := ⟨[], []⟩

structure CMempoolAddressDelta where
  time : ℤ
  amount : CAmount
  prevhash : Uint256
  prevout : ℕ
deriving DecidableEq

structure CMempoolAddressDeltaKey where
  type : ℕ
  addressBytes : Uint160
  txhash : Uint256
  index : ℕ
  spending : Bool
deriving DecidableEq

/-- The `CSpentIndexValue` of a spend in no block, without its height -1. -/
structure MempoolSpentValue where
  txid : Uint256
  inputIndex : ℕ
  satoshis : CAmount
  addressType : ℕ
  addressHash : Uint160
deriving DecidableEq

structure CTxMemPool where
  mapTx : Rows Uint256 CTxMemPoolEntry
  mapLinks : Rows Uint256 TxLinks
  mapNextTx : Rows COutPoint CTransaction
  mapDeltas : Rows Uint256 CAmount
  vTxHashes : List (Uint256 × Uint256)
  totalTxSize : ℤ
  mapAddress : Rows CMempoolAddressDeltaKey CMempoolAddressDelta
  mapAddressInserted : Rows Uint256 (List CMempoolAddressDeltaKey)
  mapSpent : Rows CSpentIndexKey MempoolSpentValue
  mapSpentInserted : Rows Uint256 (List CSpentIndexKey)

/-- An iterator that points at no entry was used. -/
def dangling : Fault := .assertFailed "it != mapTx.end()"

/-- A traversal that does not come to its end. -/
def unfinished : Fault := .runtimeError "traversal not finished"

/-- Bounds on a package; `none` is `nNoLimit`, which no sum exceeds. -/
structure AncestorLimits where
  ancestorCount : Option ℤ
  ancestorSize : Option ℤ
  descendantCount : Option ℤ
  descendantSize : Option ℤ
deriving DecidableEq

def AncestorLimits.noLimit : AncestorLimits := ⟨none, none, none, none⟩

/-- The limit, if the value is over it. -/
def exceeded (value : ℤ) (limit : Option ℤ) : Option ℤ :=
  limit.filter fun bound => decide (bound < value)

/-- The `errString` of `CalculateMemPoolAncestors`. -/
inductive AncestorError where
  | tooManyParents (limit : ℤ)
  | descendantSize (hash : Uint256) (limit : ℤ)
  | tooManyDescendants (hash : Uint256) (limit : ℤ)
  | ancestorSize (limit : ℤ)
  | tooManyAncestors (limit : ℤ)
deriving DecidableEq

namespace CTxMemPool

def empty : CTxMemPool where
  mapTx := ∅
  mapLinks := ∅
  mapNextTx := ∅
  mapDeltas := ∅
  vTxHashes := []
  totalTxSize := 0
  mapAddress := ∅
  mapAddressInserted := ∅
  mapSpent := ∅
  mapSpentInserted := ∅

variable (pool : CTxMemPool) (it : Uint256) (entry : CTxMemPoolEntry)

def deref : Except Fault CTxMemPoolEntry :=
  match pool.mapTx.lookup it with
  | none => .error dangling
  | some entry => .ok entry

def modify (change : CTxMemPoolEntry → Except Fault CTxMemPoolEntry) : Except Fault CTxMemPool := do
  let mapTx ← amend dangling it change pool.mapTx
  return { pool with mapTx }

/-- A loop that modifies the entries of a set alike. -/
def modifyAll (its : List Uint256)
    (change : CTxMemPoolEntry → Except Fault CTxMemPoolEntry) : Except Fault CTxMemPool := do
  let mapTx ← amendAll dangling change its pool.mapTx
  return { pool with mapTx }

def getMemPoolParents (entry : Uint256) : Except Fault (List Uint256) :=
  match pool.mapLinks.lookup entry with
  | none => .error (.assertFailed "it != mapLinks.end()")
  | some links => .ok links.parents

def getMemPoolChildren (entry : Uint256) : Except Fault (List Uint256) :=
  match pool.mapLinks.lookup entry with
  | none => .error (.assertFailed "it != mapLinks.end()")
  | some links => .ok links.children

/-- `mapLinks[entry]`, empty where there was nothing. -/
def linksOf (entry : Uint256) : TxLinks :=
  (pool.mapLinks.lookup entry).getD .empty

def updateChild (entry child : Uint256) (add : Bool) : CTxMemPool :=
  let links := pool.linksOf entry
  let children := if add then links.children.insert child else links.children.erase child
  { pool with mapLinks := pool.mapLinks.insert entry { links with children } }

def updateParent (entry parent : Uint256) (add : Bool) : CTxMemPool :=
  let links := pool.linksOf entry
  let parents := if add then links.parents.insert parent else links.parents.erase parent
  { pool with mapLinks := pool.mapLinks.insert entry { links with parents } }

/-- `CalculateMemPoolAncestors` looks for parents in the pool. -/
def searchParents (pool : CTxMemPool) (limitAncestorCount : Option ℤ) :
    List COutPoint → List Uint256 → Except AncestorError (List Uint256)
  | [], parentHashes => .ok parentHashes
  | prevout :: rest, parentHashes =>
    if prevout.hash ∈ pool.mapTx then
      let parentHashes := parentHashes.insert prevout.hash
      match exceeded (parentHashes.length + 1) limitAncestorCount with
      | some limit => .error (.tooManyParents limit)
      | none => searchParents pool limitAncestorCount rest parentHashes
    else
      searchParents pool limitAncestorCount rest parentHashes

/-- `CalculateMemPoolAncestors` goes over the parents of an ancestor. -/
def stageParents (limitAncestorCount : Option ℤ) (setAncestors : List Uint256) :
    List Uint256 → List Uint256 → Except AncestorError (List Uint256)
  | [], parentHashes => .ok parentHashes
  | phash :: rest, parentHashes =>
    let parentHashes :=
      if phash ∈ setAncestors then parentHashes else parentHashes.insert phash
    match exceeded (parentHashes.length + setAncestors.length + 1) limitAncestorCount with
    | some limit => .error (.tooManyAncestors limit)
    | none => stageParents limitAncestorCount setAncestors rest parentHashes

/-- The outer loop of `CalculateMemPoolAncestors`. -/
def ancestorLoop (pool : CTxMemPool) (nTxSize : ℤ) (limits : AncestorLimits) :
    ℕ → List Uint256 → List Uint256 → ℤ → Except Fault (Except AncestorError (List Uint256))
  | _, [], setAncestors, _ => .ok (.ok setAncestors)
  | 0, _ :: _, _, _ => .error unfinished
  | fuel + 1, stageit :: parentHashes, setAncestors, total => do
      let staged ← pool.deref stageit
      let total := total + staged.nTxSize
      match exceeded (staged.nSizeWithDescendants + nTxSize) limits.descendantSize with
      | some limit => return .error (.descendantSize stageit limit)
      | none =>
        match exceeded (staged.nCountWithDescendants + 1) limits.descendantCount with
        | some limit => return .error (.tooManyDescendants stageit limit)
        | none =>
          match exceeded total limits.ancestorSize with
          | some limit => return .error (.ancestorSize limit)
          | none =>
            let parents ← pool.getMemPoolParents stageit
            let setAncestors := setAncestors.insert stageit
            match stageParents limits.ancestorCount setAncestors parents parentHashes with
            | .error refused => return .error refused
            | .ok parentHashes =>
              ancestorLoop pool nTxSize limits fuel parentHashes setAncestors total

def calculateMemPoolAncestors (limits : AncestorLimits) (fSearchForParents : Bool) :
    Except Fault (Except AncestorError (List Uint256)) :=
  if fSearchForParents then
    match pool.searchParents limits.ancestorCount entry.tx.prevouts [] with
    | .error refused => .ok (.error refused)
    | .ok parentHashes =>
      pool.ancestorLoop entry.nTxSize limits pool.mapTx.keys.length parentHashes [] entry.nTxSize
  else do
    let parentHashes ← pool.getMemPoolParents entry.getHash
    pool.ancestorLoop entry.nTxSize limits pool.mapTx.keys.length parentHashes [] entry.nTxSize

/-- `CalculateMemPoolAncestors` without limits, never refused, from the links of an entry. -/
def linkedAncestors : Except Fault (List Uint256) := do
  match ← pool.calculateMemPoolAncestors entry .noLimit false with
  | .ok setAncestors => return setAncestors
  | .error _ => return []

/-- `CalculateDescendants`: an entry and its descendants, added to a set that holds all descendants
of its members. -/
def calculateDescendants (entryit : Uint256)
    (setDescendants : List Uint256) : Except Fault (List Uint256) :=
  Reach.walk pool.getMemPoolChildren unfinished pool.mapTx.keys.length
    (if entryit ∈ setDescendants then [] else [entryit]) setDescendants

/-- `CalculateDescendants` for each member of a set. -/
def calculateAllDescendants (pool : CTxMemPool) :
    List Uint256 → List Uint256 → Except Fault (List Uint256)
  | [], setDescendants => .ok setDescendants
  | it :: its, setDescendants => do
      let setDescendants ← pool.calculateDescendants it setDescendants
      pool.calculateAllDescendants its setDescendants

def updateAncestorsOf (add : Bool) (it : Uint256)
    (setAncestors : List Uint256) : Except Fault CTxMemPool := do
  let parentIters ← pool.getMemPoolParents it
  let pool := parentIters.foldl (fun pool piter => pool.updateChild piter it add) pool
  let entry ← pool.deref it
  let updateCount : ℤ := if add then 1 else -1
  pool.modifyAll setAncestors fun ancestor =>
    ancestor.updateDescendantState (updateCount * entry.nTxSize)
      (updateCount * entry.getModifiedFee) updateCount

def updateEntryForAncestors (setAncestors : List Uint256) : Except Fault CTxMemPool := do
  let ancestors ← setAncestors.mapM pool.deref
  pool.modify it fun entry =>
    entry.updateAncestorState (ancestors.map (·.nTxSize)).sum
      (ancestors.map CTxMemPoolEntry.getModifiedFee).sum setAncestors.length
      (ancestors.map (·.sigOpCost)).sum

/-- `addUnchecked` up to the link with the parents. -/
def insertEntry : CTxMemPool :=
  let newit := entry.getHash
  let mapTx := insertNew newit entry pool.mapTx
  -- the fee delta of an earlier `PrioritiseTransaction`; zero changes nothing
  let mapTx :=
    match pool.mapDeltas.lookup newit with
    | none => mapTx
    | some delta =>
      if delta = 0 then mapTx else Table.modify newit (·.updateFeeDelta delta) mapTx
  let inserted := { pool with
    mapTx
    mapLinks := insertNew newit .empty pool.mapLinks
    mapNextTx := insertAll (entry.tx.prevouts.map fun prevout => (prevout, entry.tx))
      pool.mapNextTx }
  let setParentTransactions := (entry.tx.prevouts.map COutPoint.hash).dedup
  setParentTransactions.foldl
    (fun pool phash => if phash ∈ pool.mapTx then pool.updateParent newit phash true else pool)
    inserted

/-- `addUnchecked` with the set of ancestors given. -/
def addUnchecked (setAncestors : List Uint256) : Except Fault CTxMemPool := do
  let newit := entry.getHash
  let pool ← (pool.insertEntry entry).updateAncestorsOf true newit setAncestors
  let pool ← pool.updateEntryForAncestors newit setAncestors
  return { pool with
    totalTxSize := pool.totalTxSize + entry.nTxSize
    vTxHashes := pool.vTxHashes ++ [(entry.witnessHash, newit)]
    mapTx := Table.modify newit (fun entry => { entry with vTxHashesIdx := pool.vTxHashes.length })
      pool.mapTx }

end CTxMemPool

/-- The address deltas of an input or output with an address. -/
def addressDelta (script : CScript) (txhash : Uint256) (index : ℕ) (spending : Bool)
    (delta : CMempoolAddressDelta) : List (CMempoolAddressDeltaKey × CMempoolAddressDelta) :=
  match script.address with
  | some (type, addressBytes) => [(⟨type, addressBytes, txhash, index, spending⟩, delta)]
  | none => []

namespace EntryData

/-- The address deltas from input `j` on; the view holds the outputs spent. -/
def inputDeltas (data : EntryData) (view : COutPoint → CTxOut) :
    ℕ → List COutPoint → List (CMempoolAddressDeltaKey × CMempoolAddressDelta)
  | _, [] => []
  | j, prevout :: rest =>
    addressDelta (view prevout).scriptPubKey data.tx.getHash j true
        ⟨data.nTime, (view prevout).nValue * -1, prevout.hash, prevout.n⟩ ++
      inputDeltas data view (j + 1) rest

/-- The address deltas from output `k` on. -/
def outputDeltas (data : EntryData) :
    ℕ → List CTxOut → List (CMempoolAddressDeltaKey × CMempoolAddressDelta)
  | _, [] => []
  | k, out :: rest =>
    addressDelta out.scriptPubKey data.tx.getHash k false
        ⟨data.nTime, out.nValue, BaseBlob.null 32, 0⟩ ++
      outputDeltas data (k + 1) rest

def addressDeltas (data : EntryData) (view : COutPoint → CTxOut) :
    List (CMempoolAddressDeltaKey × CMempoolAddressDelta) :=
  data.inputDeltas view 0 data.tx.prevouts ++ data.outputDeltas 0 data.tx.vout

/-- The spent index rows from input `j` on. -/
def spentRows (data : EntryData) (view : COutPoint → CTxOut) :
    ℕ → List COutPoint → List (CSpentIndexKey × MempoolSpentValue)
  | _, [] => []
  | j, prevout :: rest =>
    let address := (view prevout).scriptPubKey.address.getD (0, BaseBlob.null 20)
    (⟨prevout.hash, prevout.n⟩,
        ⟨data.tx.getHash, j, (view prevout).nValue, address.1, address.2⟩) ::
      spentRows data view (j + 1) rest

end EntryData

namespace CTxMemPool

variable (pool : CTxMemPool)

def addAddressIndex (data : EntryData) (view : COutPoint → CTxOut) : CTxMemPool :=
  let inserted := data.addressDeltas view
  { pool with
    mapAddress := insertAll inserted pool.mapAddress
    mapAddressInserted :=
      insertNew data.tx.getHash (inserted.map Prod.fst) pool.mapAddressInserted }

def removeAddressIndex (txhash : Uint256) : CTxMemPool :=
  match pool.mapAddressInserted.lookup txhash with
  | none => pool
  | some keys =>
    { pool with
      mapAddress := eraseAll keys pool.mapAddress
      mapAddressInserted := pool.mapAddressInserted.erase txhash }

def addSpentIndex (data : EntryData) (view : COutPoint → CTxOut) : CTxMemPool :=
  let inserted := data.spentRows view 0 data.tx.prevouts
  { pool with
    mapSpent := insertAll inserted pool.mapSpent
    mapSpentInserted := insertNew data.tx.getHash (inserted.map Prod.fst) pool.mapSpentInserted }

def removeSpentIndex (txhash : Uint256) : CTxMemPool :=
  match pool.mapSpentInserted.lookup txhash with
  | none => pool
  | some keys =>
    { pool with
      mapSpent := eraseAll keys pool.mapSpent
      mapSpentInserted := pool.mapSpentInserted.erase txhash }

/-- `removeUnchecked` on `vTxHashes`: the last pair takes the place of the one that leaves. -/
def dropTxHash (idx : ℕ) (vTxHashes : List (Uint256 × Uint256))
    (mapTx : Rows Uint256 CTxMemPoolEntry) :
    List (Uint256 × Uint256) × Rows Uint256 CTxMemPoolEntry :=
  match vTxHashes.getLast? with
  | none => ([], mapTx)
  | some back =>
    if 1 < vTxHashes.length then
      ((vTxHashes.set idx back).dropLast,
        Table.modify back.2 (fun entry => { entry with vTxHashesIdx := idx }) mapTx)
    else
      ([], mapTx)

def removeUnchecked (it : Uint256) : Except Fault CTxMemPool := do
  let entry ← pool.deref it
  let dropped := dropTxHash entry.vTxHashesIdx pool.vTxHashes pool.mapTx
  let pool := { pool with
    mapNextTx := eraseAll entry.tx.prevouts pool.mapNextTx
    vTxHashes := dropped.1
    totalTxSize := pool.totalTxSize - entry.nTxSize
    mapLinks := pool.mapLinks.erase it
    mapTx := dropped.2.erase it }
  return (pool.removeAddressIndex it).removeSpentIndex it

/-- `UpdateForRemoveFromMempool`: the descendants lose an ancestor. -/
def updateDescendantsForRemoval (removeIt : Uint256) : Except Fault CTxMemPool := do
  let setDescendants ← pool.calculateDescendants removeIt []
  let entry ← pool.deref removeIt
  pool.modifyAll (setDescendants.erase removeIt) fun descendant =>
    descendant.updateAncestorState (-entry.nTxSize) (-entry.getModifiedFee) (-1)
      (toInt32 (-entry.sigOpCost))

/-- The second loop: ancestors lose a descendant, parents a child. -/
def updateAncestorsForRemoval (removeIt : Uint256) : Except Fault CTxMemPool := do
  let entry ← pool.deref removeIt
  let setAncestors ← pool.linkedAncestors entry
  pool.updateAncestorsOf false removeIt setAncestors

def updateChildrenForRemoval (it : Uint256) : Except Fault CTxMemPool := do
  let setMemPoolChildren ← pool.getMemPoolChildren it
  return setMemPoolChildren.foldl (fun pool updateIt => pool.updateParent updateIt it false) pool

def updateForRemoveFromMempool (entriesToRemove : List Uint256)
    (updateDescendants : Bool) : Except Fault CTxMemPool := do
  let pool ← (if updateDescendants then
      entriesToRemove.foldlM updateDescendantsForRemoval pool
    else
      .ok pool)
  let pool ← entriesToRemove.foldlM updateAncestorsForRemoval pool
  entriesToRemove.foldlM updateChildrenForRemoval pool

def removeStaged (stage : List Uint256) (updateDescendants : Bool) : Except Fault CTxMemPool := do
  let pool ← pool.updateForRemoveFromMempool stage updateDescendants
  stage.foldlM removeUnchecked pool

end CTxMemPool

end Catoshi
