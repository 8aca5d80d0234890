/-
Connecting a block (`validation.cpp`, `consensus/tx_verify.cpp`): the loop over the transactions,
and what is written once the block is accepted.
-/
import Catoshi.Coins
import Catoshi.Compressor
import Catoshi.Index

namespace Catoshi

open Outcome

/-- How connecting a block ends without connecting it. -/
inductive ConnectFailure where
  | invalid (reject : Reject)
  | fault (fault : Fault)
deriving DecidableEq

/-- Which of the optional indexes the node keeps. -/
structure IndexOptions where
  fAddressIndex : Bool
  fSpentIndex : Bool
  fTimestampIndex : Bool
deriving DecidableEq

/-- The coins a transaction spent, in the order of inputs. -/
structure CTxUndo where
  vprevout : List Coin
deriving DecidableEq

/-- Undo data of all transactions but the coinbase. -/
structure CBlockUndo where
  vtxundo : List CTxUndo
deriving DecidableEq

/-- An amount written and read back with `CTxOutCompressor`, which takes it for an unsigned number.
-/
def rereadAmount (nValue : CAmount) : CAmount :=
  Int.bmod (decompressAmount (compressAmount (nValue % 2 ^ 64).toNat)) (2 ^ 64)

/-- A coin as the undo file gives it back. An empty one comes back with an amount. -/
def Coin.reread (coin : Coin) : Coin :=
  { coin with out := { coin.out with nValue := rereadAmount coin.out.nValue } }

def CTxUndo.reread (txundo : CTxUndo) : CTxUndo := ⟨txundo.vprevout.map Coin.reread⟩

def CBlockUndo.reread (blockundo : CBlockUndo) : CBlockUndo :=
  ⟨blockundo.vtxundo.map CTxUndo.reread⟩

/-- What is on disk beside the coins: the block files, the undo data as it is read back and the
block tree database. -/
structure BlockStore where
  blocks : CBlockIndex → Option CBlock
  undo : CBlockIndex → Option CBlockUndo
  blocktree : CBlockTreeDB

/-- What validation reads besides its arguments. -/
structure ValidationContext where
  params : ConsensusParams
  checks : OpaqueChecks
  options : IndexOptions

/-- The loop of `CheckTxInputs` over the inputs. -/
def checkTxInputsLoop (nSpendHeight : ℕ) : CCoinsViewCache → CAmount → List COutPoint →
    Except ConnectFailure (CAmount × CCoinsViewCache)
  | view, nValueIn, [] => .ok (nValueIn, view)
  | view, nValueIn, prevout :: rest => do
      let accessed := view.accessCoin prevout
      let coin := accessed.1
      require (!coin.isSpent) (.fault (.assertFailed "!coin.IsSpent()"))
      require (!(coin.fCoinBase &&
          decide ((nSpendHeight : ℤ) - coin.nHeight < coinbaseMaturity)))
        (.invalid (dos 0 "bad-txns-premature-spend-of-coinbase"))
      require (moneyRange coin.out.nValue && moneyRange (nValueIn + coin.out.nValue))
        (.invalid (dos 100 "bad-txns-inputvalues-outofrange"))
      checkTxInputsLoop nSpendHeight accessed.2 (nValueIn + coin.out.nValue) rest

variable (ctx : ValidationContext) (tx : CTransaction) (options : IndexOptions) (nHeight i : ℕ)

/-- `CheckTxInputs`: the fee, if all inputs are there. -/
def checkTxInputs (inputs : CCoinsViewCache) (nSpendHeight : ℕ) :
    Except ConnectFailure (CAmount × CCoinsViewCache) := do
  let asked := inputs.haveInputs tx
  require asked.1 (.invalid (dos 100 "bad-txns-inputs-missingorspent"))
  let (nValueIn, view) ← checkTxInputsLoop nSpendHeight asked.2 0 tx.prevouts
  let valueOut ← lift .fault tx.getValueOut
  require (decide (valueOut ≤ nValueIn)) (.invalid (dos 100 "bad-txns-in-belowout"))
  require (moneyRange (nValueIn - valueOut)) (.invalid (dos 100 "bad-txns-fee-outofrange"))
  return (nValueIn - valueOut, view)

/-- `AccessCoin` for each input in turn. -/
def CCoinsViewCache.accessCoins (view : CCoinsViewCache) :
    List COutPoint → List Coin × CCoinsViewCache
  | [] => ([], view)
  | prevout :: rest =>
    let accessed := view.accessCoin prevout
    let others := accessed.2.accessCoins rest
    (accessed.1 :: others.1, others.2)

/-- The loop of `UpdateCoins` that moves coins into the undo data. -/
def CCoinsViewCache.spendCoins (view : CCoinsViewCache) :
    List COutPoint → Except Fault (List Coin × CCoinsViewCache)
  | [] => .ok ([], view)
  | prevout :: rest =>
    match view.spendCoin prevout with
    | (none, _) => .error (.assertFailed "is_spent")
    | (some coin, view) =>
      match view.spendCoins rest with
      | .error fault => .error fault
      | .ok (coins, view) => .ok (coin :: coins, view)

/-- The outpoints spent; a coinbase spends none. -/
def CTransaction.inputs : List COutPoint :=
  if tx.isCoinBase then [] else tx.prevouts

def updateCoins (inputs : CCoinsViewCache) (nHeight : ℕ) :
    Except Fault (CTxUndo × CCoinsViewCache) := do
  let (spent, view) ← inputs.spendCoins tx.inputs
  let view ← view.addCoins tx nHeight false
  return (⟨spent⟩, view)

/-- The address index entry of an output or input with an address. -/
def addressEvent (script : CScript) (nHeight i : ℕ)
    (txhash : Uint256) (index : ℕ) (spending : Bool) (amount : CAmount) :
    List (CAddressIndexKey × CAmount) :=
  match script.address with
  | some (type, hashBytes) =>
    if options.fAddressIndex then
      [(⟨type, hashBytes, nHeight, i, txhash, index, spending⟩, amount)]
    else
      []
  | none => []

/-- The change of the address-unspent index for an outpoint. -/
def unspentEvent (script : CScript) (outpoint : COutPoint)
    (value : CAddressUnspentValue) : List (CAddressUnspentKey × CAddressUnspentValue) :=
  match script.address with
  | some (type, hashBytes) =>
    if options.fAddressIndex then
      [(⟨type, hashBytes, outpoint.hash, outpoint.n⟩, value)]
    else
      []
  | none => []

section

variable (block : CBlock) (txhash : Uint256) (pindex : CBlockIndex)

/-- The index changes of input `j`, spending `coin`. -/
def indexInput (j : ℕ) (prevout : COutPoint) (coin : Coin) : IndexChanges where
  addressIndex := addressEvent options coin.out.scriptPubKey nHeight i txhash j true
    (coin.out.nValue * -1)
  addressUnspentIndex := unspentEvent options coin.out.scriptPubKey prevout .null
  spentIndex :=
    let address := coin.out.scriptPubKey.address.getD (0, BaseBlob.null 20)
    if options.fSpentIndex then
      [(⟨prevout.hash, prevout.n⟩, ⟨txhash, j, nHeight, coin.out.nValue, address.1, address.2⟩)]
    else
      []

def indexInputs (options : IndexOptions) (nHeight i : ℕ) (txhash : Uint256) :
    ℕ → List (COutPoint × Coin) → IndexChanges
  | _, [] => .empty
  | j, (prevout, coin) :: rest =>
    indexInput options nHeight i txhash j prevout coin ++
      indexInputs options nHeight i txhash (j + 1) rest

/-- The index changes of output `k`. -/
def indexOutput (k : ℕ) (out : CTxOut) : IndexChanges where
  addressIndex := addressEvent options out.scriptPubKey nHeight i txhash k false out.nValue
  addressUnspentIndex := unspentEvent options out.scriptPubKey ⟨txhash, k⟩
    ⟨out.nValue, out.scriptPubKey, nHeight⟩
  spentIndex := []

def indexOutputs (options : IndexOptions) (nHeight i : ℕ) (txhash : Uint256) :
    ℕ → List CTxOut → IndexChanges
  | _, [] => .empty
  | k, out :: rest =>
    indexOutput options nHeight i txhash k out ++ indexOutputs options nHeight i txhash (k + 1) rest

/-- All index changes of transaction `i`, spending `coins`. -/
def indexTx (tx : CTransaction) (coins : List Coin) : IndexChanges :=
  indexInputs options nHeight i tx.getHash 0 (tx.inputs.zip coins) ++
    indexOutputs options nHeight i tx.getHash 0 tx.vout

/-- What `ConnectBlock` carries between transactions. -/
structure ConnectState where
  view : CCoinsViewCache
  nFees : CAmount
  nSigOpsCost : ℕ
  vtxundo : List CTxUndo
  index : IndexChanges

/-- The checks of `ConnectBlock` on spent coins: the fees so far, the coins and the view. -/
def checkSpends (tx : CTransaction)
    (s : ConnectState) : Except ConnectFailure (CAmount × List Coin × CCoinsViewCache) :=
  if tx.isCoinBase then
    .ok (s.nFees, [], s.view)
  else do
    let (txfee, view) ← checkTxInputs tx s.view pindex.nHeight
    require (moneyRange (s.nFees + txfee))
      (.invalid (dos 100 "bad-txns-accumulated-fee-outofrange"))
    let accessed := view.accessCoins tx.prevouts
    require (ctx.checks.sequenceLocks tx (accessed.1.map Coin.nHeight) pindex)
      (.invalid (dos 100 "bad-txns-nonfinal"))
    return (s.nFees + txfee, accessed.1, accessed.2)

/-- `CheckInputs` is asked about all but the coinbase. -/
def checkScripts (tx : CTransaction) (coins : List Coin) : Except ConnectFailure Unit :=
  if tx.isCoinBase then
    .ok ()
  else
    match ctx.checks.checkInputs tx coins pindex with
    | some reject => .error (.invalid reject)
    | none => .ok ()

/-- One round of the loop of `ConnectBlock`. -/
def connectTx (i : ℕ) (tx : CTransaction)
    (s : ConnectState) : Except ConnectFailure ConnectState := do
  let (nFees, coins, view) ← checkSpends ctx pindex tx s
  let nSigOpsCost := s.nSigOpsCost + ctx.checks.transactionSigOpCost tx coins pindex
  require (decide (nSigOpsCost ≤ maxBlockSigopsCost)) (.invalid (dos 100 "bad-blk-sigops"))
  checkScripts ctx pindex tx coins
  let (txundo, view) ← lift .fault (updateCoins tx view pindex.nHeight)
  return {
    view := view
    nFees := nFees
    nSigOpsCost := nSigOpsCost
    vtxundo := s.vtxundo ++ if 0 < i then [txundo] else []
    index := s.index ++ indexTx ctx.options pindex.nHeight i tx coins }

def connectTxs (ctx : ValidationContext) (pindex : CBlockIndex) :
    ℕ → List CTransaction → ConnectState → Except ConnectFailure ConnectState
  | _, [], s => .ok s
  | i, tx :: rest, s => do
      let s ← connectTx ctx pindex i tx s
      connectTxs ctx pindex (i + 1) rest s

def CTransaction.outpoints : List COutPoint :=
  (List.range tx.vout.length).map fun o => ⟨tx.getHash, o⟩

/-- Whether an outpoint has a coin, stopping at the first. -/
def CCoinsViewCache.haveAny (view : CCoinsViewCache) :
    List COutPoint → Bool × CCoinsViewCache
  | [] => (false, view)
  | outpoint :: rest =>
    match view.haveCoin outpoint with
    | (true, view) => (true, view)
    | (false, view) => view.haveAny rest

/-- Whether the block may not overwrite unspent outputs. There is no check on top of the block
known to have activated BIP34. -/
def fEnforceBIP30 (params : ConsensusParams) (pprev : CBlockIndex) : Bool :=
  match pprev.getAncestor params.bip34Height with
  | none => true
  | some pindexBIP34height => decide (pindexBIP34height.getBlockHash ≠ params.bip34Hash)

/-- The BIP30 check over all outputs of the block. -/
def checkBIP30 (params : ConsensusParams) (pprev : CBlockIndex) (block : CBlock)
    (view : CCoinsViewCache) : Except ConnectFailure CCoinsViewCache :=
  if fEnforceBIP30 params pprev then do
    let found := view.haveAny (block.vtx.flatMap CTransaction.outpoints)
    require (!found.1) (.invalid (dos 100 "bad-txns-BIP30"))
    return found.2
  else
    .ok view

/-- `WriteUndoDataForBlock`: existing undo data is kept. -/
def BlockStore.writeUndoDataForBlock (store : BlockStore) (blockundo : CBlockUndo)
    (pindex : CBlockIndex) : BlockStore :=
  match store.undo pindex with
  | some _ => store
  | none => { store with undo := Function.update store.undo pindex (some blockundo.reread) }

/-- The time of a block, or one more than the logical timestamp before it. -/
def logicalTimestamp (db : CBlockTreeDB) (pindex : CBlockIndex) : UInt32 :=
  let prevLogicalTS := (db.readTimestampBlockIndex pindex.hashPrevBlock).getD 0
  if pindex.nTime ≤ prevLogicalTS then prevLogicalTS + 1 else pindex.nTime

/-- The index writes at the end of `ConnectBlock`. -/
def CBlockTreeDB.writeConnected (db : CBlockTreeDB) (options : IndexOptions)
    (pindex : CBlockIndex) (index : IndexChanges) : CBlockTreeDB :=
  let db :=
    if options.fAddressIndex then
      (db.writeAddressIndex index.addressIndex).updateAddressUnspentIndex index.addressUnspentIndex
    else
      db
  let db := if options.fSpentIndex then db.updateSpentIndex index.spentIndex else db
  if options.fTimestampIndex then
    let logicalTS := logicalTimestamp db pindex
    (db.writeTimestampIndex ⟨logicalTS, pindex.getBlockHash⟩).writeTimestampBlockIndex
      pindex.getBlockHash logicalTS
  else
    db

/-- `block.vtx[0]->GetValueOut()`. -/
def CBlock.coinbaseValueOut : Except Fault CAmount :=
  match block.vtx with
  | [] => .ok 0
  | coinbase :: _ => coinbase.getValueOut

/-- The part of `ConnectBlock` on the coins. -/
def connectCoins (pprev pindex : CBlockIndex)
    (view : CCoinsViewCache) : Except ConnectFailure ConnectState := do
  let view ← checkBIP30 ctx.params pprev block view
  let s ← connectTxs ctx pindex 0 block.vtx ⟨view, 0, 0, [], .empty⟩
  let valueOut ← lift .fault block.coinbaseValueOut
  require (decide (valueOut ≤ s.nFees + getBlockSubsidy pindex.nHeight ctx.params))
    (.invalid (dos 100 "bad-cb-amount"))
  require (ctx.checks.checkQueue block pindex) (.invalid (dos 100 "block-validation-failed"))
  return s

/-- `ConnectBlock` on an entry that knows its hash. A caller drops the view of a failed call, so a
failure has no state. -/
def connectBlock (store : BlockStore) (block : CBlock)
    (pindex : CBlockIndex) (view : CCoinsViewCache) (fJustCheck : Bool) :
    Except ConnectFailure (CCoinsViewCache × BlockStore) := do
  require (decide (pindex.getBlockHash = block.getHash))
    (.fault (.assertFailed "*pindex->phashBlock == block.GetHash()"))
  lift .invalid (checkBlock ctx.checks block (!fJustCheck) (!fJustCheck))
  let asked := view.getBestBlock
  require (decide (pindex.hashPrevBlock = asked.1))
    (.fault (.assertFailed "hashPrevBlock == view.GetBestBlock()"))
  if block.getHash = ctx.params.hashGenesisBlock then
    return (if fJustCheck then asked.2 else asked.2.setBestBlock pindex.getBlockHash, store)
  else
    match pindex.pprev with
    | none => .error (.fault (.assertFailed "pindex->pprev"))
    | some pprev => do
        let s ← connectCoins ctx block pprev pindex asked.2
        if fJustCheck then
          return (s.view, store)
        else
          let store := store.writeUndoDataForBlock ⟨s.vtxundo⟩ pindex
          return (s.view.setBestBlock pindex.getBlockHash,
            { store with
              blocktree := store.blocktree.writeConnected ctx.options pindex s.index })

end

end Catoshi
