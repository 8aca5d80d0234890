/-
Disconnecting a block (`validation.cpp`): transactions and their inputs are undone from the last
on.
-/
import Catoshi.Connect

namespace Catoshi

open Outcome

inductive DisconnectResult where
  | ok
  | unclean
  | failed
deriving DecidableEq, Repr

/-- The coin to restore. Without a height it takes height and coinbase flag from another unspent
output of the transaction. -/
def undoMetadata (undo : Coin) (view : CCoinsViewCache) (txid : Uint256) :
    Option Coin × CCoinsViewCache :=
  if undo.nHeight = 0 then
    let alternate := accessByTxid view txid
    if alternate.1.isSpent then
      (none, alternate.2)
    else
      (some ⟨undo.out, alternate.1.fCoinBase, alternate.1.nHeight⟩, alternate.2)
  else
    (some undo, view)

/-- `ApplyTxInUndo`: the result, the restored coin and the view. -/
def applyTxInUndo (undo : Coin) (view : CCoinsViewCache) (out : COutPoint) :
    Except Fault (DisconnectResult × Coin × CCoinsViewCache) :=
  let asked := view.haveCoin out
  let fClean := !asked.1
  match undoMetadata undo asked.2 out.hash with
  | (none, view) => .ok (.failed, undo, view)
  | (some undo, view) =>
    match view.addCoin out undo (!fClean) with
    | .error fault => .error fault
    | .ok view => .ok (if fClean then .ok else .unclean, undo, view)

/-- What the loops of `DisconnectBlock` carry. After `failed` nothing is done. -/
structure DisconnectState where
  view : CCoinsViewCache
  fClean : Bool
  failed : Bool
  index : IndexChanges

variable (options : IndexOptions) (nHeight i : ℕ)

/-- The index changes to take output `k` back. -/
def unindexOutput (hash : Uint256) (k : ℕ) (out : CTxOut) : IndexChanges where
  addressIndex := addressEvent options out.scriptPubKey nHeight i hash k false out.nValue
  addressUnspentIndex := unspentEvent options out.scriptPubKey ⟨hash, k⟩ .null
  spentIndex := []

/-- The outputs are taken back from the last on. -/
def unindexOutputs (options : IndexOptions) (nHeight i : ℕ) (hash : Uint256) :
    ℕ → List CTxOut → IndexChanges
  | _, [] => .empty
  | k, out :: rest =>
    unindexOutputs options nHeight i hash (k + 1) rest ++ unindexOutput options nHeight i hash k out

/-- The changes for input `j`, whose coin was restored as `prevout` at `undoHeight`. -/
def unindexInput (hash : Uint256) (j : ℕ)
    (outpoint : COutPoint) (prevout : CTxOut) (undoHeight : ℕ) : IndexChanges where
  addressIndex := addressEvent options prevout.scriptPubKey nHeight i hash j true
    (prevout.nValue * -1)
  addressUnspentIndex := unspentEvent options prevout.scriptPubKey outpoint
    ⟨prevout.nValue, prevout.scriptPubKey, undoHeight⟩
  spentIndex :=
    if options.fSpentIndex then [(⟨outpoint.hash, outpoint.n⟩, .null)] else []

/-- Whether a coin taken out is the one the output made. -/
def outputMatches (nHeight : ℕ) (isCoinbase : Bool) (out : CTxOut) (coin : Coin) : Bool :=
  decide (out = coin.out) && decide (nHeight = coin.nHeight) && decide (isCoinbase = coin.fCoinBase)

/-- Take the spendable outputs out of the view, noting mismatches. -/
def disconnectOutputs (nHeight : ℕ) (hash : Uint256) (isCoinbase : Bool) :
    ℕ → List CTxOut → DisconnectState → DisconnectState
  | _, [], s => s
  | o, out :: rest, s =>
    if out.scriptPubKey.isUnspendable then
      disconnectOutputs nHeight hash isCoinbase (o + 1) rest s
    else
      let spent := s.view.spendCoin ⟨hash, o⟩
      disconnectOutputs nHeight hash isCoinbase (o + 1) rest
        { s with
          view := spent.2
          fClean := s.fClean && spent.1.any (outputMatches nHeight isCoinbase out) }

/-- Restore the coin of input `j`. -/
def disconnectInput (hash : Uint256) (j : ℕ)
    (out : COutPoint) (undo : Coin) (s : DisconnectState) : Except Fault DisconnectState :=
  if s.failed then
    .ok s
  else
    match applyTxInUndo undo s.view out with
    | .error fault => .error fault
    | .ok (.failed, _, view) => .ok { s with view := view, failed := true }
    | .ok (res, restored, view) =>
      let accessed :=
        if options.fAddressIndex then view.accessCoin out else (Coin.empty, view)
      .ok { s with
        view := accessed.2
        fClean := s.fClean && decide (res ≠ .unclean)
        index := s.index ++ unindexInput options nHeight i hash j out accessed.1.out
          restored.nHeight }

/-- The inputs are restored from the last on. -/
def disconnectInputs (options : IndexOptions) (nHeight i : ℕ) (hash : Uint256) :
    ℕ → List COutPoint → List Coin → DisconnectState → Except Fault DisconnectState
  | j, out :: outs, undo :: undos, s => do
      let s ← disconnectInputs options nHeight i hash (j + 1) outs undos s
      disconnectInput options nHeight i hash j out undo s
  | _, _, _, s => .ok s

/-- A round of the loop of `DisconnectBlock`; the first transaction has no undo data. -/
def disconnectTx (tx : CTransaction)
    (undo : Option CTxUndo) (s : DisconnectState) : Except Fault DisconnectState :=
  if s.failed then
    .ok s
  else
    let s := { s with
      index := s.index ++ unindexOutputs options nHeight i tx.getHash 0 tx.vout }
    let s := disconnectOutputs nHeight tx.getHash tx.isCoinBase 0 tx.vout s
    match undo with
    | none => .ok s
    | some txundo =>
      if txundo.vprevout.length ≠ tx.vin.length then
        .ok { s with failed := true }
      else
        disconnectInputs options nHeight i tx.getHash 0 tx.prevouts txundo.vprevout s

def disconnectTxs (options : IndexOptions) (nHeight : ℕ) :
    ℕ → List CTransaction → List (Option CTxUndo) → DisconnectState → Except Fault DisconnectState
  | i, tx :: txs, undo :: undos, s => do
      let s ← disconnectTxs options nHeight (i + 1) txs undos s
      disconnectTx options nHeight i tx undo s
  | _, _, _, s => .ok s

/-- The index writes at the end of `DisconnectBlock`, without the changes collected for the spent
index. -/
def CBlockTreeDB.writeDisconnected (db : CBlockTreeDB) (options : IndexOptions)
    (index : IndexChanges) : CBlockTreeDB :=
  if options.fAddressIndex then
    (db.eraseAddressIndex index.addressIndex).updateAddressUnspentIndex index.addressUnspentIndex
  else
    db

/-- What `DisconnectBlock` leaves behind. -/
structure Disconnected where
  result : DisconnectResult
  view : CCoinsViewCache
  store : BlockStore

/-- `DisconnectBlock`. The index database is written even if the result will be unclean. -/
def disconnectBlock (store : BlockStore) (block : CBlock)
    (pindex : CBlockIndex) (view : CCoinsViewCache) : Except Fault Disconnected :=
  match store.undo pindex with
  | none => .ok ⟨.failed, view, store⟩
  | some blockUndo =>
    if blockUndo.vtxundo.length + 1 ≠ block.vtx.length then
      .ok ⟨.failed, view, store⟩
    else do
      let s ← disconnectTxs options pindex.nHeight 0 block.vtx
        (none :: blockUndo.vtxundo.map some) ⟨view, true, false, .empty⟩
      if s.failed then
        return ⟨.failed, s.view, store⟩
      else
        return ⟨if s.fClean then .ok else .unclean,
          s.view.setBestBlock pindex.hashPrevBlock,
          { store with
            blocktree := store.blocktree.writeDisconnected options s.index }⟩

end Catoshi
