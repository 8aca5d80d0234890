/-
The stack of coin caches (`coins.h`, `coins.cpp`). A cache remembers what it read from its base,
and a flush hands its dirty entries down. A base that is a cache changes under a read.
-/
import Catoshi.Lib.Overlay
import Catoshi.CoinsDB

namespace Catoshi

/-- What one `CCoinsViewCache` owns. -/
structure CCoinsCacheLayer where
  hashBlock : Uint256
  cacheCoins : CCoinsMap
  cachedCoinsUsage : UInt64

/-- An empty cache that does not know its best block. -/
def CCoinsCacheLayer.fresh : CCoinsCacheLayer := ⟨BaseBlob.null 32, ∅, 0⟩

/-- A view is the database or a cache over a view. -/
inductive CCoinsView where
  | db (store : CCoinsViewDB)
  | cache (layer : CCoinsCacheLayer) (base : CCoinsView)

/-- A cache over a base view. -/
structure CCoinsViewCache where
  layer : CCoinsCacheLayer
  base : CCoinsView

def CCoinsViewCache.toView (view : CCoinsViewCache) : CCoinsView :=
  .cache view.layer view.base

/-- A new cache over `base`. -/
def CCoinsViewCache.ofBase (base : CCoinsView) : CCoinsViewCache := ⟨.fresh, base⟩

namespace CCoinsCacheLayer

variable (layer : CCoinsCacheLayer) (outpoint : COutPoint)

def find : Option CCoinsCacheEntry :=
  layer.cacheCoins.lookup outpoint

def put (entry : CCoinsCacheEntry) : CCoinsCacheLayer :=
  { layer with
    cacheCoins := layer.cacheCoins.insert outpoint entry
    cachedCoinsUsage := layer.cachedCoinsUsage + entry.coin.dynamicMemoryUsage }

/-- Take the memory of a coin about to go off the count. -/
def uncount (coin : Coin) : CCoinsCacheLayer :=
  { layer with cachedCoinsUsage := layer.cachedCoinsUsage - coin.dynamicMemoryUsage }

def erase (layer : CCoinsCacheLayer) (outpoint : COutPoint) : CCoinsCacheLayer :=
  { layer with cacheCoins := layer.cacheCoins.erase outpoint }

/-- The end of `FetchCoin`: remember the answer of the base. A spent coin makes the entry fresh. -/
def fetched : Option Coin → Option CCoinsCacheEntry × CCoinsCacheLayer
  | none => (none, layer)
  | some coin =>
    let entry : CCoinsCacheEntry := ⟨coin, false, coin.isSpent⟩
    (some entry, layer.put outpoint entry)

/-- `AddCoin`.  The memory of the replaced coin is taken off before the call
can throw. -/
def addCoin (coin : Coin) (possibleOverwrite : Bool) : Except Fault Unit × CCoinsCacheLayer :=
  if coin.isSpent then
    (.error (.assertFailed "!coin.IsSpent()"), layer)
  else if coin.out.scriptPubKey.isUnspendable then
    (.ok (), layer)
  else
    match layer.find outpoint with
    | none => (.ok (), layer.put outpoint ⟨coin, true, !possibleOverwrite⟩)
    | some entry =>
      if !possibleOverwrite && !entry.coin.isSpent then
        (.error (.logicError "Adding new coin that replaces non-pruned entry"),
          layer.uncount entry.coin)
      else
        let fresh := !possibleOverwrite && !entry.dirty
        (.ok (), (layer.uncount entry.coin).put outpoint ⟨coin, true, entry.fresh || fresh⟩)

/-- The part of `SpendCoin` after a successful fetch. -/
def spend (entry : CCoinsCacheEntry) : CCoinsCacheLayer :=
  if entry.fresh then (layer.uncount entry.coin).erase outpoint
  else (layer.uncount entry.coin).put outpoint ⟨Coin.empty, true, false⟩

/-- `Uncache` drops an entry without flags. -/
def uncache : CCoinsCacheLayer :=
  match layer.find outpoint with
  | some entry =>
    if entry.dirty || entry.fresh then layer
    else (layer.uncount entry.coin).erase outpoint
  | none => layer

/-- One round of the loop of `BatchWrite`. -/
def batchWriteItem (item : CoinsMapItem) : Except Fault CCoinsCacheLayer :=
  if !item.2.dirty then
    .ok layer
  else
    match layer.find item.1 with
    | none =>
      if item.2.fresh && item.2.coin.isSpent then .ok layer
      else .ok (layer.put item.1 ⟨item.2.coin, true, item.2.fresh⟩)
    | some own =>
      if item.2.fresh && !own.coin.isSpent then
        .error (.logicError "FRESH flag misapplied to cache entry for base transaction with spendable outputs")
      else if own.fresh && item.2.coin.isSpent then
        .ok ((layer.uncount own.coin).erase item.1)
      else
        .ok ((layer.uncount own.coin).put item.1 ⟨item.2.coin, true, own.fresh⟩)

/-- The loop of `BatchWrite`: the layer and the child's entries left when it ends or throws. -/
def batchWriteLoop : CCoinsCacheLayer → List CoinsMapItem →
    Except Fault Unit × CCoinsCacheLayer × List CoinsMapItem
  | layer, [] => (.ok (), layer, [])
  | layer, item :: rest =>
    match layer.batchWriteItem item with
    | .error fault => (.error fault, layer, item :: rest)
    | .ok layer => layer.batchWriteLoop rest

end CCoinsCacheLayer

namespace CCoinsView

/-- `GetCoin`. A cache answers from its entry or fetches one. -/
def getCoin : CCoinsView → COutPoint → Option Coin × CCoinsView
  | .db store, outpoint => (store.getCoin outpoint, .db store)
  | .cache layer base, outpoint =>
    match layer.find outpoint with
    | some entry => (entry.coin.unspent?, .cache layer base)
    | none =>
      let asked := base.getCoin outpoint
      let fetched := layer.fetched outpoint asked.1
      (fetched.1.bind fun entry => entry.coin.unspent?, .cache fetched.2 asked.2)

/-- `GetBestBlock`.  A cache that does not know asks its base and remembers. -/
def getBestBlock : CCoinsView → Uint256 × CCoinsView
  | .db store => (store.getBestBlock, .db store)
  | .cache layer base =>
    if layer.hashBlock.isNull then
      let asked := base.getBestBlock
      (asked.1, .cache { layer with hashBlock := asked.1 } asked.2)
    else
      (layer.hashBlock, .cache layer base)

/-- `BatchWrite`: the view and the child's entries left when it ends or throws. -/
def batchWrite : CCoinsView → List CoinsMapItem → Uint256 →
    Except Fault Unit × CCoinsView × List CoinsMapItem
  | .db store, items, hashBlock =>
    match store.batchWrite items hashBlock with
    | .error fault => (.error fault, .db store, items)
    | .ok store => (.ok (), .db store, [])
  | .cache layer base, items, hashBlock =>
    match layer.batchWriteLoop items with
    | (.error fault, layer, left) => (.error fault, .cache layer base, left)
    | (.ok _, layer, left) =>
      (.ok (), .cache { layer with hashBlock := hashBlock } base, left)

def bottom : CCoinsView → CCoinsViewDB
  | .db store => store
  | .cache _ base => base.bottom

/-- The best block each cache has stored, from the top down. -/
def hashes : CCoinsView → List Uint256
  | .db _ => []
  | .cache layer base => layer.hashBlock :: base.hashes

end CCoinsView

namespace CCoinsViewCache

variable (view : CCoinsViewCache) (outpoint : COutPoint)

def fetchCoin : Option CCoinsCacheEntry × CCoinsViewCache :=
  match view.layer.find outpoint with
  | some entry => (some entry, view)
  | none =>
    let asked := view.base.getCoin outpoint
    let fetched := view.layer.fetched outpoint asked.1
    (fetched.1, ⟨fetched.2, asked.2⟩)

def getCoin : Option Coin × CCoinsViewCache :=
  ((view.fetchCoin outpoint).1.bind fun entry => entry.coin.unspent?, (view.fetchCoin outpoint).2)

def haveCoin : Bool × CCoinsViewCache :=
  ((view.fetchCoin outpoint).1.any fun entry => !entry.coin.isSpent, (view.fetchCoin outpoint).2)

def accessCoin : Coin × CCoinsViewCache :=
  (((view.fetchCoin outpoint).1.map CCoinsCacheEntry.coin).getD Coin.empty,
    (view.fetchCoin outpoint).2)

/-- `AddCoin` as its callers use it: an exception leaves them too. -/
def addCoin (view : CCoinsViewCache) (outpoint : COutPoint) (coin : Coin)
    (possibleOverwrite : Bool) : Except Fault CCoinsViewCache :=
  match view.layer.addCoin outpoint coin possibleOverwrite with
  | (.error fault, _) => .error fault
  | (.ok _, layer) => .ok { view with layer := layer }

/-- `SpendCoin`: the coin moved out, or nothing if it returns false. -/
def spendCoin : Option Coin × CCoinsViewCache :=
  match view.fetchCoin outpoint with
  | (none, view) => (none, view)
  | (some entry, view) =>
    (some entry.coin, { view with layer := view.layer.spend outpoint entry })

def uncache (view : CCoinsViewCache) (outpoint : COutPoint) : CCoinsViewCache :=
  { view with layer := view.layer.uncache outpoint }

def getBestBlock (view : CCoinsViewCache) : Uint256 × CCoinsViewCache :=
  if view.layer.hashBlock.isNull then
    let asked := view.base.getBestBlock
    (asked.1, ⟨{ view.layer with hashBlock := asked.1 }, asked.2⟩)
  else
    (view.layer.hashBlock, view)

def setBestBlock (hashBlock : Uint256) : CCoinsViewCache :=
  { view with layer := { view.layer with hashBlock := hashBlock } }

/-- `Flush`. The best block stays set. -/
def flush : Except Fault Unit × CCoinsViewCache :=
  match view.base.batchWrite view.layer.cacheCoins.entries view.layer.hashBlock with
  | (.error fault, base, left) =>
    (.error fault, ⟨{ view.layer with cacheCoins := left.toAList }, base⟩)
  | (.ok _, base, _) =>
    (.ok (), ⟨{ view.layer with cacheCoins := ∅, cachedCoinsUsage := 0 }, base⟩)

/-- `HaveInputs` over the outpoints, stopping at the first that is missing. -/
def haveCoins (view : CCoinsViewCache) : List COutPoint → Bool × CCoinsViewCache
  | [] => (true, view)
  | outpoint :: rest =>
    match view.haveCoin outpoint with
    | (false, view) => (false, view)
    | (true, view) => view.haveCoins rest

def haveInputs (tx : CTransaction) : Bool × CCoinsViewCache :=
  if tx.isCoinBase then (true, view) else view.haveCoins tx.prevouts

/-- The loop of `AddCoins` from output `i` on. -/
def addCoinsFrom (txid : Uint256) (fCoinbase : Bool) (nHeight : ℕ) (check : Bool) :
    CCoinsViewCache → ℕ → List CTxOut → Except Fault CCoinsViewCache
  | view, _, [] => .ok view
  | view, i, out :: rest =>
    let asked := if check then view.haveCoin ⟨txid, i⟩ else (fCoinbase, view)
    match asked.2.addCoin ⟨txid, i⟩ ⟨out, fCoinbase, nHeight⟩ asked.1 with
    | .error fault => .error fault
    | .ok view => addCoinsFrom txid fCoinbase nHeight check view (i + 1) rest

def addCoins (tx : CTransaction) (nHeight : ℕ) (check : Bool) : Except Fault CCoinsViewCache :=
  addCoinsFrom tx.getHash tx.isCoinBase nHeight check view 0 tx.vout

end CCoinsViewCache

/-- `MAX_BLOCK_WEIGHT / (WITNESS_SCALE_FACTOR * GetSerializeSize(CTxOut()))`. -/
def maxOutputsPerBlock : ℕ := 111111

/-- The loop of `AccessByTxid` with `left` indices to try. -/
def accessByTxidFrom (view : CCoinsViewCache) (txid : Uint256) (n : ℕ) :
    ℕ → Coin × CCoinsViewCache
  | 0 => (Coin.empty, view)
  | left + 1 =>
    match view.accessCoin ⟨txid, n⟩ with
    | (alternate, view) =>
      if alternate.isSpent then accessByTxidFrom view txid (n + 1) left
      else (alternate, view)

def accessByTxid (view : CCoinsViewCache) (txid : Uint256) : Coin × CCoinsViewCache :=
  accessByTxidFrom view txid 0 maxOutputsPerBlock

end Catoshi
