/-
Coins and the coin database (`coins.h`, `txdb.cpp`). The first batch of a flush marks the database
as between two tips and the last clears the mark.
-/
import Catoshi.Lib.WriteLog
import Catoshi.Primitives

namespace Catoshi

/-- A call ends without returning: a thrown exception, or an `assert` that aborts. -/
inductive Fault where
  | logicError (what : String)
  | runtimeError (what : String)
  | assertFailed (condition : String)
deriving DecidableEq, Repr

structure Coin where
  out : CTxOut
  fCoinBase : Bool
  nHeight : ℕ
deriving DecidableEq, Repr

/-- The empty constructor, and what `Clear` leaves. -/
def Coin.empty : Coin := ⟨CTxOut.null, false, 0⟩

def Coin.isSpent (coin : Coin) : Bool := coin.out.isNull

/-- The coin a view reports: a spent one is no coin. -/
def Coin.unspent? (coin : Coin) : Option Coin :=
  if coin.isSpent then none else some coin

variable {coin : Coin}

theorem Coin.unspent?_of_spent (hspent : coin.isSpent = true) : coin.unspent? = none := by
  simp [Coin.unspent?, hspent]

theorem Coin.unspent?_of_unspent (hunspent : coin.isSpent = false) : coin.unspent? = some coin := by
  simp [Coin.unspent?, hunspent]

theorem Coin.unspent?_eq_some_iff {found : Coin} :
    coin.unspent? = some found ↔ coin.isSpent = false ∧ coin = found := by
  cases hspent : coin.isSpent <;> simp [Coin.unspent?, hspent]

theorem Coin.unspent?_eq_none_iff : coin.unspent? = none ↔ coin.isSpent = true := by
  cases hspent : coin.isSpent <;> simp [Coin.unspent?, hspent]

/-- `memusage::MallocUsage` with eight-byte pointers. -/
def mallocUsage (alloc : ℕ) : ℕ :=
  if alloc = 0 then 0 else (alloc + 31) / 16 * 16

/-- Only scripts too long for the 28 inline bytes allocate. -/
def Coin.dynamicMemoryUsage (coin : Coin) : UInt64 :=
  if coin.out.scriptPubKey.length ≤ 28 then 0
  else UInt64.ofNat (mallocUsage coin.out.scriptPubKey.length)

/-- A cached coin with its `DIRTY` and `FRESH` bits. -/
structure CCoinsCacheEntry where
  coin : Coin
  dirty : Bool
  fresh : Bool
deriving DecidableEq, Repr

/-- The unordered map of cached coins, in the order a flush visits them. -/
abbrev CCoinsMap := AList fun _ : COutPoint => CCoinsCacheEntry

/-- A cached coin under its outpoint, as an iteration meets it. -/
abbrev CoinsMapItem := (_ : COutPoint) × CCoinsCacheEntry

/-- An operation of a `CDBBatch` on the coin database. -/
inductive CoinsDbOp where
  | eraseBestBlock
  | writeBestBlock (hash : Uint256)
  | eraseHeadBlocks
  | writeHeadBlocks (hashes : List Uint256)
  | eraseCoin (outpoint : COutPoint)
  | writeCoin (outpoint : COutPoint) (coin : Coin)
deriving DecidableEq

/-- The coin database. `batchSize` is `-dbbatchsize`, and `opSize` the bytes an operation adds to
`SizeEstimate`. -/
structure CCoinsViewDB where
  coins : AList fun _ : COutPoint => Coin
  bestBlock : Option Uint256
  headBlocks : Option (List Uint256)
  batchSize : ℕ
  opSize : CoinsDbOp → ℕ

namespace CCoinsViewDB

variable (db : CCoinsViewDB) (outpoint : COutPoint) (item : CoinsMapItem)
  (items : List CoinsMapItem) (hashBlock : Uint256) (batch : List CoinsDbOp)

def getCoin : Option Coin :=
  db.coins.lookup outpoint

def getBestBlock : Uint256 :=
  db.bestBlock.getD (BaseBlob.null 32)

def getHeadBlocks : List Uint256 :=
  db.headBlocks.getD []

/-- The unspent coins the database stands for. -/
def utxo : COutPoint → Option Coin :=
  fun outpoint => (db.coins.lookup outpoint).bind Coin.unspent?

def applyOp : CoinsDbOp → CCoinsViewDB
  | .eraseBestBlock => { db with bestBlock := none }
  | .writeBestBlock hash => { db with bestBlock := some hash }
  | .eraseHeadBlocks => { db with headBlocks := none }
  | .writeHeadBlocks hashes => { db with headBlocks := some hashes }
  | .eraseCoin outpoint => { db with coins := db.coins.erase outpoint }
  | .writeCoin outpoint coin => { db with coins := db.coins.insert outpoint coin }

/-- `WriteBatch`: the operations take effect together. -/
def writeBatch : CCoinsViewDB :=
  batch.foldl applyOp db

def writeBatches (batches : List (List CoinsDbOp)) : CCoinsViewDB :=
  batches.foldl writeBatch db

def sizeEstimate : ℕ :=
  (batch.map db.opSize).sum

/-- What `BatchWrite` queues for one cached coin. -/
def coinOps : List CoinsDbOp :=
  if item.2.dirty then
    if item.2.coin.isSpent then [.eraseCoin item.1]
    else [.writeCoin item.1 item.2.coin]
  else
    []

/-- The loop of `BatchWrite`: cut a batch whenever it is past the limit, and close the last with
the new best block. -/
def batchLoop (db : CCoinsViewDB) (hashBlock : Uint256) :
    List CoinsDbOp → List CoinsMapItem → List (List CoinsDbOp)
  | batch, [] => [batch ++ [.eraseHeadBlocks, .writeBestBlock hashBlock]]
  | batch, item :: rest =>
    let batch := batch ++ coinOps item
    if db.batchSize < db.sizeEstimate batch then
      batch :: db.batchLoop hashBlock [] rest
    else
      db.batchLoop hashBlock batch rest

theorem batchLoop_length_pos (items : List CoinsMapItem) :
    0 < (db.batchLoop hashBlock batch items).length := by
  induction items generalizing batch with
  | nil => simp [batchLoop]
  | cons item rest ih =>
    simp only [batchLoop]
    split
    · simp
    · exact ih _

/-- The tip a flush starts from. Without a best block the database may be in a replay, which must
lead to the same new tip. -/
def oldTip : Except Fault Uint256 :=
  if db.getBestBlock.isNull then
    match db.getHeadBlocks with
    | [newHead, oldHead] =>
      if newHead = hashBlock then .ok oldHead
      else .error (.assertFailed "old_heads[0] == hashBlock")
    | _ => .ok db.getBestBlock
  else
    .ok db.getBestBlock

/-- The batches of one `BatchWrite`, in order. -/
def batchWriteBatches : Except Fault (List (List CoinsDbOp)) :=
  if hashBlock.isNull then
    .error (.assertFailed "!hashBlock.IsNull()")
  else
    match db.oldTip hashBlock with
    | .error fault => .error fault
    | .ok oldTip =>
      .ok (db.batchLoop hashBlock [.eraseBestBlock, .writeHeadBlocks [hashBlock, oldTip]] items)

def batchWrite : Except Fault CCoinsViewDB :=
  match db.batchWriteBatches items hashBlock with
  | .error fault => .error fault
  | .ok batches => .ok (db.writeBatches batches)

/-- The coin writes a list of cached coins asks for. -/
def coinWrites : List (COutPoint × Option Coin) :=
  items.filterMap fun item =>
    if item.2.dirty then some (item.1, item.2.coin.unspent?) else none

theorem coinWrites_cons : coinWrites (item :: items) =
      (if item.2.dirty then [(item.1, item.2.coin.unspent?)] else []) ++ coinWrites items := by
  cases hdirty : item.2.dirty <;> simp [coinWrites, hdirty]

theorem writeBatch_append (first second : List CoinsDbOp) :
    db.writeBatch (first ++ second) = (db.writeBatch first).writeBatch second := by
  simp [writeBatch, List.foldl_append]

theorem utxo_eraseCoin :
    (db.applyOp (.eraseCoin outpoint)).utxo = Function.update db.utxo outpoint none := by
  funext other
  by_cases heq : other = outpoint
  · subst heq
    simp [applyOp, utxo]
  · simp [applyOp, utxo, AList.lookup_erase_ne heq, Function.update_of_ne heq]

theorem utxo_writeCoin (coin : Coin) : (db.applyOp (.writeCoin outpoint coin)).utxo =
      Function.update db.utxo outpoint coin.unspent? := by
  funext other
  by_cases heq : other = outpoint
  · subst heq
    simp [applyOp, utxo]
  · simp [applyOp, utxo, AList.lookup_insert_ne heq, Function.update_of_ne heq]

/-- The operations for a cached coin change the coins as its write does. -/
theorem utxo_writeBatch_coinOps :
    (db.writeBatch (coinOps item)).utxo = WriteLog.apply (coinWrites [item]) db.utxo := by
  cases hdirty : item.2.dirty with
  | false => simp [coinOps, coinWrites, hdirty, writeBatch]
  | true =>
    cases hspent : item.2.coin.isSpent with
    | true =>
      simp [coinOps, coinWrites, hdirty, hspent, writeBatch, utxo_eraseCoin, Coin.unspent?_of_spent]
    | false =>
      simp [coinOps, coinWrites, hdirty, hspent, writeBatch, utxo_writeCoin]

theorem coinWrites_append (first second : List CoinsMapItem) :
    coinWrites (first ++ second) = coinWrites first ++ coinWrites second := by
  simp [coinWrites]

theorem coinWrites_eq_append : coinWrites (item :: items) = coinWrites [item] ++ coinWrites items :=
  coinWrites_append [item] items

/-- Two databases with the same record of their place between tips. -/
def SameHeads (first second : CCoinsViewDB) : Prop :=
  first.bestBlock = second.bestBlock ∧ first.headBlocks = second.headBlocks

theorem sameHeads_writeBatch_coinOps : SameHeads (db.writeBatch (coinOps item)) db := by
  cases hdirty : item.2.dirty <;> cases hspent : item.2.coin.isSpent <;>
    simp [SameHeads, coinOps, hdirty, hspent, writeBatch, applyOp]

/-- The database after the first `k + 1` batches of the loop over `db`. -/
def Interrupted (config : CCoinsViewDB) (hashBlock : Uint256) (batch : List CoinsDbOp)
    (items : List CoinsMapItem) (db : CCoinsViewDB) (k : ℕ) : CCoinsViewDB :=
  db.writeBatches ((config.batchLoop hashBlock batch items).take (k + 1))

/-- A prefix of the batches writes a prefix of the coins; the marks move only with the last batch.
-/
theorem interrupted_spec (config : CCoinsViewDB) (hashBlock : Uint256)
    (items : List CoinsMapItem) (batch : List CoinsDbOp) (db : CCoinsViewDB) (k : ℕ) :
    ∃ written left, items = written ++ left ∧
      (config.Interrupted hashBlock batch items db k).utxo =
        WriteLog.apply (coinWrites written) (db.writeBatch batch).utxo ∧
      (k + 1 < (config.batchLoop hashBlock batch items).length ∧
          SameHeads (config.Interrupted hashBlock batch items db k) (db.writeBatch batch) ∨
        (config.batchLoop hashBlock batch items).length ≤ k + 1 ∧ left = [] ∧
          (config.Interrupted hashBlock batch items db k).bestBlock = some hashBlock ∧
          (config.Interrupted hashBlock batch items db k).headBlocks = none) := by
  induction items generalizing batch db k with
  | nil =>
    refine ⟨[], [], rfl, ?_, .inr ⟨by simp [batchLoop], rfl, ?_, ?_⟩⟩ <;>
      simp [Interrupted, batchLoop, writeBatches, writeBatch_append, coinWrites] <;> rfl
  | cons item rest ih =>
    have hutxo := utxo_writeBatch_coinOps (db.writeBatch batch) item
    have hheads := sameHeads_writeBatch_coinOps (db.writeBatch batch) item
    rw [← writeBatch_append] at hutxo hheads
    by_cases hcut : config.batchSize < config.sizeEstimate (batch ++ coinOps item)
    · have hloop : config.batchLoop hashBlock batch (item :: rest) =
          (batch ++ coinOps item) :: config.batchLoop hashBlock [] rest := by
        simp [batchLoop, hcut]
      have hpos := batchLoop_length_pos config hashBlock [] rest
      cases k with
      | zero =>
        refine ⟨[item], rest, rfl, ?_, .inl ⟨?_, ?_⟩⟩
        · simpa [Interrupted, hloop, writeBatches] using hutxo
        · rw [hloop, List.length_cons]
          omega
        · simpa [Interrupted, hloop, writeBatches] using hheads
      | succ k =>
        obtain ⟨written, left, hsplit, hcoins, hmark⟩ :=
          ih [] (db.writeBatch (batch ++ coinOps item)) k
        have hstep : config.Interrupted hashBlock batch (item :: rest) db (k + 1) =
            config.Interrupted hashBlock [] rest (db.writeBatch (batch ++ coinOps item)) k := by
          simp [Interrupted, hloop, writeBatches]
        rw [hstep, hloop, List.length_cons]
        refine ⟨item :: written, left, by rw [hsplit]; rfl, ?_, ?_⟩
        · rw [coinWrites_eq_append, WriteLog.apply_append, ← hutxo]
          exact hcoins
        · rcases hmark with ⟨hlt, hsame⟩ | ⟨hle, hlast⟩
          · exact .inl ⟨by omega, hsame.1.trans hheads.1, hsame.2.trans hheads.2⟩
          · exact .inr ⟨by omega, hlast⟩
    · have hloop : config.batchLoop hashBlock batch (item :: rest) =
          config.batchLoop hashBlock (batch ++ coinOps item) rest := by
        simp [batchLoop, hcut]
      obtain ⟨written, left, hsplit, hcoins, hmark⟩ := ih (batch ++ coinOps item) db k
      have hstep : config.Interrupted hashBlock batch (item :: rest) db k =
          config.Interrupted hashBlock (batch ++ coinOps item) rest db k := by
        simp [Interrupted, hloop]
      rw [hstep, hloop]
      refine ⟨item :: written, left, by rw [hsplit]; rfl, ?_, ?_⟩
      · rw [coinWrites_eq_append, WriteLog.apply_append, ← hutxo]
        exact hcoins
      · rcases hmark with ⟨hlt, hsame⟩ | ⟨hle, hlast⟩
        · exact .inl ⟨hlt, hsame.1.trans hheads.1, hsame.2.trans hheads.2⟩
        · exact .inr ⟨hle, hlast⟩

/-- A completed flush writes every dirty coin and moves the best block. -/
theorem batchWrite_spec {db written : CCoinsViewDB} {items : List CoinsMapItem}
    {hashBlock : Uint256} (hwrite : db.batchWrite items hashBlock = .ok written) :
    written.utxo = WriteLog.apply (coinWrites items) db.utxo ∧
      written.bestBlock = some hashBlock ∧ written.headBlocks = none := by
  simp only [batchWrite, batchWriteBatches] at hwrite
  split at hwrite
  · cases hwrite
  · next batches hbatches =>
    split_ifs at hbatches
    split at hbatches
    · cases hbatches
    · next oldTip holdTip =>
      cases hbatches
      cases hwrite
      let batch : List CoinsDbOp :=
        [.eraseBestBlock, .writeHeadBlocks [hashBlock, oldTip]]
      let k := (db.batchLoop hashBlock batch items).length
      obtain ⟨done, left, hsplit, hcoins, hmark⟩ := interrupted_spec db hashBlock items batch db k
      have hall : db.Interrupted hashBlock batch items db k =
          db.writeBatches (db.batchLoop hashBlock batch items) := by
        rw [Interrupted, List.take_of_length_le (by omega)]
      rw [hall] at hcoins hmark
      rcases hmark with ⟨hlt, -⟩ | ⟨-, hleft, hbest, hheads⟩
      · omega
      · subst hleft
        rw [List.append_nil] at hsplit
        subst hsplit
        exact ⟨hcoins, hbest, hheads⟩

end CCoinsViewDB

end Catoshi
