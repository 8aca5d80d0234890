/-
Recovery from an interrupted flush. It leaves every coin as at the old tip or as at the new, and
the writes of `ReplayBlocks`, which lead from one to the other, also finish the mixture.
-/
import Catoshi.CoinsFlush
import Catoshi.ReplaySpec

namespace Catoshi

open Outcome CCoinsViewDB Function
open CCoinsViewDB (coinWrites)

structure CCoinsViewDB.AtTip (db : CCoinsViewDB) (blocks : CBlockIndex → Option CBlock)
    (tip : Option CBlockIndex) : Prop where
  utxo : db.utxo = utxoAtTip blocks tip
  best : db.getBestBlock = tipHash tip
  settled : db.Settled

/-- The database after the first `k + 1` batches of `BatchWrite`. -/
def CCoinsViewDB.interruptedFlush (db : CCoinsViewDB) (items : List CoinsMapItem)
    (hashBlock : Uint256) (k : ℕ) : Except Fault CCoinsViewDB :=
  match db.batchWriteBatches items hashBlock with
  | .error fault => .error fault
  | .ok batches => .ok (db.writeBatches (batches.take (k + 1)))

/-- A new cache over a database. -/
theorem wf_ofBase_db (db : CCoinsViewDB) : (CCoinsViewCache.ofBase (.db db)).Wf :=
  CCoinsViewCache.ofBase_wf trivial

/-- The databases a crash can leave. The first flush takes its entries, in any order, from a cache
that leads from the old tip to the new; later flushes are those of `ReplayBlocks`. -/
inductive Crashed (options : IndexOptions) (store : BlockStore)
    (pindexOld : Option CBlockIndex) (pindexNew : CBlockIndex) : CCoinsViewDB → Prop
  | flush {db crashed : CCoinsViewDB} {items : List CoinsMapItem} {k : ℕ}
      (hclean : db.AtTip store.readBlockFromDisk pindexOld)
      (hkeys : (items.map Sigma.fst).Nodup)
      (hleads : WriteLog.apply (coinWrites items) db.utxo =
        utxoAt store.readBlockFromDisk pindexNew)
      (hcrash : db.interruptedFlush items pindexNew.getBlockHash k = .ok crashed) :
      Crashed options store pindexOld pindexNew crashed
  | replay {db crashed : CCoinsViewDB} {store' : BlockStore} {s : ReplayState}
      {items : List CoinsMapItem} {k : ℕ}
      (hbefore : Crashed options store pindexOld pindexNew db)
      (hheads : db.headBlocks ≠ none) (hfiles : store.SameFiles store')
      (hreplay : replayCache options pindexOld pindexNew ⟨.ofBase (.db db), store'⟩ = .ok s)
      (hperm : items.Perm s.cache.layer.cacheCoins.entries)
      (hcrash : db.interruptedFlush items s.cache.layer.hashBlock k = .ok crashed) :
      Crashed options store pindexOld pindexNew crashed

/-- The two tips are of one tree of connected blocks. -/
structure ReplaySetting (ctx : ValidationContext) (store : BlockStore)
    (mapBlockIndex : Uint256 → Option CBlockIndex) (pindexOld : Option CBlockIndex)
    (pindexNew : CBlockIndex) : Prop where
  newChain : ConnectedChain ctx store pindexNew
  newKnown : mapBlockIndex pindexNew.getBlockHash = some pindexNew
  oldChain : ∀ tip, pindexOld = some tip → ConnectedChain ctx store tip
  oldKnown : ∀ tip, pindexOld = some tip → mapBlockIndex tip.getBlockHash = some tip
  oldHash : ∀ tip, pindexOld = some tip → tip.getBlockHash.isNull = false
  root : ∀ tip, pindexOld = some tip → tip.root = pindexNew.root

/-- The blocks a replay rolls back, from the top down. -/
def rolledBack (pindexOld : Option CBlockIndex) (pindexNew : CBlockIndex) : List CBlockIndex :=
  match pindexOld with
  | none => []
  | some tip =>
    match tip.lastCommonAncestor pindexNew with
    | none => []
    | some fork => tip.above fork

theorem CBlockIndex.nHeight_root (tip : CBlockIndex) : tip.root.nHeight = 0 := by
  induction tip with
  | genesis hash time => rfl
  | child pprev hash time ih => exact ih

theorem utxoAt_root (blocks : CBlockIndex → Option CBlock) (tip : CBlockIndex) :
    utxoAt blocks tip.root = fun _ => none := by
  induction tip with
  | genesis hash time => rfl
  | child pprev hash time ih => exact ih

section Replay

variable {ctx : ValidationContext} {store : BlockStore}
  {mapBlockIndex : Uint256 → Option CBlockIndex} {pindexOld : Option CBlockIndex}
  {pindexNew : CBlockIndex} {s : ReplayState} {db : CCoinsViewDB}

section

variable (hsetting : ReplaySetting ctx store mapBlockIndex pindexOld pindexNew)

include hsetting

section

variable (hwf : s.cache.Wf) (hfiles : store.SameFiles s.store)

include hwf hfiles

/-- Rolling back reaches a block of the new chain, with its coins. -/
theorem rollbackToFork_spec {nForkHeight : ℕ} {s' : ReplayState}
    (hback : rollbackToFork ctx.options pindexNew s pindexOld = .ok (nForkHeight, s')) :
    RolledBack ctx.options store (rolledBack pindexOld pindexNew) s s' ∧
      ∃ fork ∈ pindexNew.ancestors, fork.nHeight = nForkHeight ∧
        WriteLog.apply ((rolledBack pindexOld pindexNew).flatMap (blockUndoWrites store))
          (utxoAtTip store.readBlockFromDisk pindexOld) =
            utxoAt store.readBlockFromDisk fork := by
  cases pindexOld with
  | none =>
    cases hback
    refine ⟨⟨.refl hwf, hfiles, rfl⟩, pindexNew.root, pindexNew.root_spec.1,
      pindexNew.nHeight_root, ?_⟩
    rw [utxoAt_root]
    rfl
  | some tip =>
    obtain ⟨fork, hfork, hold, hnew, -⟩ :=
      CBlockIndex.exists_lastCommonAncestor (hsetting.root tip rfl)
    simp only [rollbackToFork, hfork, bind_ok_iff, pure_ok_iff, Prod.mk.injEq] at hback
    obtain ⟨last, hroll, rfl, rfl⟩ := hback
    have hbranch : rolledBack (some tip) pindexNew = tip.above fork := by
      simp [rolledBack, hfork]
    rw [hbranch]
    exact ⟨rollback_spec (hsetting.oldChain tip rfl) hold hwf hfiles hroll, fork, hnew, rfl,
      apply_rollback (hsetting.oldChain tip rfl) hold⟩

theorem rollbackToFork_ok
    (hdistinct : ∀ pindex ∈ rolledBack pindexOld pindexNew, DistinctInputs store pindex) :
    ∃ nForkHeight s', rollbackToFork ctx.options pindexNew s pindexOld =
      .ok (nForkHeight, s') := by
  cases pindexOld with
  | none => exact ⟨0, s, rfl⟩
  | some tip =>
    obtain ⟨fork, hfork, hold, -⟩ := CBlockIndex.exists_lastCommonAncestor (hsetting.root tip rfl)
    have hbranch : rolledBack (some tip) pindexNew = tip.above fork := by
      simp [rolledBack, hfork]
    rw [hbranch] at hdistinct
    obtain ⟨s', hroll⟩ := rollback_ok (hsetting.oldChain tip rfl) hold hdistinct hwf hfiles
    refine ⟨fork.nHeight, s', ?_⟩
    simp only [rollbackToFork, hfork, bind_ok_iff]
    exact ⟨s', hroll, rfl⟩

omit hwf hfiles in
/-- The new chain rolls forward on any coins. -/
theorem rollforward_new {fork : CBlockIndex} {mid : ReplayState}
    (hfork : fork ∈ pindexNew.ancestors) (hwf : mid.cache.Wf)
    (hfiles : store.SameFiles mid.store) :
    ∃ last, rollforward mid.store pindexNew
        (List.range' (fork.nHeight + 1) (pindexNew.nHeight - fork.nHeight)) mid.cache = .ok last ∧
      mid.cache.Writes ((pindexNew.above fork).reverse.flatMap
        (blockWrites store.readBlockFromDisk)) last := by
  rw [← hfiles.read]
  refine rollforward_spec (CBlockIndex.map_getAncestor_above hfork) (fun pindex hpidx => ?_) hwf
  obtain ⟨hmem, pprev, hprev⟩ := CBlockIndex.of_mem_above hfork (List.mem_reverse.1 hpidx)
  obtain ⟨block, hconnd⟩ := hsetting.newChain pindex hmem pprev hprev
  obtain ⟨vtxundo, hhist⟩ := hconnd.history hprev
  exact ⟨block, by rw [hfiles.read]; exact hhist.read, hhist.checked⟩

/-- What `ReplayBlocks` made of a mixture of two tips' coins before its flush. -/
structure Replayed (options : IndexOptions) (store : BlockStore)
    (pindexOld : Option CBlockIndex) (pindexNew : CBlockIndex) (s s' : ReplayState) :
    Prop where
  utxo : s'.cache.utxo = utxoAt store.readBlockFromDisk pindexNew
  wf : s'.cache.Wf
  base : s.cache.base.Reads s'.cache.base
  hashBlock : s'.cache.layer.hashBlock = pindexNew.getBlockHash
  blocktree : s'.store.blocktree =
    unindexBlocks options store s.store.blocktree (rolledBack pindexOld pindexNew)

theorem replayCache_spec {s' : ReplayState}
    (hreplay : replayCache ctx.options pindexOld pindexNew s = .ok s')
    (hmixed : ∀ o, s.cache.utxo o = utxoAtTip store.readBlockFromDisk pindexOld o ∨
      s.cache.utxo o = utxoAt store.readBlockFromDisk pindexNew o) :
    Replayed ctx.options store pindexOld pindexNew s s' := by
  simp only [replayCache, bind_ok_iff, Prod.exists, pure_ok_iff] at hreplay
  obtain ⟨_, mid, hback, cache, hforward, rfl⟩ := hreplay
  obtain ⟨hrolled, fork, hfork, rfl, hundone⟩ := rollbackToFork_spec hsetting hwf hfiles hback
  obtain ⟨last, hrun, hlog⟩ :=
    rollforward_new hsetting hfork hrolled.changes.wf hrolled.files
  obtain rfl : cache = last := Except.ok.inj (hforward.symm.trans hrun)
  have hall := hrolled.changes.trans hlog.changes
  refine ⟨?_, hall.wf, hall.base, rfl, hrolled.blocktree⟩
  -- the same writes lead from the coins of the old tip to those of the new one
  have hleads := utxoAt_above store.readBlockFromDisk hfork
  rw [← hundone, ← WriteLog.apply_append] at hleads
  rw [← hleads] at hmixed ⊢
  exact hall.utxo.trans (WriteLog.apply_of_mixed hmixed)

theorem replayCache_ok
    (hdistinct : ∀ pindex ∈ rolledBack pindexOld pindexNew, DistinctInputs store pindex) :
    ∃ s', replayCache ctx.options pindexOld pindexNew s = .ok s' := by
  obtain ⟨_, mid, hback⟩ := rollbackToFork_ok hsetting hwf hfiles hdistinct
  obtain ⟨hrolled, fork, hfork, rfl, -⟩ := rollbackToFork_spec hsetting hwf hfiles hback
  obtain ⟨last, hforward, -⟩ :=
    rollforward_new hsetting hfork hrolled.changes.wf hrolled.files
  refine ⟨⟨last.setBestBlock pindexNew.getBlockHash, mid.store⟩, ?_⟩
  simp only [replayCache, bind_ok_iff, Prod.exists, pure_ok_iff]
  exact ⟨fork.nHeight, mid, hback, last, hforward, rfl⟩

end

variable {crashed : CCoinsViewDB} {items : List CoinsMapItem} {k : ℕ}

omit hsetting in
theorem interruptedFlush_spec {hashBlock : Uint256}
    (hcrash : db.interruptedFlush items hashBlock k = .ok crashed) :
    hashBlock.isNull = false ∧ ∃ oldTip, db.oldTip hashBlock = .ok oldTip ∧
      ∃ written left, items = written ++ left ∧
        crashed.utxo = WriteLog.apply (coinWrites written) db.utxo ∧
        (crashed.bestBlock = none ∧ crashed.headBlocks = some [hashBlock, oldTip] ∨
          left = [] ∧ crashed.bestBlock = some hashBlock ∧ crashed.headBlocks = none) := by
  simp only [interruptedFlush, batchWriteBatches] at hcrash
  cases hnull : hashBlock.isNull with
  | true => simp [hnull] at hcrash
  | false =>
    rcases htip : db.oldTip hashBlock with fault | oldTip
    · simp [hnull, htip] at hcrash
    · simp only [hnull, htip, Bool.false_eq_true, if_false, Except.ok.injEq] at hcrash
      subst hcrash
      obtain ⟨written, left, hsplit, hcoins, hmark⟩ :=
        interrupted_spec db hashBlock items
          [.eraseBestBlock, .writeHeadBlocks [hashBlock, oldTip]] db k
      refine ⟨rfl, oldTip, rfl, written, left, hsplit, hcoins, ?_⟩
      rcases hmark with ⟨-, hbest, hheads⟩ | ⟨-, hleft, hbest, hheads⟩
      · exact .inl ⟨hbest, hheads⟩
      · exact .inr ⟨hleft, hbest, hheads⟩

/-- A database between the old tip and the new. -/
structure Halfway (store : BlockStore) (pindexOld : Option CBlockIndex)
    (pindexNew : CBlockIndex) (db : CCoinsViewDB) : Prop where
  mixed : ∀ o, db.utxo o = utxoAtTip store.readBlockFromDisk pindexOld o ∨
    db.utxo o = utxoAt store.readBlockFromDisk pindexNew o
  best : db.bestBlock = none
  heads : db.headBlocks = some [pindexNew.getBlockHash, tipHash pindexOld]
  hash : pindexNew.getBlockHash.isNull = false

structure Arrived (store : BlockStore) (pindexNew : CBlockIndex) (db : CCoinsViewDB) :
    Prop where
  utxo : db.utxo = utxoAt store.readBlockFromDisk pindexNew
  best : db.bestBlock = some pindexNew.getBlockHash
  heads : db.headBlocks = none

omit hsetting in
/-- Some coins of the new tip over a mixture give a mixture. -/
theorem halfway_or_arrived
    (hmixed : ∀ o, db.utxo o = utxoAtTip store.readBlockFromDisk pindexOld o ∨
      db.utxo o = utxoAt store.readBlockFromDisk pindexNew o) (hkeys : (items.map Sigma.fst).Nodup)
    (hleads : WriteLog.apply (coinWrites items) db.utxo = utxoAt store.readBlockFromDisk pindexNew)
    (htip : db.oldTip pindexNew.getBlockHash = .ok (tipHash pindexOld))
    (hcrash : db.interruptedFlush items pindexNew.getBlockHash k = .ok crashed) :
    Halfway store pindexOld pindexNew crashed ∨ Arrived store pindexNew crashed := by
  obtain ⟨hnull, oldTip, ho, written, left, hsplit, hcoins, hmark⟩ := interruptedFlush_spec hcrash
  obtain rfl : oldTip = tipHash pindexOld := Except.ok.inj (ho.symm.trans htip)
  have hlog : coinWrites items = coinWrites written ++ coinWrites left := by
    rw [hsplit, coinWrites_append]
  rcases hmark with ⟨hbest, hheads⟩ | ⟨hleft, hbest, hheads⟩
  · refine .inl ⟨fun o => ?_, hbest, hheads, hnull⟩
    have hnd : (WriteLog.keys (coinWrites written ++ coinWrites left)).Nodup := by
      rw [← hlog]
      exact (keys_coinWrites_sublist items).nodup hkeys
    rcases WriteLog.apply_take_mixed hnd db.utxo o with hold | hnew
    · rw [hcoins, hold]
      exact hmixed o
    · rw [hcoins, hnew, ← hlog, hleads]
      exact .inr rfl
  · refine .inr ⟨?_, hbest, hheads⟩
    rw [hcoins, ← hleads, hlog, hleft]
    simp [coinWrites]

omit hsetting in
/-- The cache of a replay sits on its database. -/
theorem eq_of_reads_db {view : CCoinsView} (hreads : (CCoinsView.db db).Reads view) :
    view = .db db := by
  cases view with
  | db store => exact congrArg CCoinsView.db hreads.bottom
  | cache layer base =>
    have hhashes := hreads.hashes
    cases hhashes

omit hsetting in
theorem oldTip_of_halfway (hhalf : Halfway store pindexOld pindexNew db) :
    db.oldTip pindexNew.getBlockHash = .ok (tipHash pindexOld) := by
  have hnull : db.getBestBlock.isNull = true := by
    rw [getBestBlock, hhalf.best]
    decide
  simp [oldTip, hnull, getHeadBlocks, hhalf.heads]

/-- Every crash leaves a mixture of the coins of both tips or the finished database. -/
theorem Crashed.halfway_or_arrived (hcrashed : Crashed ctx.options store pindexOld pindexNew db) :
    Halfway store pindexOld pindexNew db ∨ Arrived store pindexNew db := by
  induction hcrashed with
  | flush hclean hkeys hleads hcrash =>
    refine Catoshi.halfway_or_arrived (fun o => .inl ?_) hkeys hleads ?_ hcrash
    · rw [hclean.utxo]
    · rw [oldTip_of_settled hclean.settled, hclean.best]
  | @replay db crashed store' s items k _ hheads hfiles hreplay hperm hcrash ih =>
    rcases ih with hhalf | harrived
    · have hdone := replayCache_spec hsetting (wf_ofBase_db db) hfiles hreplay hhalf.mixed
      have hbase : s.cache.base = .db db := eq_of_reads_db hdone.base
      have hall := CCoinsCacheLayer.apply_coinWrites hdone.wf.1 hperm
      rw [hbase] at hall
      have hutxo : s.cache.utxo = Overlay.view s.cache.layer.overlay db.utxo := by
        simp only [CCoinsViewCache.utxo, CCoinsViewCache.toView, CCoinsView.utxo, hbase]
      rw [hdone.hashBlock] at hcrash
      refine Catoshi.halfway_or_arrived hhalf.mixed ?_ ?_ (oldTip_of_halfway hhalf) hcrash
      · exact (hperm.map Sigma.fst).nodup_iff.2 s.cache.layer.cacheCoins.nodupKeys
      · rw [← hdone.utxo, hutxo]
        exact hall
    · exact absurd harrived.heads hheads

omit hsetting in
/-- The flush at the end of a replay. -/
theorem flush_replayed {s : ReplayState} (hhalf : Halfway store pindexOld pindexNew db)
    (hdone : Replayed ctx.options store pindexOld pindexNew ⟨.ofBase (.db db), store⟩ s) :
    ∃ db', s.cache.flush = (.ok (), s.cache.flushed (.db db')) ∧
      Arrived store pindexNew db' := by
  obtain ⟨db', hflush, hcoins, hbest, hsettled⟩ := CCoinsViewCache.flush_db hdone.wf
    (eq_of_reads_db hdone.base) (by rw [hdone.hashBlock]; exact oldTip_of_halfway hhalf)
    (by rw [hdone.hashBlock]; exact hhalf.hash)
  refine ⟨db', hflush, hcoins.trans hdone.utxo, ?_, hsettled⟩
  rw [hbest, hdone.hashBlock]

theorem replayTips_spec :
    replayTips mapBlockIndex pindexNew.getBlockHash (tipHash pindexOld) =
      .ok (pindexNew, pindexOld) := by
  simp only [replayTips, hsetting.newKnown, bind_ok_iff, pure_ok_iff]
  refine ⟨pindexOld, ?_, rfl⟩
  cases pindexOld with
  | none => rfl
  | some tip =>
    have hhash : tipHash (some tip) = tip.getBlockHash := rfl
    simp [replayOldTip, hhash, hsetting.oldHash tip rfl, hsetting.oldKnown tip rfl]

/-- Halfway `ReplayBlocks` is its work on the cache and a flush. -/
theorem replayBlocks_of_halfway (hhalf : Halfway store pindexOld pindexNew db) :
    replayBlocks ctx.options mapBlockIndex store db =
      (replayCache ctx.options pindexOld pindexNew ⟨.ofBase (.db db), store⟩ >>= fun s =>
        match s.cache.flush with
        | (.error fault, _) => .error (.fault fault)
        | (.ok _, cache) => .ok (cache.base.bottom, s.store)) := by
  have hheads : db.getHeadBlocks = [pindexNew.getBlockHash, tipHash pindexOld] := by
    rw [getHeadBlocks, hhalf.heads]
    rfl
  rw [replayBlocks, hheads]
  simp only [replayTips_spec hsetting]
  rfl

/-- A replay that returns finishes the flush and takes the blocks of the old branch out of the
indexes. -/
theorem replayBlocks_spec (hhalf : Halfway store pindexOld pindexNew db) {db' : CCoinsViewDB}
    {store' : BlockStore}
    (hreplay : replayBlocks ctx.options mapBlockIndex store db = .ok (db', store')) :
    Arrived store pindexNew db' ∧
      store'.blocktree = unindexBlocks ctx.options store store.blocktree
        (rolledBack pindexOld pindexNew) := by
  rw [replayBlocks_of_halfway hsetting hhalf, bind_ok_iff] at hreplay
  obtain ⟨s, hs, hrest⟩ := hreplay
  have hdone := replayCache_spec hsetting (wf_ofBase_db db) ⟨rfl, rfl⟩ hs hhalf.mixed
  obtain ⟨written, hflush, harrived⟩ := flush_replayed hhalf hdone
  rw [hflush] at hrest
  cases hrest
  exact ⟨harrived, hdone.blocktree⟩

theorem replayBlocks_ok (hhalf : Halfway store pindexOld pindexNew db)
    (hdistinct : ∀ pindex ∈ rolledBack pindexOld pindexNew, DistinctInputs store pindex) :
    ∃ db' store', replayBlocks ctx.options mapBlockIndex store db = .ok (db', store') := by
  obtain ⟨s, hs⟩ := replayCache_ok (s := ⟨.ofBase (.db db), store⟩) hsetting (wf_ofBase_db db)
    ⟨rfl, rfl⟩ hdistinct
  have hdone := replayCache_spec hsetting (wf_ofBase_db db) ⟨rfl, rfl⟩ hs hhalf.mixed
  obtain ⟨written, hflush, -⟩ := flush_replayed hhalf hdone
  refine ⟨written, s.store, ?_⟩
  rw [replayBlocks_of_halfway hsetting hhalf, bind_ok_iff]
  refine ⟨s, hs, ?_⟩
  rw [hflush]
  rfl

/-- After any crash a `ReplayBlocks` that succeeds leaves the coins and the
best block of the new tip, and it succeeds if the flush had been finished or
no transaction of the rolled back blocks lists an input twice. -/
theorem replayBlocks_recovers {db : CCoinsViewDB}
    (hcrashed : Crashed ctx.options store pindexOld pindexNew db) :
    (∀ db' store', replayBlocks ctx.options mapBlockIndex store db = .ok (db', store') →
        Arrived store pindexNew db') ∧
      ((db.headBlocks = none ∨
          ∀ pindex ∈ rolledBack pindexOld pindexNew, DistinctInputs store pindex) →
        ∃ db' store', replayBlocks ctx.options mapBlockIndex store db = .ok (db', store')) := by
  rcases hcrashed.halfway_or_arrived hsetting with hhalf | harrived
  · refine ⟨fun db' store' hreplay => (replayBlocks_spec hsetting hhalf hreplay).1, ?_⟩
    rintro (hnone | hdistinct)
    · rw [hhalf.heads] at hnone
      cases hnone
    · exact replayBlocks_ok hsetting hhalf hdistinct
  · have hkept : replayBlocks ctx.options mapBlockIndex store db = .ok (db, store) := by
      simp [replayBlocks, getHeadBlocks, harrived.heads]
    refine ⟨fun db' store' hreplay => ?_, fun _ => ⟨db, store, hkept⟩⟩
    rw [hkept] at hreplay
    cases hreplay
    exact harrived

end

end Replay

namespace CrashRecoveryWitness

open UndoInverseWitness

/-- The byte of block `n` and its coinbase. -/
def byteOf (n : ℕ) : UInt8 := UInt8.ofNat (110 + n % 128)

theorem toNat_byteOf (n : ℕ) : (byteOf n).toNat = 110 + n % 128 := by
  rw [byteOf, UInt8.toNat_ofNat']
  omega

theorem hashOf_inj {first second : UInt8} (heq : hashOf first = hashOf second) :
    first = second := by
  have hbytes := congrArg (fun blob : Uint256 => blob.1.head?) heq
  simpa [hashOf] using hbytes

variable {byte : UInt8} {k : ℕ}

theorem hashOf_byteOf_ne (n : ℕ) (hbyte : byte.toNat < 110) : hashOf (byteOf n) ≠ hashOf byte := by
  intro heq
  have hsame := congrArg UInt8.toNat (hashOf_inj heq)
  rw [toNat_byteOf] at hsame
  omega

/-- The first `n` blocks of a chain of coinbases alone. -/
def index : ℕ → CBlockIndex
  | 0 => genesis
  | n + 1 => .child (index n) (hashOf (byteOf n)) 600

theorem nHeight_index (n : ℕ) : (index n).nHeight = n := by
  induction n with
  | zero => rfl
  | succ n ih => rw [index, CBlockIndex.nHeight, ih]

theorem exists_index_of_mem_ancestors {n : ℕ} {pindex : CBlockIndex}
    (hmem : pindex ∈ (index n).ancestors) :
    ∃ k ≤ n, pindex = index k := by
  induction n with
  | zero => exact ⟨0, le_rfl, List.mem_singleton.1 hmem⟩
  | succ n ih =>
    rcases List.mem_cons.1 hmem with heq | hbelow
    · exact ⟨n + 1, le_rfl, heq⟩
    · obtain ⟨k, hle, heq⟩ := ih hbelow
      exact ⟨k, by omega, heq⟩

def mint (n : ℕ) : CTransaction :=
  coinbaseTx (byteOf n) (hashOf_byteOf_ne n (by decide)) 0

def mintBlock (n : ℕ) : CBlock := ⟨hashOf (byteOf n), hashOf 4, 600, [mint n]⟩

def mintCoin (n : ℕ) : Coin := ⟨⟨0, payToPublicKeyHash (byteOf n)⟩, true, n + 1⟩

def minted (n : ℕ) : COutPoint := ⟨hashOf (byteOf n), 0⟩

variable {n : ℕ} {view : CCoinsViewCache}

theorem minted_ne (hne : k ≠ n) (hk : k < 128) (hn : n < 128) : minted k ≠ minted n := by
  intro heq
  have hsame := congrArg UInt8.toNat (hashOf_inj (congrArg COutPoint.hash heq))
  rw [toNat_byteOf, toNat_byteOf] at hsame
  omega

theorem spendable_payToPublicKeyHash (byte : UInt8) :
    (payToPublicKeyHash byte).isUnspendable = false := rfl

theorem enforced_of_low {pindex : CBlockIndex} (hlow : pindex.nHeight < 100000000) :
    fEnforceBIP30 ctx.params pindex = true := by
  have hnone : pindex.getAncestor ctx.params.bip34Height = none :=
    CBlockIndex.getAncestor_of_lt hlow
  rw [fEnforceBIP30, hnone]

/-- The coins of the first `n` blocks in a database. -/
def database : ℕ → CCoinsViewDB
  | 0 => ⟨∅, some (hashOf 1), none, 0, fun _ => 64⟩
  | n + 1 => { (database n).applyOp (.writeCoin (minted n) (mintCoin n)) with
      bestBlock := some (hashOf (byteOf n)) }

theorem utxo_database_succ (n : ℕ) :
    (database (n + 1)).utxo = update (database n).utxo (minted n) (some (mintCoin n)) :=
  utxo_writeCoin (database n) (minted n) (mintCoin n)

theorem spendable_database (n : ℕ) : SpendableCoins (database n).utxo := by
  induction n with
  | zero =>
    intro o coin hcoin
    cases hcoin
  | succ n ih =>
    intro o coin hcoin
    rw [utxo_database_succ] at hcoin
    by_cases heq : o = minted n
    · rw [heq, update_self] at hcoin
      cases hcoin
      exact spendable_payToPublicKeyHash _
    · rw [update_of_ne heq] at hcoin
      exact ih o coin hcoin

/-- A view of the coins of the first `n` blocks. -/
def mintedView (n : ℕ) : UtxoView where
  cache := .ofBase (.db (database n))
  wf := wf_ofBase_db (database n)
  spendable := spendable_database n

/-- A new cache over the view, as `ConnectTip` makes it. -/
def scratch (n : ℕ) : CCoinsViewCache := .ofBase (mintedView n).cache.toView

/-- A block on the coinbase blocks, with its undo data. -/
structure TopBlock where
  pindex : CBlockIndex
  block : CBlock
  undo : CBlockUndo

/-- The block connects on the coins of the first `n` blocks, which writes its undo data. -/
def connectsOn (n : ℕ) (top : TopBlock) : Bool :=
  match connectBlock ctx store top.block top.pindex (scratch n) false with
  | .ok connected => decide (connected.2.undo top.pindex = some top.undo)
  | .error _ => false

theorem connectsOn_mint : ∀ n < 101, connectsOn n ⟨index (n + 1), mintBlock n, ⟨[]⟩⟩ = true := by
  decide +kernel

variable {tops : List TopBlock}

def findTop (tops : List TopBlock) (pindex : CBlockIndex) : Option TopBlock :=
  tops.find? fun top => top.pindex = pindex

/-- The files with the coinbase blocks and some on top. -/
def filesOver (tops : List TopBlock) (blocktree : CBlockTreeDB) : BlockStore where
  blocks pindex :=
    match findTop tops pindex with
    | some top => some top.block
    | none =>
      if pindex = index pindex.nHeight then some (mintBlock (pindex.nHeight - 1)) else none
  undo pindex :=
    match findTop tops pindex with
    | some top => some top.undo
    | none => some ⟨[]⟩
  blocktree := blocktree

theorem index_ne_top (byte : UInt8) (hbyte : byte.toNat < 110) (n : ℕ) :
    index n ≠ .child (index 100) (hashOf byte) 600 := by
  intro heq
  have hheight := congrArg CBlockIndex.nHeight heq
  rw [nHeight_index] at hheight
  subst hheight
  have hhash : hashOf (byteOf 100) = hashOf byte := congrArg CBlockIndex.getBlockHash heq
  exact hashOf_byteOf_ne 100 hbyte hhash

section Files

variable (htops : ∀ n, findTop tops (index n) = none)
  (blocktree : CBlockTreeDB)

theorem read_top (top : TopBlock) (hf : findTop tops top.pindex = some top)
    (hhash : top.block.getHash = top.pindex.getBlockHash) :
    (filesOver tops blocktree).readBlockFromDisk top.pindex = some top.block := by
  simp [BlockStore.readBlockFromDisk, filesOver, hf, hhash]

include htops

theorem read_index (n : ℕ) :
    (filesOver tops blocktree).readBlockFromDisk (index (n + 1)) = some (mintBlock n) := by
  have hblocks : (filesOver tops blocktree).blocks (index (n + 1)) = some (mintBlock n) := by
    simp [filesOver, htops, nHeight_index]
  have hhash : (mintBlock n).getHash = (index (n + 1)).getBlockHash := rfl
  simp [BlockStore.readBlockFromDisk, hblocks, hhash]

theorem utxoAt_index (n : ℕ) :
    utxoAt (filesOver tops blocktree).readBlockFromDisk (index n) = (database n).utxo := by
  induction n with
  | zero => rfl
  | succ n ih =>
    have hprev : (index (n + 1)).pprev = some (index n) := rfl
    rw [utxoAt_child hprev (read_index htops blocktree n), ih, utxo_database_succ, nHeight_index]
    rfl

theorem connected_of_connectsOn (top : TopBlock)
    (hread : (filesOver tops blocktree).readBlockFromDisk top.pindex = some top.block)
    (hundo : (filesOver tops blocktree).undo top.pindex = some top.undo)
    (hgen : top.block.getHash ≠ ctx.params.hashGenesisBlock) (hn : n ≤ 100)
    (hrun : connectsOn n top = true) :
    ConnectedBlock ctx (filesOver tops blocktree) (index n) top.pindex top.block where
  read := hread
  genesis := hgen
  bip30 := .inl (enforced_of_low (by rw [nHeight_index]; omega))
  accepted := by
    rw [connectsOn] at hrun
    split at hrun
    · next connected hconn =>
      refine ⟨mintedView n, connected.1, store, connected.2, (utxoAt_index htops blocktree n).symm,
        rfl, hconn, ?_⟩
      rw [of_decide_eq_true hrun, hundo]
    · cases hrun

theorem connectedChain_index (hn : n ≤ 101) :
    ConnectedChain ctx (filesOver tops blocktree) (index n) := by
  intro pindex hmem pprev hprev
  obtain ⟨k, hk, rfl⟩ := exists_index_of_mem_ancestors hmem
  cases k with
  | zero => cases hprev
  | succ k =>
    obtain rfl : index k = pprev := Option.some.inj hprev
    exact ⟨mintBlock k, connected_of_connectsOn htops blocktree ⟨index (k + 1), mintBlock k, ⟨[]⟩⟩
      (read_index htops blocktree k) (by simp [filesOver, htops])
      (hashOf_byteOf_ne k (by decide)) (by omega) (connectsOn_mint k (by omega))⟩

theorem utxoAt_top {pindex : CBlockIndex} {block : CBlock}
    (hprev : pindex.pprev = some (index 100))
    (hread : (filesOver tops blocktree).readBlockFromDisk pindex = some block) :
    utxoAt (filesOver tops blocktree).readBlockFromDisk pindex = WriteLog.apply
      (block.vtx.flatMap fun tx => tx.writes pindex.nHeight) (database 100).utxo := by
  rw [utxoAt_child hprev hread, utxoAt_index htops, afterTxs_eq_apply]

/-- A top block accepted on the first hundred blocks. -/
theorem connectedChain_top (top : TopBlock) {hash : Uint256} {time : UInt32}
    (hindex : top.pindex = .child (index 100) hash time)
    (hf : findTop tops top.pindex = some top)
    (hhash : top.block.getHash = top.pindex.getBlockHash)
    (hgen : top.block.getHash ≠ ctx.params.hashGenesisBlock)
    (hrun : connectsOn 100 top = true) : ConnectedChain ctx (filesOver tops blocktree)
      top.pindex := by
  intro pindex hmem pprev hprev
  rw [hindex, CBlockIndex.ancestors, List.mem_cons, ← hindex] at hmem
  rcases hmem with rfl | hbelow
  · rw [hindex] at hprev
    obtain rfl : index 100 = pprev := Option.some.inj hprev
    exact ⟨top.block, connected_of_connectsOn htops blocktree top
      (read_top blocktree top hf hhash) (by simp [filesOver, hf]) hgen le_rfl hrun⟩
  · exact connectedChain_index htops blocktree (by decide) pindex hbelow pprev hprev

end Files

/-- On the first hundred blocks, spends the first coinbase twice. -/
def top : CBlockIndex := .child (index 100) (hashOf 100) 600

theorem top_coinbase_ne_null : hashOf 101 ≠ BaseBlob.null 32 := by decide

theorem top_spend_ne_null : hashOf 102 ≠ BaseBlob.null 32 := by decide

def topSpend : CTransaction :=
  spendTx 102 top_spend_ne_null [minted 0, minted 0] [⟨0, payToPublicKeyHash 9⟩]

def topBlock : CBlock :=
  ⟨hashOf 100, hashOf 4, 600, [coinbaseTx 101 top_coinbase_ne_null 0, topSpend]⟩

/-- Spends it once. -/
def spendBlock : CBlock := ⟨hashOf 100, hashOf 4, 600,
  [coinbaseTx 101 top_coinbase_ne_null 0,
    spendTx 102 top_spend_ne_null [minted 0] [⟨0, payToPublicKeyHash 9⟩]]⟩

/-- Its undo record ends with what is read back of a spent coin. -/
def doubleSpend : TopBlock := ⟨top, topBlock, ⟨[⟨[mintCoin 0, Coin.empty.reread]⟩]⟩⟩

abbrev files : BlockStore := filesOver [doubleSpend] .empty

theorem findTop_top : findTop [doubleSpend] top = some doubleSpend := by
  simp [findTop, doubleSpend]

theorem findTop_index (n : ℕ) : findTop [doubleSpend] (index n) = none := by
  have hne : top ≠ index n := (index_ne_top 100 (by decide) n).symm
  simp [findTop, doubleSpend, hne]

theorem connectedChain_double_spend : ConnectedChain ctx files top :=
  connectedChain_top findTop_index .empty doubleSpend rfl findTop_top rfl (by decide)
    (by decide +kernel)

theorem nHeight_top : top.nHeight = 101 := by
  rw [top, CBlockIndex.nHeight, nHeight_index]

theorem readBlock_top : files.readBlockFromDisk top = some topBlock :=
  read_top .empty doubleSpend findTop_top rfl

def knownTips (first second : CBlockIndex) (hash : Uint256) : Option CBlockIndex :=
  if hash = first.getBlockHash then some first
  else if hash = second.getBlockHash then some second
  else none

theorem setting_of_known {store : BlockStore} {old new : CBlockIndex}
    (hold : ConnectedChain ctx store old) (hnew : ConnectedChain ctx store new)
    (hnull : old.getBlockHash.isNull = false) (hne : new.getBlockHash ≠ old.getBlockHash)
    (hroot : old.root = new.root) :
    ReplaySetting ctx store (knownTips old new) (some old) new where
  newChain := hnew
  newKnown := by simp [knownTips, hne]
  oldChain := by
    rintro tip ⟨⟩
    exact hold
  oldKnown := by
    simp [knownTips]
  oldHash := by
    rintro tip ⟨⟩
    exact hnull
  root := by
    rintro tip ⟨⟩
    exact hroot

/-- A flush from the third block back to the second, cut after a batch. -/
def backDatabase : CCoinsViewDB :=
  (database 3).writeBatches (((database 3).batchLoop (index 2).getBlockHash
    [.eraseBestBlock, .writeHeadBlocks [(index 2).getBlockHash, (index 3).getBlockHash]]
    [⟨minted 2, ⟨Coin.empty, true, false⟩⟩]).take 1)

theorem crashed_backDatabase (htops : ∀ n, findTop tops (index n) = none)
    (blocktree : CBlockTreeDB) :
    Crashed ctx.options (filesOver tops blocktree) (some (index 3)) (index 2) backDatabase := by
  have hcrash : (database 3).interruptedFlush [⟨minted 2, ⟨Coin.empty, true, false⟩⟩]
      (index 2).getBlockHash 0 = .ok backDatabase := rfl
  refine .flush ⟨(utxoAt_index htops blocktree 3).symm, rfl, rfl⟩ (by simp) ?_ hcrash
  -- erasing the last coin gives the coins before it
  rw [utxoAt_index htops, utxo_database_succ]
  change update (update (database 2).utxo _ _) (minted 2) none = _
  have hnone : (database 2).utxo (minted 2) = none := rfl
  rw [update_idem, ← hnone, update_eq_self]

theorem setting_back (htops : ∀ n, findTop tops (index n) = none) (blocktree : CBlockTreeDB) :
    ReplaySetting ctx (filesOver tops blocktree) (knownTips (index 3) (index 2))
      (some (index 3)) (index 2) :=
  setting_of_known (connectedChain_index htops blocktree (by decide))
    (connectedChain_index htops blocktree (by decide)) (by decide) (by decide) rfl

/-- A flush from the third block back to the second, cut after its first batch. -/
theorem replayBlocks_recovers_back_one :
    ∃ db, Crashed ctx.options files (some (index 3)) (index 2) db ∧ db.headBlocks ≠ none ∧
      (∀ db' store', replayBlocks ctx.options (knownTips (index 3) (index 2)) files db =
          .ok (db', store') → Arrived files (index 2) db') ∧
        ((db.headBlocks = none ∨
            ∀ pindex ∈ rolledBack (some (index 3)) (index 2), DistinctInputs files pindex) →
          ∃ db' store', replayBlocks ctx.options (knownTips (index 3) (index 2)) files db =
            .ok (db', store')) :=
  ⟨backDatabase, crashed_backDatabase findTop_index .empty, by decide,
    replayBlocks_recovers (setting_back findTop_index .empty)
      (crashed_backDatabase findTop_index .empty)⟩

def topDatabase : CCoinsViewDB :=
  { (database 100).writeBatch
      [.writeCoin ⟨hashOf 101, 0⟩ ⟨⟨0, payToPublicKeyHash 101⟩, true, 101⟩,
        .eraseCoin (minted 0), .eraseCoin (minted 0),
        .writeCoin ⟨hashOf 102, 0⟩ ⟨⟨0, payToPublicKeyHash 9⟩, false, 101⟩] with
    bestBlock := some (hashOf 100) }

theorem utxo_topDatabase : topDatabase.utxo = utxoAt files.readBlockFromDisk top := by
  rw [utxoAt_top findTop_index .empty rfl readBlock_top]
  change (writeBatch (database 100) _).utxo = _
  simp only [writeBatch, List.foldl_cons, List.foldl_nil, utxo_writeCoin, utxo_eraseCoin]
  rfl

/-- The entries of a cache back at the hundredth block. The spent coin does not come first. -/
def backItems : List CoinsMapItem :=
  [⟨⟨hashOf 101, 0⟩, ⟨Coin.empty, true, false⟩⟩, ⟨minted 0, ⟨mintCoin 0, true, false⟩⟩,
    ⟨⟨hashOf 102, 0⟩, ⟨Coin.empty, true, false⟩⟩]

theorem apply_backItems :
    WriteLog.apply (coinWrites backItems) topDatabase.utxo = (database 100).utxo := by
  rw [utxo_topDatabase, utxoAt_top findTop_index .empty rfl readBlock_top,
    ← WriteLog.apply_append, WriteLog.apply_eq_self_iff]
  decide +kernel

/-- The database with the first batch of these. -/
def cutDatabase : CCoinsViewDB :=
  topDatabase.writeBatches ((topDatabase.batchLoop (index 100).getBlockHash
    [.eraseBestBlock, .writeHeadBlocks [(index 100).getBlockHash, top.getBlockHash]]
    backItems).take 1)

theorem utxo_of_keys {db : CCoinsViewDB} {hash : Uint256}
    (hkeys : ∀ o ∈ db.coins.keys, o.hash ≠ hash) (n : ℕ) : db.utxo ⟨hash, n⟩ = none := by
  have hno : (⟨hash, n⟩ : COutPoint) ∉ db.coins := fun hmem => hkeys _ (AList.mem_keys.1 hmem) rfl
  rw [CCoinsViewDB.utxo, AList.lookup_eq_none.2 hno, Option.bind_none]

theorem utxo_cutDatabase : ∀ n, cutDatabase.utxo ⟨hashOf (byteOf 0), n⟩ = none :=
  utxo_of_keys (by decide +kernel)

/-- Without any output of the first coinbase nothing tells the height of its second record. -/
theorem completeUndo_top {utxo : UtxoMap} (hno : ∀ n, utxo ⟨hashOf (byteOf 0), n⟩ = none) :
    completeUndo files topBlock top utxo = none := by
  let erased : UtxoMap := update utxo ⟨hashOf 102, 0⟩ none
  have hout : firstOutput erased (minted 0).hash = none := by
    rw [firstOutput, List.findSome?_eq_none_iff]
    intro n _
    refine (update_of_ne ?_ _ _).trans (hno n)
    exact fun heq => hashOf_byteOf_ne 0 (by decide) (congrArg COutPoint.hash heq)
  have hlast : completeCoin erased (minted 0).hash Coin.empty.reread = none := by
    have hheight : Coin.empty.reread.nHeight = 0 := rfl
    rw [completeCoin, if_pos hheight, hout]
    rfl
  have hinputs : completeInputs erased [minted 0, minted 0] [mintCoin 0, Coin.empty.reread] =
      none := by
    simp [completeInputs, restores, hlast]
  have htx : completeTx top.nHeight utxo topSpend (some ⟨[mintCoin 0, Coin.empty.reread]⟩) =
      none := by
    have hlen : [mintCoin 0, Coin.empty.reread].length = topSpend.vin.length := rfl
    rw [completeTx, if_neg (not_not.2 hlen)]
    change completeInputs erased [minted 0, minted 0] [mintCoin 0, Coin.empty.reread] >>= _ = none
    rw [hinputs]
    rfl
  have hundo : files.undo top = some doubleSpend.undo := by simp [filesOver, findTop_top]
  have hvtx : topBlock.vtx = [coinbaseTx 101 top_coinbase_ne_null 0, topSpend] := rfl
  simp [completeUndo, hundo, doubleSpend, hvtx, completeTxs, undoWrites, htx]

theorem rollbackBlock_top {s s' : ReplayState} (hwf : s.cache.Wf) (hstore : s.store = files)
    (hno : ∀ n, s.cache.utxo ⟨hashOf (byteOf 0), n⟩ = none)
    (hroll : rollbackBlock ctx.options top s = .ok s') : False := by
  obtain ⟨hbelow, block, vtxundo, hhist⟩ := connectedChain_double_spend.below
  have hread := readBlock_top
  have hhist : BlockHistory files (index 100) top block vtxundo := hhist
  obtain rfl : topBlock = block := Option.some.inj (hread.symm.trans hhist.read)
  have hheight : top.nHeight ≠ 0 := by rw [nHeight_top]; decide
  simp only [rollbackBlock, hheight, if_false, hstore, hread, bind_ok_iff, lift_ok_iff,
    require_ok_iff, decide_eq_true_eq] at hroll
  obtain ⟨done, hdone, -, hres, -⟩ := hroll
  have hrec := hhist.recorded hbelow.sound rfl
  obtain ⟨-, ⟨-, hfail, -⟩ | ⟨undos, hundos, -⟩⟩ := disconnectBlock_spec hwf
    (fun blockUndo hundo txundo htx coin hcoin =>
      (hrec.of_mem blockUndo hundo txundo htx coin hcoin).2) hdone
  · exact hres hfail
  · rw [completeUndo_top hno] at hundos
    cases hundos

/-- A flush from the double spend back to the block below it, cut after its
first batch, is not recovered from. -/
theorem double_spend_is_not_rolled_back :
    ∃ db, Crashed ctx.options files (some top) (index 100) db ∧
      ReplaySetting ctx files (knownTips top (index 100)) (some top) (index 100) ∧
      ¬ ∃ db' store', replayBlocks ctx.options (knownTips top (index 100)) files db =
        .ok (db', store') := by
  have hcrash : topDatabase.interruptedFlush backItems (index 100).getBlockHash 0 =
      .ok cutDatabase := rfl
  have hclean : topDatabase.AtTip files.readBlockFromDisk (some top) := ⟨utxo_topDatabase, rfl, rfl⟩
  have hcrashed : Crashed ctx.options files (some top) (index 100) cutDatabase :=
    .flush hclean (by decide)
      (apply_backItems.trans (utxoAt_index findTop_index .empty 100).symm) hcrash
  have hsetting := setting_of_known connectedChain_double_spend
    (connectedChain_index findTop_index .empty (by decide))
    (by decide) (by decide) rfl
  refine ⟨cutDatabase, hcrashed, hsetting, ?_⟩
  rintro ⟨db', store', hreplay⟩
  rcases hcrashed.halfway_or_arrived hsetting with hhalf | harrived
  · rw [replayBlocks_of_halfway hsetting hhalf, bind_ok_iff] at hreplay
    obtain ⟨s, hs, -⟩ := hreplay
    have hfork : top.lastCommonAncestor (index 100) = some (index 100) := by decide +kernel
    have hne : top ≠ index 100 := (index_ne_top 100 (by decide) 100).symm
    simp only [replayCache, rollbackToFork, hfork, bind_ok_iff] at hs
    obtain ⟨_, ⟨_, hroll, -⟩, -⟩ := hs
    rw [top] at hne hroll
    rw [rollback, if_neg hne, bind_ok_iff] at hroll
    obtain ⟨mid, hfst, -⟩ := hroll
    exact rollbackBlock_top (s := ⟨.ofBase (.db cutDatabase), files⟩) (wf_ofBase_db cutDatabase)
      rfl utxo_cutDatabase hfst
  · exact absurd harrived.heads (by decide)

end CrashRecoveryWitness

end Catoshi
