/-
Recovering from an interrupted flush (`validation.cpp`): `ReplayBlocks` rolls the coins back with
`DisconnectBlock` and forward with `RollforwardBlock`. Both are logs of writes that do not depend
on the coins.
-/
import Catoshi.Chain
import Catoshi.Disconnect
import Catoshi.UndoInverse

namespace Catoshi

open Outcome

/-- `ReplayBlocks` returns false after logging an error about a block, or a call in it does not
return. -/
inductive ReplayFailure where
  | error (message : String) (pindex : Option CBlockIndex)
  | fault (fault : Fault)
deriving DecidableEq

/-- The cache of `ReplayBlocks` and the files. -/
structure ReplayState where
  cache : CCoinsViewCache
  store : BlockStore

variable (options : IndexOptions) (mapBlockIndex : Uint256 → Option CBlockIndex)

/-- A round of the rollback. The genesis block is never disconnected, and an unclean result is as
good as a clean one. -/
def rollbackBlock (pindexOld : CBlockIndex) (s : ReplayState) : Except ReplayFailure ReplayState :=
  if pindexOld.nHeight = 0 then
    .ok s
  else
    match s.store.readBlockFromDisk pindexOld with
    | none => .error (.error "RollbackBlock(): ReadBlockFromDisk() failed" pindexOld)
    | some block => do
        let done ← lift .fault (disconnectBlock options s.store block pindexOld s.cache)
        require (decide (done.result ≠ .failed))
          (.error "RollbackBlock(): DisconnectBlock failed" pindexOld)
        return ⟨done.view, done.store⟩

/-- Roll back until the fork is reached. -/
def rollback (options : IndexOptions) (pindexFork : CBlockIndex) :
    CBlockIndex → ReplayState → Except ReplayFailure ReplayState
  | .genesis hash time, s =>
    if .genesis hash time = pindexFork then .ok s
    else do
      let _ ← rollbackBlock options (.genesis hash time) s
      .error (.fault (.assertFailed "pindexOld"))
  | .child pprev hash time, s =>
    if .child pprev hash time = pindexFork then .ok s
    else do
      let s ← rollbackBlock options (.child pprev hash time) s
      rollback options pindexFork pprev s

/-- `RollforwardBlock` over the inputs; what `SpendCoin` returns is ignored. -/
def CCoinsViewCache.spendAll (inputs : CCoinsViewCache) (prevouts : List COutPoint) :
    CCoinsViewCache :=
  prevouts.foldl (fun view prevout => (view.spendCoin prevout).2) inputs

/-- `RollforwardBlock` over the transactions. -/
def rollforwardTxs (nHeight : ℕ) :
    List CTransaction → CCoinsViewCache → Except Fault CCoinsViewCache
  | [], inputs => .ok inputs
  | tx :: rest, inputs => do
      let inputs ← (inputs.spendAll tx.inputs).addCoins tx nHeight true
      rollforwardTxs nHeight rest inputs

def rollforwardBlock (store : BlockStore) (pindex : CBlockIndex) (inputs : CCoinsViewCache) :
    Except ReplayFailure CCoinsViewCache :=
  match store.readBlockFromDisk pindex with
  | none => .error (.error "ReplayBlock(): ReadBlockFromDisk failed" pindex)
  | some block => lift .fault (rollforwardTxs pindex.nHeight block.vtx inputs)

/-- Roll forward over heights of the new chain. -/
def rollforward (store : BlockStore) (pindexNew : CBlockIndex) :
    List ℕ → CCoinsViewCache → Except ReplayFailure CCoinsViewCache
  | [], cache => .ok cache
  | nHeight :: rest, cache =>
    match pindexNew.getAncestor nHeight with
    | none => .error (.fault (.assertFailed "pindex"))
    | some pindex => do
        let cache ← rollforwardBlock store pindex cache
        rollforward store pindexNew rest cache

/-- The old tip of the flush, none for the first. -/
def replayOldTip (hash : Uint256) : Except ReplayFailure (Option CBlockIndex) :=
  if hash.isNull then
    .ok none
  else
    match mapBlockIndex hash with
    | none => .error (.error "ReplayBlocks(): reorganization from unknown block requested" none)
    | some pindexOld => .ok (some pindexOld)

/-- Roll the old branch back to where the new one leaves it, and tell the height. Without an old
tip nothing is rolled back. -/
def rollbackToFork (pindexNew : CBlockIndex) (s : ReplayState) :
    Option CBlockIndex → Except ReplayFailure (ℕ × ReplayState)
  | none => .ok (0, s)
  | some pindexOld =>
    match pindexOld.lastCommonAncestor pindexNew with
    | none => .error (.fault (.assertFailed "pindexFork != nullptr"))
    | some pindexFork => do
        let s ← rollback options pindexFork pindexOld s
        return (pindexFork.nHeight, s)

/-- `ReplayBlocks` from its two tips to its flush. -/
def replayCache (pindexOld : Option CBlockIndex)
    (pindexNew : CBlockIndex) (s : ReplayState) : Except ReplayFailure ReplayState := do
  let (nForkHeight, s) ← rollbackToFork options pindexNew s pindexOld
  let cache ← rollforward s.store pindexNew
    (List.range' (nForkHeight + 1) (pindexNew.nHeight - nForkHeight)) s.cache
  return ⟨cache.setBestBlock pindexNew.getBlockHash, s.store⟩

/-- The tips an interrupted flush marked, the new one first. -/
def replayTips (hashNew hashOld : Uint256) :
    Except ReplayFailure (CBlockIndex × Option CBlockIndex) :=
  match mapBlockIndex hashNew with
  | none => .error (.error "ReplayBlocks(): reorganization to unknown block requested" none)
  | some pindexNew => do
      let pindexOld ← replayOldTip mapBlockIndex hashOld
      return (pindexNew, pindexOld)

/-- `ReplayBlocks` on the coin database. -/
def replayBlocks (store : BlockStore) (db : CCoinsViewDB) :
    Except ReplayFailure (CCoinsViewDB × BlockStore) :=
  match db.getHeadBlocks with
  | [] => .ok (db, store)
  | [hashNew, hashOld] => do
      let (pindexNew, pindexOld) ← replayTips mapBlockIndex hashNew hashOld
      let s ← replayCache options pindexOld pindexNew ⟨.ofBase (.db db), store⟩
      match s.cache.flush with
      | (.error fault, _) => .error (.fault fault)
      | (.ok _, cache) => .ok (cache.base.bottom, s.store)
  | _ => .error (.error "ReplayBlocks(): unknown inconsistent state" none)

open CBlockIndex CCoinsViewCache List

/-- `ConnectBlock` accepted the block on a cache over the coins of the one before and wrote its
undo data. -/
structure ConnectedBlock (ctx : ValidationContext) (store : BlockStore)
    (pprev pindex : CBlockIndex) (block : CBlock) : Prop where
  read : store.readBlockFromDisk pindex = some block
  genesis : block.getHash ≠ ctx.params.hashGenesisBlock
  bip30 : fEnforceBIP30 ctx.params pprev = true ∨
    FreshOutputs pindex.nHeight (utxoAt store.readBlockFromDisk pprev) block.vtx
  accepted : ∃ (view : UtxoView) (view' : CCoinsViewCache) (before after : BlockStore),
    view.cache.utxo = utxoAt store.readBlockFromDisk pprev ∧ before.undo pindex = none ∧
      connectBlock ctx before block pindex (.ofBase view.cache.toView) false =
        .ok (view', after) ∧
      store.undo pindex = after.undo pindex

/-- Every block but the genesis block was connected. -/
def ConnectedChain (ctx : ValidationContext) (store : BlockStore) (tip : CBlockIndex) : Prop :=
  ∀ pindex ∈ tip.ancestors, ∀ pprev, pindex.pprev = some pprev →
    ∃ block, ConnectedBlock ctx store pprev pindex block

/-- No transaction of the block lists an input twice. -/
def DistinctInputs (store : BlockStore) (pindex : CBlockIndex) : Prop :=
  ∀ block, store.readBlockFromDisk pindex = some block → ∀ tx ∈ block.vtx, tx.prevouts.Nodup

structure BlockHistory (store : BlockStore) (pprev pindex : CBlockIndex) (block : CBlock)
    (vtxundo : List CTxUndo) : Prop where
  read : store.readBlockFromDisk pindex = some block
  pprev_eq : pindex.pprev = some pprev
  checked : block.Checked
  fits : TxsFit pindex.nHeight (utxoAt store.readBlockFromDisk pprev) block.vtx
  undo : store.undo pindex = some ⟨vtxundo⟩
  undos_eq : none :: vtxundo.map some =
    blockUndos pindex.nHeight (utxoAt store.readBlockFromDisk pprev) block.vtx

variable {block : CBlock} {store : BlockStore} {fork pindex pprev tip : CBlockIndex}
  {s : ReplayState} {vtxundo : List CTxUndo} {view : CCoinsViewCache} {ctx : ValidationContext}

theorem ConnectedBlock.history (hconnd : ConnectedBlock ctx store pprev pindex block)
    (hprev : pindex.pprev = some pprev) :
    ∃ vtxundo, BlockHistory store pprev pindex block vtxundo := by
  obtain ⟨view, view', before, after, hutxo, hfst, hconn, hundo⟩ := hconnd.accepted
  have hpre : (CCoinsViewCache.ofBase view.cache.toView).utxo =
    utxoAt store.readBlockFromDisk pprev := hutxo
  obtain ⟨other, ho, hblk⟩ := connectBlock_spec (ofBase_wf view.wf) hconnd.genesis
    (fun other ho => by
      obtain rfl : other = pprev := Option.some.inj (ho.symm.trans hprev)
      rw [hpre]
      exact hconnd.bip30) hconn
  obtain ⟨blockundo, hwrote, hundos⟩ := hblk.undo
  refine ⟨blockundo.reread.vtxundo, hconnd.read, hprev, hblk.checked, hpre ▸ hblk.fits, ?_, ?_⟩
  · rw [hundo, hwrote]
    simp [BlockStore.writeUndoDataForBlock, hfst]
  · rw [hundos (Or.inr (List.cons_ne_nil _ _)), hpre]

/-- The chain below a connected tip, and the tip's history. -/
theorem ConnectedChain.below {hash : Uint256} {time : UInt32}
    (hchain : ConnectedChain ctx store (.child pprev hash time)) :
    ConnectedChain ctx store pprev ∧
      ∃ block vtxundo, BlockHistory store pprev (.child pprev hash time) block vtxundo := by
  obtain ⟨block, hconnd⟩ := hchain _ (ancestors_self _) pprev rfl
  exact ⟨(forall_mem_cons.1 hchain).2, block, hconnd.history rfl⟩

/-- The coins of a connected chain can be put back. -/
theorem ConnectedChain.sound (hchain : ConnectedChain ctx store tip) :
    Sound (utxoAt store.readBlockFromDisk tip) := by
  induction tip with
  | genesis hash time =>
    intro o coin hcoin
    cases hcoin
  | child pprev hash time ih =>
    obtain ⟨hbelow, block, vtxundo, hhist⟩ := hchain.below
    rw [utxoAt_child rfl hhist.read]
    exact (ih hbelow).afterTxs (Nat.succ_ne_zero _) hhist.checked.txs

theorem ConnectedChain.of_mem (hchain : ConnectedChain ctx store tip)
    (hmem : pindex ∈ tip.ancestors) : ConnectedChain ctx store pindex :=
  fun other ho => hchain other (ancestors_trans ho hmem)

def blockUndoWrites (store : BlockStore) (pindex : CBlockIndex) :
    List (COutPoint × Option Coin) :=
  match store.readBlockFromDisk pindex, store.undo pindex with
  | some block, some blockUndo =>
    undoWrites pindex.nHeight block.vtx (none :: blockUndo.vtxundo.map some)
  | _, _ => []

/-- The index changes that undo a block with the undo data on disk. -/
def blockUnindex (options : IndexOptions) (store : BlockStore) (pindex : CBlockIndex) :
    IndexChanges :=
  match store.readBlockFromDisk pindex, store.undo pindex with
  | some block, some blockUndo =>
    unindexTxs options pindex.nHeight 0 block.vtx (none :: blockUndo.vtxundo.map some)
  | _, _ => .empty

namespace BlockHistory

variable {store : BlockStore} {pprev pindex : CBlockIndex} {block : CBlock} {vtxundo : List CTxUndo}

section

variable (hhist : BlockHistory store pprev pindex block vtxundo)

include hhist

theorem nHeight_ne : pindex.nHeight ≠ 0 := by
  cases pindex with
  | genesis hash time => cases hhist.pprev_eq
  | child pprev hash time => exact Nat.succ_ne_zero _

/-- The undo writes of a block take its coins back. -/
theorem apply_blockUndoWrites :
    WriteLog.apply (blockUndoWrites store pindex) (utxoAt store.readBlockFromDisk pindex) =
      utxoAt store.readBlockFromDisk pprev := by
  simp only [blockUndoWrites, hhist.read, hhist.undo]
  rw [utxoAt_child hhist.pprev_eq hhist.read, hhist.undos_eq]
  exact apply_undoWrites hhist.fits

/-- Files with the same undo data record the block. -/
theorem recorded (hsound : Sound (utxoAt store.readBlockFromDisk pprev)) {files : BlockStore}
    (hundo : files.undo pindex = store.undo pindex) :
    UndoRecorded files block pindex (utxoAt store.readBlockFromDisk pprev) vtxundo :=
  ⟨hsound, hhist.nHeight_ne, hhist.checked.txs, hhist.fits, hundo.trans hhist.undo, hhist.undos_eq⟩

theorem nodup_inputs (hdist : DistinctInputs store pindex) : ∀ tx ∈ block.vtx, tx.inputs.Nodup :=
  fun tx htx => (nodup_prevouts_iff tx).1 (hdist block hhist.read tx htx)

end

end BlockHistory

/-- The calls between two states wrote `log`; the best block may have moved. -/
structure CCoinsViewCache.Changes (log : List (COutPoint × Option Coin))
    (view view' : CCoinsViewCache) : Prop where
  utxo : view'.utxo = WriteLog.apply log view.utxo
  wf : view'.Wf
  base : view.base.Reads view'.base

theorem CCoinsViewCache.Changes.refl (hwf : view.Wf) :
    view.Changes [] view := ⟨rfl, hwf, CCoinsView.Reads.refl hwf.2⟩

variable {log : List (COutPoint × Option Coin)} {store' files : BlockStore}
  {txs : List CTransaction} {options : IndexOptions} {s' : ReplayState}

theorem CCoinsViewCache.Changes.trans {first second third : CCoinsViewCache}
    {more : List (COutPoint × Option Coin)} (hfst : first.Changes log second)
    (hsnd : second.Changes more third) : first.Changes (log ++ more) third :=
  ⟨by rw [WriteLog.apply_append, ← hfst.utxo, hsnd.utxo], hsnd.wf, hfst.base.trans hsnd.base⟩

theorem CCoinsViewCache.Writes.changes {view' : CCoinsViewCache} (hlog : view.Writes log view') :
    view.Changes log view' := ⟨hlog.utxo, hlog.wf, hlog.base⟩

/-- The same files; the index database may differ. -/
structure BlockStore.SameFiles (store store' : BlockStore) : Prop where
  blocks : store'.blocks = store.blocks
  undo : store'.undo = store.undo

theorem BlockStore.readBlockFromDisk_congr (hblocks : store'.blocks = store.blocks) :
    store'.readBlockFromDisk = store.readBlockFromDisk := by
  funext pindex
  rw [readBlockFromDisk, readBlockFromDisk, hblocks]

theorem BlockStore.SameFiles.read (heq : store.SameFiles store') :
    store'.readBlockFromDisk = store.readBlockFromDisk := readBlockFromDisk_congr heq.blocks

/-- The index database after blocks were taken back one by one. -/
def unindexBlocks (options : IndexOptions) (store : BlockStore) (db : CBlockTreeDB)
    (pindexes : List CBlockIndex) : CBlockTreeDB :=
  pindexes.foldl (fun db pindex =>
    db.writeDisconnected options (blockUnindex options store pindex)) db

/-- What rolling back does to the state of `ReplayBlocks`. -/
structure RolledBack (options : IndexOptions) (store : BlockStore)
    (pindexes : List CBlockIndex) (s s' : ReplayState) : Prop where
  changes : s.cache.Changes (pindexes.flatMap (blockUndoWrites store)) s'.cache
  files : store.SameFiles s'.store
  blocktree : s'.store.blocktree = unindexBlocks options store s.store.blocktree pindexes

section

variable (hhist : BlockHistory store pprev pindex block vtxundo)
  (hsound : Sound (utxoAt store.readBlockFromDisk pprev)) (hwf : s.cache.Wf)
  (hfiles : store.SameFiles s.store)

include hhist hsound hwf hfiles

/-- Rolling back a connected block, on any coins. -/
theorem rollbackBlock_spec (hroll : rollbackBlock options pindex s = .ok s') :
    RolledBack options store [pindex] s s' := by
  have hread := hhist.read
  have hundo := hhist.undo
  rw [← hfiles.read] at hread
  simp only [rollbackBlock, hhist.nHeight_ne, if_false, hread, bind_ok_iff,
    lift_ok_iff, require_ok_iff, pure_ok_iff, decide_eq_true_eq] at hroll
  obtain ⟨done, hdone, -, hres, rfl⟩ := hroll
  obtain ⟨hreads, hdiscd⟩ :=
    (hhist.recorded hsound (congrFun hfiles.undo pindex)).disconnected hwf hdone
  have hdiscd := hdiscd hres
  rw [hfiles.read] at hread
  refine ⟨⟨?_, hdiscd.wf, hreads⟩, ?_, ?_⟩
  · rw [hdiscd.utxo]
    simp [blockUndoWrites, hread, hundo]
  · rw [hdiscd.store_eq]
    exact ⟨hfiles.blocks, hfiles.undo⟩
  · rw [hdiscd.store_eq]
    simp [unindexBlocks, blockUnindex, hread, hundo]

/-- With distinct inputs it succeeds. -/
theorem rollbackBlock_ok (options : IndexOptions) (hdist : DistinctInputs store pindex) :
    ∃ s', rollbackBlock options pindex s = .ok s' := by
  have hread := hhist.read
  rw [← hfiles.read] at hread
  obtain ⟨done, hdone, hres⟩ := (hhist.recorded hsound (congrFun hfiles.undo pindex)).disconnects
    options hwf (hhist.nodup_inputs hdist)
  refine ⟨⟨done.view, done.store⟩, ?_⟩
  simp only [rollbackBlock, hhist.nHeight_ne, if_false, hread, bind_ok_iff,
    lift_ok_iff, require_ok_iff, pure_ok_iff, decide_eq_true_eq]
  exact ⟨done, hdone, (), hres, rfl⟩

end

section

variable (hchain : ConnectedChain ctx store tip) (hmem : fork ∈ tip.ancestors)

include hchain hmem

/-- Rolling back to an ancestor undoes the blocks above. -/
theorem rollback_spec (hwf : s.cache.Wf) (hfiles : store.SameFiles s.store)
    (hroll : rollback ctx.options fork tip s = .ok s') :
    RolledBack ctx.options store (tip.above fork) s s' := by
  induction tip, hmem using ancestors_induction generalizing s with
  | self =>
    obtain rfl : s = s' := by cases fork <;> simpa [rollback] using hroll
    rw [above_self]
    exact ⟨.refl hwf, hfiles, rfl⟩
  | child pprev hash time hfork ih =>
    rw [above_child hfork]
    obtain ⟨hbelow, block, vtxundo, hhist⟩ := hchain.below
    simp only [rollback, child_ne_of_mem hfork, if_false, bind_ok_iff] at hroll
    obtain ⟨mid, hfst, hrest⟩ := hroll
    have hrolled := rollbackBlock_spec hhist hbelow.sound hwf hfiles hfst
    have hmore := ih hbelow hrolled.changes.wf hrolled.files hrest
    refine ⟨?_, hmore.files, ?_⟩
    · have hall := hrolled.changes.trans hmore.changes
      simpa using hall
    · rw [hmore.blocktree, hrolled.blocktree]
      rfl

/-- With distinct inputs in these blocks the rollback succeeds. -/
theorem rollback_ok (hdist : ∀ pindex ∈ tip.above fork, DistinctInputs store pindex)
    (hwf : s.cache.Wf) (hfiles : store.SameFiles s.store) :
    ∃ s', rollback ctx.options fork tip s = .ok s' := by
  induction tip, hmem using ancestors_induction generalizing s with
  | self => exact ⟨s, by cases fork <;> simp [rollback]⟩
  | child pprev hash time hfork ih =>
    rw [above_child hfork, forall_mem_cons] at hdist
    obtain ⟨hbelow, block, vtxundo, hhist⟩ := hchain.below
    obtain ⟨mid, hfst⟩ :=
      rollbackBlock_ok hhist hbelow.sound hwf hfiles ctx.options hdist.1
    have hrolled := rollbackBlock_spec hhist hbelow.sound hwf hfiles hfst
    obtain ⟨last, hrest⟩ := ih hbelow hdist.2 hrolled.changes.wf hrolled.files
    refine ⟨last, ?_⟩
    simp only [rollback, child_ne_of_mem hfork, if_false, bind_ok_iff]
    exact ⟨mid, hfst, hrest⟩

/-- The rollback takes the coins of the tip to those of the fork. -/
theorem apply_rollback :
    WriteLog.apply ((tip.above fork).flatMap (blockUndoWrites store))
      (utxoAt store.readBlockFromDisk tip) = utxoAt store.readBlockFromDisk fork := by
  induction tip, hmem using ancestors_induction with
  | self => simp [above_self]
  | child pprev hash time hfork ih =>
    rw [above_child hfork]
    obtain ⟨hbelow, block, vtxundo, hhist⟩ := hchain.below
    rw [flatMap_cons, WriteLog.apply_append, hhist.apply_blockUndoWrites]
    exact ih hbelow

end

theorem CCoinsViewCache.spendAll_writes (hwf : view.Wf) (prevouts : List COutPoint) :
    view.Writes (WriteLog.erases prevouts) (view.spendAll prevouts) := by
  induction prevouts generalizing view with
  | nil => exact Writes.refl hwf
  | cons prevout rest ih =>
    have hfst := (spendCoin_spec hwf prevout).2
    exact hfst.trans (ih hfst.wf)

/-- Rolling transactions forward writes what they write, on any coins. -/
theorem rollforwardTxs_spec (nHeight : ℕ) (hchecked : ∀ tx ∈ txs, tx.Checked) (hwf : view.Wf) :
    ∃ view', rollforwardTxs nHeight txs view = .ok view' ∧
      view.Writes (txs.flatMap fun tx => tx.writes nHeight) view' := by
  induction txs generalizing view with
  | nil => exact ⟨view, rfl, .refl hwf⟩
  | cons tx rest ih =>
    have hspend := spendAll_writes hwf tx.inputs
    obtain ⟨mid, hadd⟩ : ∃ mid, (view.spendAll tx.inputs).addCoins tx nHeight true = .ok mid :=
      addCoinsFrom_ok hspend.wf (hchecked tx mem_cons_self).vout_nonneg
    have hcreates := addCoinsFrom_writes hspend.wf (Or.inl rfl) hadd
    have hfst := hspend.trans hcreates
    obtain ⟨last, hlast, hrest⟩ := ih (forall_mem_cons.1 hchecked).2 hfst.wf
    refine ⟨last, ?_, hfst.trans hrest⟩
    simp only [rollforwardTxs, bind_ok_iff]
    exact ⟨mid, hadd, hlast⟩

/-- Rolling forward over some blocks writes what they write. -/
theorem rollforward_spec {heights : List ℕ} {pindexes : List CBlockIndex}
    (hheights : heights.map tip.getAncestor = pindexes.map some)
    (hread : ∀ pindex ∈ pindexes, ∃ block, store.readBlockFromDisk pindex = some block ∧
      block.Checked) (hwf : view.Wf) :
    ∃ view', rollforward store tip heights view = .ok view' ∧
      view.Writes (pindexes.flatMap (blockWrites store.readBlockFromDisk)) view' := by
  induction heights generalizing pindexes view with
  | nil =>
    obtain rfl : pindexes = [] := map_eq_nil_iff.1 hheights.symm
    exact ⟨view, rfl, .refl hwf⟩
  | cons height rest ih =>
    cases pindexes with
    | nil => cases hheights
    | cons pindex pindexes =>
      rw [map_cons, map_cons, List.cons.injEq] at hheights
      obtain ⟨block, hblk, hchecked⟩ := hread pindex mem_cons_self
      obtain ⟨mid, hmid, hfst⟩ := rollforwardTxs_spec pindex.nHeight hchecked.txs hwf
      obtain ⟨last, hlast, hmore⟩ := ih hheights.2 (forall_mem_cons.1 hread).2 hfst.wf
      refine ⟨last, ?_, ?_⟩
      · simp only [rollforward, hheights.1, bind_ok_iff, rollforwardBlock, hblk, lift_ok_iff]
        exact ⟨mid, hmid, hlast⟩
      · simpa [blockWrites, hblk] using hfst.trans hmore

end Catoshi
