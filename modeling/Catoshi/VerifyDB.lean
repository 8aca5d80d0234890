/-
`CVerifyDB::VerifyDB` (`validation.cpp`) up to the reconnect of level 4. The coins stay, but
`DisconnectBlock` writes to the index database all the same.
-/
import Catoshi.DisconnectAtomic
import Catoshi.IndexReplay

namespace Catoshi

open CBlockIndex CCoinsViewCache List

/-- What `VerifyDB` finds about a block: whether pruning removed it, whether undo data with a
position cannot be read, whether the coin caches fit into memory and whether a shutdown was
requested after it. -/
structure VerifyEnv where
  pruned : CBlockIndex → Bool
  badUndo : CBlockIndex → Bool
  memoryFits : CBlockIndex → Bool
  shutdownRequested : CBlockIndex → Bool

/-- Why `VerifyDB` returns false. -/
inductive VerifyError where
  | readBlockFromDiskFailed (nHeight : ℕ)
  | foundBadBlock (nHeight : ℕ) (reject : Reject)
  | foundBadUndoData (nHeight : ℕ)
  | irrecoverableInconsistency (nHeight : ℕ)
  | coinDatabaseInconsistencies (nHeight : ℕ)
deriving DecidableEq

/-- How the loop of `VerifyDB` is left early. -/
inductive VerifyStop where
  | error (error : VerifyError)
  | shutdown
  | fault (fault : Fault)

structure VerifyState where
  coins : CCoinsViewCache
  pindexState : CBlockIndex
  pindexFailure : Option CBlockIndex
  nGoodTransactions : ℕ
  store : BlockStore

/-- Check level 3 for one block. -/
def verifyDisconnect (options : IndexOptions) (env : VerifyEnv) (nCheckLevel : ℤ)
    (block : CBlock) (pindex pprev : CBlockIndex) (s : VerifyState) :
    Except VerifyStop Unit × VerifyState :=
  if 3 ≤ nCheckLevel ∧ pindex = s.pindexState ∧ env.memoryFits pindex = true then
    let asked := s.coins.getBestBlock
    if asked.1 ≠ pindex.getBlockHash then
      (.error (.fault (.assertFailed "coins.GetBestBlock() == pindex->GetBlockHash()")),
        { s with coins := asked.2 })
    else
      match disconnectBlock options s.store block pindex asked.2 with
      | .error fault => (.error (.fault fault), { s with coins := asked.2 })
      | .ok done =>
        let s := { s with coins := done.view, store := done.store }
        match done.result with
        | .failed => (.error (.error (.irrecoverableInconsistency pindex.nHeight)), s)
        | .unclean =>
          (.ok (), { s with
            pindexState := pprev
            nGoodTransactions := 0
            pindexFailure := some pindex })
        | .ok =>
          (.ok (), { s with
            pindexState := pprev
            nGoodTransactions := s.nGoodTransactions + block.vtx.length })
  else
    (.ok (), s)

def verifyBlock (ctx : ValidationContext) (env : VerifyEnv) (nCheckLevel : ℤ)
    (pindex pprev : CBlockIndex) (s : VerifyState) : Except VerifyStop Unit × VerifyState :=
  match s.store.readBlockFromDisk pindex with
  | none => (.error (.error (.readBlockFromDiskFailed pindex.nHeight)), s)
  | some block =>
    match if 1 ≤ nCheckLevel then checkBlock ctx.checks block true true else .ok () with
    | .error reject => (.error (.error (.foundBadBlock pindex.nHeight reject)), s)
    | .ok _ =>
      if 2 ≤ nCheckLevel ∧ env.badUndo pindex = true then
        (.error (.error (.foundBadUndoData pindex.nHeight)), s)
      else
        verifyDisconnect ctx.options env nCheckLevel block pindex pprev s

/-- The loop of `VerifyDB` towards the genesis block. -/
def verifyBlocks (ctx : ValidationContext) (env : VerifyEnv) (nCheckLevel lowest : ℤ) :
    CBlockIndex → VerifyState → Except VerifyStop Unit × VerifyState
  | .genesis _ _, s => (.ok (), s)
  | .child pprev hash time, s =>
    let pindex := child pprev hash time
    if (pindex.nHeight : ℤ) < lowest ∨ env.pruned pindex = true then
      (.ok (), s)
    else
      match verifyBlock ctx env nCheckLevel pindex pprev s with
      | (.error stop, s) => (.error stop, s)
      | (.ok _, s) =>
        if env.shutdownRequested pindex then
          (.error .shutdown, s)
        else
          verifyBlocks ctx env nCheckLevel lowest pprev s

def clampLevel (nCheckLevel : ℤ) : ℤ := max 0 (min 4 nCheckLevel)

def lowestHeight (nHeight : ℕ) (nCheckDepth : ℤ) : ℤ :=
  nHeight - if nCheckDepth ≤ 0 ∨ (nHeight : ℤ) < nCheckDepth then (nHeight : ℤ) else nCheckDepth

/-- `VerifyDB` without the reconnect of level 4: its result, and the files and indexes it leaves. -/
def CChainState.verifyDB (ctx : ValidationContext) (env : VerifyEnv) (s : CChainState)
    (coinsview : CCoinsView) (nCheckLevel nCheckDepth : ℤ) :
    Except Fault (Except VerifyError Unit) × BlockStore :=
  match s.tip with
  | none => (.ok (.ok ()), s.store)
  | some tip =>
    match verifyBlocks ctx env (clampLevel nCheckLevel) (lowestHeight tip.nHeight nCheckDepth)
      tip ⟨.ofBase coinsview, tip, none, 0, s.store⟩ with
    | (.error (.error error), last) => (.ok (.error error), last.store)
    | (.error .shutdown, last) => (.ok (.ok ()), last.store)
    | (.error (.fault fault), last) => (.error fault, last.store)
    | (.ok _, last) =>
      match last.pindexFailure with
      | some pindex =>
        (.ok (.error (.coinDatabaseInconsistencies pindex.nHeight)), last.store)
      | none => (.ok (.ok ()), last.store)

/-- The undo data of the block can be applied to the coins the block left. An input listed again
has a record without a height, which another unspent output of the transaction has to tell. -/
def BlockStore.undoable (store : BlockStore) (pindex : CBlockIndex) : Bool :=
  match store.readBlockFromDisk pindex with
  | none => false
  | some block =>
    (completeUndo store block pindex (utxoAt store.readBlockFromDisk pindex)).isSome

/-- The block can be disconnected in memory. -/
def VerifyEnv.Takes (env : VerifyEnv) (store : BlockStore) (nCheckLevel : ℤ)
    (pindex : CBlockIndex) : Prop :=
  3 ≤ nCheckLevel ∧ env.badUndo pindex = false ∧ env.memoryFits pindex = true ∧
    store.undoable pindex = true

instance (env : VerifyEnv) (store : BlockStore) (nCheckLevel : ℤ) (pindex : CBlockIndex) :
    Decidable (env.Takes store nCheckLevel pindex) :=
  inferInstanceAs (Decidable (_ ∧ _))

/-- The blocks disconnected in memory, the tip first. After a skipped block there are none. -/
def VerifyEnv.takenBack (env : VerifyEnv) (store : BlockStore) (nCheckLevel lowest : ℤ) :
    CBlockIndex → List CBlockIndex
  | .genesis _ _ => []
  | .child pprev hash time =>
    let pindex := child pprev hash time
    if (pindex.nHeight : ℤ) < lowest ∨ env.pruned pindex = true then
      []
    else if ¬ env.Takes store nCheckLevel pindex then
      []
    else if env.shutdownRequested pindex then
      [pindex]
    else
      pindex :: env.takenBack store nCheckLevel lowest pprev

/-- What `VerifyDB` disconnects in memory. -/
def CChainState.verifiedBack (s : CChainState) (env : VerifyEnv) (nCheckLevel nCheckDepth : ℤ) :
    List CBlockIndex :=
  match s.tip with
  | none => []
  | some tip =>
    env.takenBack s.store (clampLevel nCheckLevel) (lowestHeight tip.nHeight nCheckDepth) tip

variable {nCheckLevel : ℤ} {block : CBlock} {env : VerifyEnv} {store : BlockStore}
  {pindex pprev : CBlockIndex} {s : VerifyState} {options : IndexOptions}

/-- A block the scratch coins do not stand at is only looked at. -/
theorem verifyDisconnect_of_skipped
    (hskipped : ¬ (3 ≤ nCheckLevel ∧ pindex = s.pindexState ∧ env.memoryFits pindex = true)) :
    verifyDisconnect options env nCheckLevel block pindex pprev s = (.ok (), s) := by
  rw [verifyDisconnect, if_neg hskipped]

theorem verifyBlock_of_skipped {ctx : ValidationContext}
    (hskipped : ¬ (3 ≤ nCheckLevel ∧ pindex = s.pindexState ∧ env.memoryFits pindex = true)) :
    (verifyBlock ctx env nCheckLevel pindex pprev s).2 = s := by
  unfold verifyBlock
  split
  · rfl
  · split
    · rfl
    · split
      · rfl
      · rw [verifyDisconnect_of_skipped hskipped]

variable {lowest : ℤ}

/-- Below the block of the scratch coins nothing is disconnected. -/
theorem verifyBlocks_of_below {ctx : ValidationContext}
    (hbelow : pindex.nHeight < s.pindexState.nHeight) :
    (verifyBlocks ctx env nCheckLevel lowest pindex s).2 = s := by
  induction pindex with
  | genesis hash time => rfl
  | child pprev hash time ih =>
    rw [verifyBlocks]
    split
    · rfl
    · have hne : child pprev hash time ≠ s.pindexState := by
        intro heq
        rw [heq] at hbelow
        exact lt_irrefl _ hbelow
      have hkept : (verifyBlock ctx env nCheckLevel (.child pprev hash time) pprev s).2 = s :=
        verifyBlock_of_skipped fun hall => hne hall.2.1
      rcases hrun : verifyBlock ctx env nCheckLevel (.child pprev hash time) pprev s with
        ⟨stop | _, last⟩
      · rw [hrun] at hkept
        exact hkept
      · rw [hrun] at hkept
        obtain rfl : last = s := hkept
        simp only
        split
        · rfl
        · refine ih ?_
          rw [nHeight] at hbelow
          omega

section Consistent

variable {ctx : ValidationContext} {store : BlockStore} {pprev pindex : CBlockIndex}
  {s : VerifyState}

/-- What level 3 did to a connected block at the scratch coins. -/
structure VerifyState.TookBack (options : IndexOptions) (store : BlockStore)
    (pprev pindex : CBlockIndex) (s s' : VerifyState) : Prop where
  wf : s'.coins.Wf
  utxo : s'.coins.utxo = utxoAt store.readBlockFromDisk pprev
  best : s'.coins.layer.hashBlock = pindex.hashPrevBlock
  state : s'.pindexState = pprev
  files : s.store.SameFiles s'.store
  blocktree : s'.store.blocktree =
    s.store.blocktree.writeDisconnected options (blockUnindex options store pindex)

variable {vtxundo : List CTxUndo}

section

variable (options : IndexOptions) (hhistory : BlockHistory store pprev pindex block vtxundo)
  (hsound : Sound (utxoAt store.readBlockFromDisk pprev)) (hfiles : store.SameFiles s.store)
  (hwf : s.coins.Wf) (hutxo : s.coins.utxo = utxoAt store.readBlockFromDisk pindex)

include hhistory hsound hfiles hwf hutxo

/-- A connected block is disconnected if its undo data can be applied; otherwise nothing is
written. -/
theorem disconnectBlock_of_connected : ∃ done,
    disconnectBlock options s.store block pindex s.coins.getBestBlock.2 = .ok done ∧
      (store.undoable pindex = true →
        BlockDisconnected options s.store block pindex (none :: vtxundo.map some)
          s.coins.getBestBlock.2 done) ∧
      (store.undoable pindex = false → done.result = .failed ∧ done.store = s.store) := by
  obtain ⟨hsame, hwf', -⟩ := getBestBlock_spec hwf
  have hrec := hhistory.recorded hsound (congrFun hfiles.undo pindex)
  have hundoable : store.undoable pindex =
      (completeUndo s.store block pindex s.coins.getBestBlock.2.utxo).isSome := by
    rw [hsame, hutxo, hrec.completeUndo_eq, ← (hhistory.recorded hsound rfl).completeUndo_eq]
    simp [BlockStore.undoable, hhistory.read]
  have hspendable := fun blockUndo hundo txundo htx coin hcoin =>
    (hrec.of_mem blockUndo hundo txundo htx coin hcoin).2
  obtain ⟨done, hdone⟩ := disconnectBlock_ok hwf' hspendable options
    (fun blockUndo hundo txundo htx coin hcoin =>
      (hrec.of_mem blockUndo hundo txundo htx coin hcoin).1) block
  refine ⟨done, hdone, ?_⟩
  rcases (disconnectBlock_spec hwf' hspendable hdone).2 with
    ⟨hnone, hfail, hkept⟩ | ⟨undos, hundos, hdiscd⟩
  · rw [hundoable, hnone]
    exact ⟨nofun, fun _ => ⟨hfail, hkept⟩⟩
  · rw [hundoable, hundos]
    exact ⟨fun _ => (hrec.disconnected hwf' hdone).2 hdiscd.result, nofun⟩

variable (hlevel : 3 ≤ nCheckLevel) (hst : pindex = s.pindexState)
  (hfits : env.memoryFits pindex = true)

include hlevel hst hfits

theorem verifyDisconnect_spec (hbest : s.coins.getBestBlock.1 = pindex.getBlockHash)
    (hundoable : store.undoable pindex = true) :
    ∃ s', verifyDisconnect options env nCheckLevel block pindex pprev s = (.ok (), s') ∧
      s.TookBack options store pprev pindex s' := by
  obtain ⟨done, hdone, hdiscd, -⟩ :=
    disconnectBlock_of_connected options hhistory hsound hfiles hwf hutxo
  have hdiscd := hdiscd hundoable
  have hstore := hdiscd.store_eq
  have hunindex : blockUnindex options store pindex = unindexTxs options pindex.nHeight 0
      block.vtx (none :: vtxundo.map some) := by
    simp only [blockUnindex, hhistory.read, hhistory.undo]
  have hafter : done.view.utxo = utxoAt store.readBlockFromDisk pprev := by
    have hundone := hhistory.apply_blockUndoWrites
    simp only [blockUndoWrites, hhistory.read, hhistory.undo] at hundone
    rw [hdiscd.utxo, (getBestBlock_spec hwf).1, hutxo, hundone]
  rw [verifyDisconnect, if_pos ⟨hlevel, hst, hfits⟩]
  simp only [hbest, ne_eq, not_true_eq_false, if_false, hdone]
  have hres := hdiscd.result
  cases hcase : done.result with
  | failed => exact absurd hcase hres
  | unclean | ok =>
    exact ⟨_, rfl, hdiscd.wf, hafter, hdiscd.hashBlock, rfl,
      ⟨by rw [hstore], by rw [hstore]⟩, by rw [hunindex, hstore]⟩

/-- Undo data that cannot be applied stops the check. -/
theorem verifyDisconnect_of_not_undoable (hundoable : store.undoable pindex = false) :
    ∃ stop s', verifyDisconnect options env nCheckLevel block pindex pprev s =
      (.error stop, s') ∧ s'.store = s.store := by
  obtain ⟨done, hdone, -, hfail⟩ :=
    disconnectBlock_of_connected options hhistory hsound hfiles hwf hutxo
  obtain ⟨hres, hkept⟩ := hfail hundoable
  rw [verifyDisconnect, if_pos ⟨hlevel, hst, hfits⟩]
  simp only
  split
  · exact ⟨_, _, rfl, rfl⟩
  · simp only [hdone, hres]
    exact ⟨_, _, rfl, hkept⟩

end

section

variable (hprev : pindex.pprev = some pprev)
  (hconnected : ConnectedBlock ctx store pprev pindex block)

include hprev hconnected

omit hprev in
theorem verifyBlock_of_connected (hfiles : store.SameFiles s.store) :
    verifyBlock ctx env nCheckLevel pindex pprev s =
      if 2 ≤ nCheckLevel ∧ env.badUndo pindex = true then
        (.error (.error (.foundBadUndoData pindex.nHeight)), s)
      else verifyDisconnect ctx.options env nCheckLevel block pindex pprev s := by
  obtain ⟨view, view', before, after, -, -, hconn, -⟩ := hconnected.accepted
  have hcheck := (of_connectBlock hconn).2.1
  have hread := hconnected.read
  rw [← hfiles.read] at hread
  simp only [verifyBlock, hread, hcheck, ite_self]

section

variable (hchain : ConnectedChain ctx store pprev) (hfiles : store.SameFiles s.store)
  (hwf : s.coins.Wf) (hutxo : s.coins.utxo = utxoAt store.readBlockFromDisk pindex)
  (hst : pindex = s.pindexState)

include hchain hfiles hwf hutxo hst

theorem verifyBlock_of_takes (hbest : s.coins.getBestBlock.1 = pindex.getBlockHash)
    (htakes : env.Takes store nCheckLevel pindex) :
    ∃ s', verifyBlock ctx env nCheckLevel pindex pprev s = (.ok (), s') ∧
      s.TookBack ctx.options store pprev pindex s' := by
  obtain ⟨hlevel, hundo, hfits, hundoable⟩ := htakes
  obtain ⟨vtxundo, hhistory⟩ := hconnected.history hprev
  rw [verifyBlock_of_connected hconnected hfiles, if_neg (by simp [hundo])]
  exact verifyDisconnect_spec ctx.options hhistory hchain.sound hfiles hwf hutxo hlevel hst hfits
    hbest hundoable

/-- A block not taken back ends the check or is only looked at. -/
theorem verifyBlock_of_not_takes (htakes : ¬ env.Takes store nCheckLevel pindex) :
    (∃ stop s', verifyBlock ctx env nCheckLevel pindex pprev s = (.error stop, s') ∧
        s'.store = s.store) ∨
      verifyBlock ctx env nCheckLevel pindex pprev s = (.ok (), s) := by
  obtain ⟨vtxundo, hhistory⟩ := hconnected.history hprev
  rw [verifyBlock_of_connected hconnected hfiles]
  split_ifs with hbad
  · exact .inl ⟨_, _, rfl, rfl⟩
  · by_cases hwould : 3 ≤ nCheckLevel ∧ pindex = s.pindexState ∧ env.memoryFits pindex = true
    · obtain ⟨hlevel, -, hfits⟩ := hwould
      have hundo : env.badUndo pindex = false := by
        by_contra hnot
        exact hbad ⟨by omega, by simpa using hnot⟩
      have hundoable : store.undoable pindex = false := by
        by_contra hnot
        exact htakes ⟨hlevel, hundo, hfits, by simpa using hnot⟩
      exact .inl (verifyDisconnect_of_not_undoable ctx.options hhistory hchain.sound hfiles hwf
        hutxo hlevel hst hfits hundoable)
    · exact .inr (verifyDisconnect_of_skipped hwould)

end

end

theorem verifyBlocks_blocktree (env : VerifyEnv) (nCheckLevel lowest : ℤ) {tip : CBlockIndex}
    (hchain : ConnectedChain ctx store tip)
    (hhashes : ∀ pindex ∈ tip.ancestors, pindex.getBlockHash.isNull = false)
    (hfiles : store.SameFiles s.store) (hwf : s.coins.Wf)
    (hutxo : s.coins.utxo = utxoAt store.readBlockFromDisk tip)
    (hbest : s.coins.getBestBlock.1 = tip.getBlockHash) (hst : tip = s.pindexState) :
    (verifyBlocks ctx env nCheckLevel lowest tip s).2.store.blocktree =
      unindexBlocks ctx.options store s.store.blocktree
        (env.takenBack store nCheckLevel lowest tip) := by
  induction tip generalizing s with
  | genesis hash time => rfl
  | child pprev hash time ih =>
    obtain ⟨block, hconnected⟩ := hchain _ (ancestors_self _) pprev rfl
    have hmem : pprev ∈ (child pprev hash time).ancestors :=
      mem_cons_of_mem _ (ancestors_self pprev)
    rw [verifyBlocks, VerifyEnv.takenBack]
    by_cases hend : ((child pprev hash time).nHeight : ℤ) < lowest ∨
        env.pruned (.child pprev hash time) = true
    · rw [if_pos hend, if_pos hend]
      rfl
    rw [if_neg hend, if_neg hend]
    by_cases htakes : env.Takes store nCheckLevel (.child pprev hash time)
    · obtain ⟨s', hrun, htook⟩ := verifyBlock_of_takes rfl hconnected
        (hchain.of_mem hmem) hfiles hwf hutxo hst hbest htakes
      rw [hrun]
      simp only
      split
      · exact htook.blocktree
      · have hhash : s'.coins.layer.hashBlock = pprev.getBlockHash := htook.best
        have hbest' : s'.coins.getBestBlock.1 = pprev.getBlockHash := by
          rw [getBestBlock_of_hashBlock (hhash ▸ hhashes pprev hmem)]
          exact hhash
        rw [unindexBlocks, foldl_cons, ← htook.blocktree]
        exact ih (hchain.of_mem hmem) (forall_mem_cons.1 hhashes).2
          ⟨htook.files.blocks.trans hfiles.blocks, htook.files.undo.trans hfiles.undo⟩
          htook.wf htook.utxo hbest' htook.state.symm
    · rw [if_pos htakes]
      rcases verifyBlock_of_not_takes rfl hconnected (hchain.of_mem hmem) hfiles hwf hutxo hst
        htakes with
        ⟨stop, s', hrun, hkept⟩ | hrun
      · rw [hrun]
        exact congrArg BlockStore.blocktree hkept
      · -- the scratch coins now stay above the blocks that are looked at
        rw [hrun]
        simp only
        split
        · rfl
        · rw [verifyBlocks_of_below (by rw [← hst]; exact Nat.lt_succ_self _)]
          rfl

end Consistent

theorem VerifyEnv.of_mem_takenBack {tip : CBlockIndex}
    (hmem : pindex ∈ env.takenBack store nCheckLevel lowest tip) :
    pindex ∈ tip.ancestors ∧ ∃ pprev, pindex.pprev = some pprev := by
  induction tip with
  | genesis hash time => cases hmem
  | child pprev hash time ih =>
    rw [VerifyEnv.takenBack] at hmem
    split at hmem
    · cases hmem
    split at hmem
    · cases hmem
    have hfst := ancestors_self (.child pprev hash time)
    split at hmem
    · obtain rfl := mem_singleton.1 hmem
      exact ⟨hfst, pprev, rfl⟩
    · rcases mem_cons.1 hmem with rfl | hbelow
      · exact ⟨hfst, pprev, rfl⟩
      · obtain ⟨hanc, hrest⟩ := ih hbelow
        exact ⟨mem_cons_of_mem _ hanc, hrest⟩

theorem unindexBlocks_of_off (hoff : options.fAddressIndex = false) (store : BlockStore)
    (db : CBlockTreeDB) (pindexes : List CBlockIndex) :
    unindexBlocks options store db pindexes = db := by
  induction pindexes generalizing db with
  | nil => rfl
  | cons pindex rest ih =>
    rw [unindexBlocks, foldl_cons, CBlockTreeDB.writeDisconnected, if_neg (by simp [hoff])]
    exact ih db

theorem unindexBlocks_eq_self (hon : options.fAddressIndex = true) {db : CBlockTreeDB}
    {pindexes : List CBlockIndex}
    (hempty : ∀ pindex ∈ pindexes, (blockUnindex options store pindex).addressIndex = [] ∧
      (blockUnindex options store pindex).addressUnspentIndex = []) :
    unindexBlocks options store db pindexes = db := by
  induction pindexes with
  | nil => rfl
  | cons pindex rest ih =>
    obtain ⟨hhistory, hunspent⟩ := hempty pindex mem_cons_self
    have hfst : db.writeDisconnected options (blockUnindex options store pindex) = db := by
      have hundoes : (blockUnindex options store pindex).Undoes [] := by
        constructor
        · rw [hhistory]
          rfl
        · rw [hunspent]
          rfl
      rw [CBlockTreeDB.writeDisconnected_eq_self_iff hon hundoes]
      exact ⟨nofun, nofun⟩
    rw [unindexBlocks, foldl_cons, hfst]
    exact ih (forall_mem_cons.1 hempty).2

/-- A block without history changes no address index. -/
theorem BlockHistory.blockUnindex_of_no_event (hon : options.fAddressIndex = true)
    {vtxundo : List CTxUndo} (hhistory : BlockHistory store pprev pindex block vtxundo)
    (hnone : ∀ key amount, ¬ BlockEvent store.readBlockFromDisk pindex key amount) :
    (blockUnindex options store pindex).addressIndex = [] ∧
      (blockUnindex options store pindex).addressUnspentIndex = [] := by
  constructor
  · refine eq_nil_iff_forall_not_mem.2 fun change hchange => ?_
    have hmem := mem_map_of_mem (f := Prod.fst) hchange
    rw [hhistory.blockUnindex_eq,
      mem_unindexTxs_history hhistory.pprev_eq hhistory.read hhistory.fits hon] at hmem
    obtain ⟨⟨amount, hevent⟩, -⟩ := hmem
    exact hnone change.1 amount hevent
  · refine eq_nil_iff_forall_not_mem.2 fun change hchange => ?_
    have htouches : BlockTouches store.readBlockFromDisk pindex change.1 := by
      rw [← hhistory.mem_keys_blockUnindex hon]
      exact mem_map_of_mem (mem_map_of_mem hchange)
    generalize change.1 = key at htouches
    cases htouches with
    | made hmade haddr => exact hnone _ _ (.received hmade haddr)
    | spent hspent haddr => exact hnone _ _ (.spent hspent haddr)

/-- A node with a connected chain, address indexes that show it and coins at its tip. -/
structure VerifySetting (ctx : ValidationContext) (s : CChainState) (coinsview : CCoinsView) :
    Prop where
  chain : ∀ tip, s.tip = some tip → ConnectedChain ctx s.store tip
  hashes : ∀ pindex ∈ activeChain s.tip, pindex.getBlockHash.isNull = false
  indexes : ctx.options.fAddressIndex = true →
    s.store.blocktree.IndexesAddresses s.store.readBlockFromDisk s.tip
  coins : coinsview.Wf
  utxo : coinsview.utxo = utxoAtTip s.store.readBlockFromDisk s.tip
  best : ∀ tip, s.tip = some tip → (ofBase coinsview).getBestBlock.1 = tip.getBlockHash

section Setting

variable {ctx : ValidationContext} {s : CChainState} {coinsview : CCoinsView} {env : VerifyEnv}
  {nCheckLevel nCheckDepth : ℤ} (hsetting : VerifySetting ctx s coinsview)

include hsetting

theorem verifyDB_blocktree :
    (s.verifyDB ctx env coinsview nCheckLevel nCheckDepth).2.blocktree =
      unindexBlocks ctx.options s.store s.store.blocktree
        (s.verifiedBack env nCheckLevel nCheckDepth) := by
  unfold CChainState.verifyDB CChainState.verifiedBack
  cases htip : s.tip with
  | none => rfl
  | some tip =>
    have hhashes : ∀ pindex ∈ tip.ancestors, pindex.getBlockHash.isNull = false := by
      have hall := hsetting.hashes
      rw [htip] at hall
      exact hall
    have hloop := verifyBlocks_blocktree env (clampLevel nCheckLevel)
      (lowestHeight tip.nHeight nCheckDepth) (hsetting.chain tip htip) hhashes
      (s := ⟨.ofBase coinsview, tip, none, 0, s.store⟩) ⟨rfl, rfl⟩
      (ofBase_wf hsetting.coins) (hsetting.utxo.trans (by rw [htip]; rfl))
      (hsetting.best tip htip) rfl
    simp only
    rw [← hloop]
    split
    · next heq => rw [heq]
    · next heq => rw [heq]
    · next heq => rw [heq]
    · next heq =>
      rw [heq]
      split <;> rfl

theorem history_of_mem_verifiedBack (hmem : pindex ∈ s.verifiedBack env nCheckLevel nCheckDepth) :
    pindex ∈ activeChain s.tip ∧
      ∃ pprev block vtxundo, BlockHistory s.store pprev pindex block vtxundo := by
  unfold CChainState.verifiedBack at hmem
  cases htip : s.tip with
  | none => simp [htip] at hmem
  | some tip =>
    simp only [htip] at hmem
    obtain ⟨hanc, pprev, hprev⟩ := VerifyEnv.of_mem_takenBack hmem
    obtain ⟨block, hconnected⟩ := hsetting.chain tip htip pindex hanc pprev hprev
    obtain ⟨vtxundo, hhistory⟩ := hconnected.history hprev
    exact ⟨hanc, pprev, block, vtxundo, hhistory⟩

/-- `VerifyDB` leaves the index database as it is exactly if there is no address
index or the blocks that are disconnected in memory have no history entries. -/
theorem verifyDB_keeps_indexes_iff :
    (s.verifyDB ctx env coinsview nCheckLevel nCheckDepth).2.blocktree = s.store.blocktree ↔
      ctx.options.fAddressIndex = false ∨
        ∀ pindex ∈ s.verifiedBack env nCheckLevel nCheckDepth,
          ∀ key amount, ¬ BlockEvent s.store.readBlockFromDisk pindex key amount := by
  rw [verifyDB_blocktree hsetting]
  cases hon : ctx.options.fAddressIndex with
  | false => simp [unindexBlocks_of_off hon]
  | true =>
    simp only [Bool.true_eq_false, false_or]
    constructor
    · intro hkept pindex hmem key amount hevent
      obtain ⟨hactive, pprev, block, vtxundo, hhistory⟩ :=
        history_of_mem_verifiedBack hsetting hmem
      -- the coin of an input listed again has its event where it is listed first
      obtain ⟨key, amount, hevent, hfst⟩ := hevent.first
      have herased : key ∈ erasedHistory ctx.options s.store
          (s.verifiedBack env nCheckLevel nCheckDepth) := by
        refine mem_flatMap.2 ⟨pindex, hmem, ?_⟩
        rw [hhistory.blockUnindex_eq]
        exact (mem_unindexTxs_history hhistory.pprev_eq hhistory.read hhistory.fits hon).2
          ⟨⟨amount, hevent⟩, hfst⟩
      have hpre := ((hsetting.indexes hon).history key amount).2 ⟨pindex, hactive, hevent⟩
      have hafter := congrFun (content_unindexBlocks_address hon s.store s.store.blocktree
        (s.verifiedBack env nCheckLevel nCheckDepth)) key
      rw [WriteLog.apply_erases_of_mem herased, hkept] at hafter
      cases hpre.symm.trans hafter
    · intro hnone
      refine unindexBlocks_eq_self hon fun pindex hmem => ?_
      obtain ⟨-, pprev, block, vtxundo, hhistory⟩ := history_of_mem_verifiedBack hsetting hmem
      exact hhistory.blockUnindex_of_no_event hon (hnone pindex hmem)

end Setting

namespace VerifyDBWitness

open UndoInverseWitness CrashRecoveryWitness IndexReplayWitness DisconnectAtomicWitness

def checkedNode : CChainState := ⟨.ofBase (.db (database 2)), some (index 2), indexedFiles⟩

theorem checkedNode_setting : VerifySetting ctx checkedNode (.db (database 2)) where
  chain := by
    rintro tip ⟨⟩
    have hchain : ConnectedChain ctx indexedFiles (index 2) :=
      connectedChain_index (fun _ => rfl) indexedFiles.blocktree (by decide)
    exact hchain
  hashes := by decide
  indexes _ := indexes_indexedFiles
  coins := trivial
  utxo := by
    have hutxo : utxoAt indexedFiles.readBlockFromDisk (index 2) = (database 2).utxo :=
      utxoAt_index (fun _ => rfl) indexedFiles.blocktree 2
    exact hutxo.symm
  best := by
    rintro tip ⟨⟩
    rfl

def nothingMissing : VerifyEnv :=
  ⟨fun _ => false, fun _ => false, fun _ => true, fun _ => false⟩

theorem verifyDB_keeps_indexes_iff_level_two :
    (checkedNode.verifyDB ctx nothingMissing (.db (database 2)) 2 6).2.blocktree =
      checkedNode.store.blocktree := by
  refine (verifyDB_keeps_indexes_iff checkedNode_setting).2 (.inr ?_)
  have hnone : checkedNode.verifiedBack nothingMissing 2 6 = [] := by decide +kernel
  simp [hnone]

/-- The default check at the start of a consistent node passes and erases the
history of the last blocks. -/
theorem start_check_erases_history :
    VerifySetting ctx checkedNode (.db (database 2)) ∧
      (checkedNode.verifyDB ctx nothingMissing (.db (database 2)) 3 6).1 matches .ok (.ok _) ∧
      (checkedNode.verifyDB ctx nothingMissing (.db (database 2)) 3 6).2.blocktree ≠
        checkedNode.store.blocktree := by
  have hpre : checkedNode.store.blocktree.addressIndex.lookup mintKey = some 0 := by
    decide +kernel
  have hafter : (checkedNode.verifyDB ctx nothingMissing (.db (database 2)) 3 6
      ).2.blocktree.addressIndex.lookup mintKey = none := by
    decide +kernel
  refine ⟨checkedNode_setting, by decide +kernel, ?_⟩
  intro hsame
  rw [hsame, hpre] at hafter
  cases hafter

end VerifyDBWitness

end Catoshi
