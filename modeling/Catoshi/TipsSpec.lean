/-
What a move of the tip does to the coins: while none is overwritten they are those of the active
chain.
-/
import Catoshi.CoinsFlush
import Catoshi.ReplaySpec
import Catoshi.Tips

namespace Catoshi

open CCoinsViewCache CBlockIndex BlockStore

namespace CChainState

variable {env : FlushEnv} {s s' : CChainState} {view : CCoinsViewCache}
  {store : BlockStore} {tip : Option CBlockIndex} {ctx : ValidationContext}
  {options : IndexOptions} {start : CChainState} {steps : List (CChainState × TipCall)}

/-- What a successful move of the tip went through. -/
theorem of_moveTip (hmove : s.moveTip env view store tip = .ok (.ok (), s')) :
    s'.tip = tip ∧ s'.store = store ∧ ∃ flushed, view.flush = (.ok (), flushed) ∧
      (s.leave flushed store).pcoinsTip.flushStateToDisk env = .ok (.ok (), s'.pcoinsTip) := by
  unfold moveTip at hmove
  split at hmove
  · cases hmove
  · next flushed hflush =>
    have hstore : (s.leave flushed store).store = store := by
      unfold leave
      split <;> rfl
    simp only at hmove
    split at hmove
    · cases hmove
    · cases hmove
    · next pcoinsTip hdisk =>
      cases hmove
      exact ⟨rfl, hstore, flushed, hflush, hdisk⟩

theorem result_of_moveTip {result : Except TipError Unit}
    (hmove : s.moveTip env view store tip = .ok (result, s')) :
    result = .ok () ∨ result = .error .outOfDiskSpace := by
  unfold moveTip at hmove
  split at hmove
  · cases hmove
  · simp only at hmove
    split at hmove
    · cases hmove
    · next error pcoinsTip hdisk =>
      cases hmove
      unfold flushStateToDisk at hdisk
      split at hdisk
      · split at hdisk
        · split at hdisk <;> cases hdisk
        · cases hdisk
          exact Or.inr rfl
      · cases hdisk
    · cases hmove
      exact Or.inl rfl

theorem of_connectTip {pindexNew : CBlockIndex} {pblock : Option CBlock}
    (hconn : s.connectTip ctx env pindexNew pblock = .ok (.ok (), s')) :
    pindexNew.pprev = s.tip ∧ ∃ block view store,
      pblock.or (s.store.readBlockFromDisk pindexNew) = some block ∧
      connectBlock ctx s.store block pindexNew s.scratch false = .ok (view, store) ∧
      s.moveTip env view store (some pindexNew) = .ok (.ok (), s') := by
  unfold connectTip at hconn
  split_ifs at hconn with hprev
  split at hconn
  · cases hconn
  · next block hblk =>
    split at hconn
    · cases hconn
    · cases hconn
    · next view store hrun =>
      exact ⟨not_not.1 hprev, block, view, store, hblk, hrun, hconn⟩

theorem of_disconnectTip (hdisc : s.disconnectTip options env = .ok (.ok (), s')) :
    ∃ pindexDelete block done, s.tip = some pindexDelete ∧
      s.store.readBlockFromDisk pindexDelete = some block ∧
      disconnectBlock options s.store block pindexDelete s.scratch.getBestBlock.2 = .ok done ∧
      done.result = .ok ∧
      s.moveTip env done.view done.store pindexDelete.pprev = .ok (.ok (), s') := by
  unfold disconnectTip at hdisc
  split at hdisc
  · cases hdisc
  · next pindexDelete htip =>
    split at hdisc
    · cases hdisc
    · next block hblk =>
      simp only at hdisc
      split at hdisc
      · cases hdisc
      · split at hdisc
        · cases hdisc
        · next done hdone =>
          split_ifs at hdisc with hres
          · cases hdisc
          · exact ⟨pindexDelete, block, done, htip, hblk, hdone, not_not.1 hres, hdisc⟩

theorem sameFiles_of_disconnectBlock {block : CBlock} {pindex : CBlockIndex} {done : Disconnected}
    (hdone : disconnectBlock options store block pindex view = .ok done) :
    store.SameFiles done.store := by
  rcases of_disconnectBlock hdone with ⟨-, hstore⟩ | ⟨blockUndo, s, -, -, -, -, rfl⟩
  · rw [hstore]
    exact ⟨rfl, rfl⟩
  · exact ⟨rfl, rfl⟩

/-- Moving the tip leaves the block files alone. -/
theorem blocks_of_call {call : TipCall} (hcall : s.call ctx call = .ok (.ok (), s')) :
    s'.store.blocks = s.store.blocks := by
  cases call with
  | connect env pindexNew pblock =>
    obtain ⟨-, block, view, store, -, hconn, hmove⟩ := of_connectTip hcall
    obtain ⟨-, hstore, -⟩ := of_moveTip hmove
    rw [hstore]
    exact blocks_of_connectBlock hconn
  | disconnect env =>
    obtain ⟨pindex, block, done, -, -, hdone, -, hmove⟩ := of_disconnectTip hcall
    obtain ⟨-, hstore, -⟩ := of_moveTip hmove
    rw [hstore]
    exact (sameFiles_of_disconnectBlock hdone).blocks

theorem Trace.blocks (htrace : Trace ctx start steps s) : s.store.blocks = start.store.blocks := by
  induction htrace with
  | start => rfl
  | step htrace hcall ih => rw [blocks_of_call hcall, ih]

theorem Trace.blocks_of_mem {step : CChainState × TipCall} (htrace : Trace ctx start steps s)
    (hstep : step ∈ steps) : step.1.store.blocks = start.store.blocks := by
  induction htrace with
  | start => cases hstep
  | step htrace _ ih =>
    rcases List.mem_cons.1 hstep with rfl | hold
    · exact htrace.blocks
    · exact ih hold

theorem Trace.run {allowed : CChainState → TipCall → Prop} (htrace : Trace ctx start steps s)
    (hallowed : ∀ step ∈ steps, allowed step.1 step.2) : Run ctx allowed start s := by
  induction htrace with
  | start => exact .start
  | step htrace hcall ih =>
    exact .step (ih (List.forall_mem_cons.1 hallowed).2) (hallowed _ List.mem_cons_self) hcall

/-- The scratch cache sits on a cache over the database. -/
theorem base_of_stays {pcoinsTip : CCoinsViewCache} (hbase : ∃ db, pcoinsTip.base = .db db)
    {view : CCoinsView} (hstays : pcoinsTip.toView.Stays view) :
    ∃ layer db, view = .cache layer (.db db) := by
  obtain ⟨db, hdb⟩ := hbase
  have hdepth := hstays.depth
  simp only [toView, hdb, CCoinsView.hashes, List.length_cons, List.length_nil] at hdepth
  cases view with
  | db store => cases hdepth
  | cache layer base =>
    cases base with
    | db store => exact ⟨layer, store, rfl⟩
    | cache below bottom =>
      simp only [CCoinsView.hashes, List.length_cons] at hdepth
      omega

/-- The coins and best block of the scratch cache become the node's. -/
theorem moveTip_coins (hbase : ∃ db, s.pcoinsTip.base = .db db) (hwf : view.Wf)
    (hstays : s.pcoinsTip.toView.Stays view.base)
    (hmove : s.moveTip env view store tip = .ok (.ok (), s')) :
    s'.pcoinsTip.Wf ∧ (∃ db, s'.pcoinsTip.base = .db db) ∧
      s'.pcoinsTip.utxo = view.utxo ∧
      s'.pcoinsTip.layer.hashBlock = view.layer.hashBlock := by
  obtain ⟨-, -, flushed, hflush, hdisk⟩ := of_moveTip hmove
  obtain ⟨layer, db, hview⟩ := base_of_stays hbase hstays
  obtain ⟨below, hflushed, hutxo, hlower, hhash⟩ := flush_cache hwf hview
  rw [hflushed] at hflush
  cases hflush
  unfold flushStateToDisk at hdisk
  split at hdisk
  · split at hdisk
    · split at hdisk
      · cases hdisk
      · next pcoinsTip hwrite =>
        simp only [Except.ok.injEq, Prod.mk.injEq, true_and] at hdisk
        have hbelow : (⟨below, .db db⟩ : CCoinsViewCache).Wf := hlower
        obtain ⟨written, heq, hcoins, -, -⟩ := of_flush_db hbelow rfl hwrite
        rw [← hdisk, heq]
        exact ⟨flushed_wf trivial, ⟨written, rfl⟩, hcoins.trans hutxo, hhash⟩
    · cases hdisk
  · simp only [Except.ok.injEq, Prod.mk.injEq, true_and] at hdisk
    rw [← hdisk]
    exact ⟨hlower, ⟨db, rfl⟩, hutxo, hhash⟩

end CChainState

variable {block : CBlock} {store : BlockStore} {pindex pprev : CBlockIndex}
  {ctx : ValidationContext}

/-- A connected block stays one while its files stay. -/
theorem ConnectedBlock.of_files {store' : BlockStore}
    (hconnd : ConnectedBlock ctx store pprev pindex block)
    (hblocks : store'.blocks = store.blocks) (hundo : store'.undo pindex = store.undo pindex) :
    ConnectedBlock ctx store' pprev pindex block := by
  have hread := readBlockFromDisk_congr hblocks
  obtain ⟨hf, hgen, hbip30, haccepted⟩ := hconnd
  constructor
  · rw [hread]
    exact hf
  · exact hgen
  · rw [hread]
    exact hbip30
  · rw [hread, hundo]
    exact haccepted

/-- The coins are those of the active chain, and blocks with undo data, among them the active ones,
have been connected. -/
structure CChainState.OnChain (ctx : ValidationContext) (s : CChainState) : Prop where
  wf : s.pcoinsTip.Wf
  base : ∃ db, s.pcoinsTip.base = .db db
  utxo : s.pcoinsTip.utxo = utxoAtTip s.store.readBlockFromDisk s.tip
  recorded : ∀ pindex, s.store.undo pindex ≠ none → ∃ pprev block,
    pindex.pprev = some pprev ∧ ConnectedBlock ctx s.store pprev pindex block
  active : ∀ pindex ∈ activeChain s.tip, pindex.pprev ≠ none → s.store.undo pindex ≠ none

variable {other : CBlockIndex} {blocks : CBlockIndex → Option CBlock}

theorem BlockStore.undo_writeUndo (store : BlockStore) (blockundo : CBlockUndo)
    (pindex other : CBlockIndex) : (store.writeUndoDataForBlock blockundo pindex).undo other =
      if other = pindex then some ((store.undo pindex).getD blockundo.reread)
      else store.undo other := by
  unfold writeUndoDataForBlock
  split
  · next hsome => by_cases heq : other = pindex <;> simp [heq, hsome]
  · next hno => simp [Function.update_apply, hno]

/-- No two blocks of the chain have a txid in common. -/
def UniqueTxids (blocks : CBlockIndex → Option CBlock) (tip : CBlockIndex) : Prop :=
  ∀ low ∈ tip.ancestors, ∀ high ∈ tip.ancestors, low.nHeight < high.nHeight →
    ∀ before block, blocks low = some before → blocks high = some block →
      ∀ made ∈ before.vtx, ∀ tx ∈ block.vtx, made.getHash ≠ tx.getHash

/-- A coin of a chain is under the hash of its transaction. -/
theorem hash_of_utxoAt {tip : CBlockIndex} {o : COutPoint} (hcoin : (utxoAt blocks tip o).isSome) :
    ∃ pindex ∈ tip.ancestors, ∃ block, blocks pindex = some block ∧
      ∃ made ∈ block.vtx, made.getHash = o.hash := by
  induction tip with
  | genesis hash time => cases hcoin
  | child pprev hash time ih =>
    have hbelow : (utxoAt blocks pprev o).isSome → ∃ pindex ∈
        (child pprev hash time).ancestors, ∃ block, blocks pindex = some block ∧
          ∃ made ∈ block.vtx, made.getHash = o.hash := by
      intro hold
      obtain ⟨pindex, hmem, hrest⟩ := ih hold
      exact ⟨pindex, List.mem_cons_of_mem _ hmem, hrest⟩
    cases hblk : blocks (.child pprev hash time) with
    | none =>
      simp only [utxoAt, blockWrites, hblk, WriteLog.apply_nil] at hcoin
      exact hbelow hcoin
    | some block =>
      rw [utxoAt_child rfl hblk] at hcoin
      rcases known_of_afterTxs hcoin with hold | ⟨made, hmade, hkey⟩
      · exact hbelow hold
      · exact ⟨_, ancestors_self _, block, hblk, made, hmade,
          (CTransaction.hash_of_mem_keys_creates hkey).symm⟩

/-- With unique txids a block makes no existing coin. -/
theorem UniqueTxids.fresh (hunique : UniqueTxids blocks pindex) (hprev : pindex.pprev = some pprev)
    (hblk : blocks pindex = some block) :
    FreshOutputs pindex.nHeight (utxoAt blocks pprev) block.vtx := by
  intro tx htx o ho
  by_contra hcoin
  obtain ⟨low, hlow, before, hpre, made, hmade, hhash⟩ :=
    hash_of_utxoAt (Option.isSome_iff_ne_none.2 hcoin)
  have hheight := nHeight_le_of_mem hlow
  have hsame : made.getHash = tx.getHash := by
    rw [hhash, CTransaction.hash_of_mem_keys_creates ho]
  refine hunique low ?_ pindex (ancestors_self _) ?_ before block hpre hblk made hmade tx htx hsame
  · exact ancestors_trans hlow (mem_of_pprev hprev)
  · rw [nHeight_of_pprev hprev]
    omega

theorem spendable_utxoAt (blocks : CBlockIndex → Option CBlock) (tip : CBlockIndex) :
    SpendableCoins (utxoAt blocks tip) := by
  induction tip with
  | genesis hash time =>
    intro o coin hcoin
    cases hcoin
  | child pprev hash time ih =>
    cases hblk : blocks (.child pprev hash time) with
    | none => simpa only [utxoAt, blockWrites, hblk, WriteLog.apply_nil] using ih
    | some block =>
      rw [utxoAt_child rfl hblk]
      exact ih.afterTxs _ _

namespace CChainState

/-- What a successful `ConnectTip` did. The genesis block only becomes the tip. -/
inductive Connected (ctx : ValidationContext) (s s' : CChainState) (pindexNew : CBlockIndex) :
    Prop
  | genesis (hprev : pindexNew.pprev = none) (htip : s.tip = none) (hstore : s'.store = s.store)
  | block {pprev : CBlockIndex} {block : CBlock} (hprev : pindexNew.pprev = some pprev)
      (htip : s.tip = some pprev) (hread : s.store.readBlockFromDisk pindexNew = some block)
      (hchecked : block.Checked)
      (hfits : TxsFit pindexNew.nHeight (utxoAt s.store.readBlockFromDisk pprev) block.vtx)
      (hblocks : s'.store.blocks = s.store.blocks)
      (hblocktree : s'.store.blocktree = s.store.blocktree.writeConnected ctx.options pindexNew
        (indexTxs ctx.options pindexNew.nHeight 0 (utxoAt s.store.readBlockFromDisk pprev)
          block.vtx))

/-- What a successful `DisconnectTip` has done. -/
structure TipDisconnected (options : IndexOptions) (s s' : CChainState)
    (pprev pindexDelete : CBlockIndex) (block : CBlock) : Prop where
  tip : s.tip = some pindexDelete
  pprev_eq : pindexDelete.pprev = some pprev
  tip' : s'.tip = some pprev
  read : s.store.readBlockFromDisk pindexDelete = some block
  checked : block.Checked
  fits : TxsFit pindexDelete.nHeight (utxoAt s.store.readBlockFromDisk pprev) block.vtx
  distinct : DistinctInputs s.store pindexDelete
  files : s.store.SameFiles s'.store
  blocktree : s'.store.blocktree = s.store.blocktree.writeDisconnected options
    (unindexTxs options pindexDelete.nHeight 0 block.vtx
      (blockUndos pindexDelete.nHeight (utxoAt s.store.readBlockFromDisk pprev) block.vtx))

variable {env : FlushEnv} {s s' : CChainState} {pindexNew : CBlockIndex}

theorem OnChain.chain (hs : s.OnChain ctx) {tip : CBlockIndex} (htip : s.tip = some tip) :
    ConnectedChain ctx s.store tip := by
  intro pindex hmem pprev hprev
  have hundo := hs.active pindex (by rw [htip]; exact hmem) (by simp [hprev])
  obtain ⟨other, block, ho, hconnd⟩ := hs.recorded pindex hundo
  obtain rfl : pprev = other := Option.some.inj (hprev.symm.trans ho)
  exact ⟨block, hconnd⟩

theorem scratch_wf (hwf : s.pcoinsTip.Wf) : s.scratch.Wf :=
  ofBase_wf hwf

theorem scratch_utxo (s : CChainState) : s.scratch.utxo = s.pcoinsTip.utxo := rfl

variable {view : CCoinsViewCache} {pblock : Option CBlock}

/-- Connecting the genesis block on an empty chain. -/
theorem OnChain.connect_genesis (hs : s.OnChain ctx) (hprev : pindexNew.pprev = none)
    (htip : s.tip = none) (hwf : view.Wf) (hutxo : view.utxo = s.pcoinsTip.utxo)
    (hstays : s.pcoinsTip.toView.Stays view.base)
    (hmove : s.moveTip env view s.store (some pindexNew) = .ok (.ok (), s')) : s'.OnChain ctx := by
  obtain ⟨htip', hstore, -⟩ := of_moveTip hmove
  obtain ⟨hwf', hbase', hcoins, -⟩ := moveTip_coins hs.base hwf hstays hmove
  have hempty : utxoAtTip s.store.readBlockFromDisk (some pindexNew) = fun _ => none := by
    cases pindexNew with
    | genesis hash time => rfl
    | child pprev hash time => cases hprev
  refine ⟨hwf', hbase', ?_, ?_, ?_⟩
  · rw [hcoins, hutxo, hs.utxo, htip', hstore, hempty, htip]
    rfl
  · rw [hstore]
    exact hs.recorded
  · rw [htip']
    intro pindex hmem hsome
    rw [eq_of_mem_ancestors hprev hmem] at hsome
    exact absurd hprev hsome

theorem OnChain.connect_block (hs : s.OnChain ctx) (htip : s.tip = some pprev)
    (hprev : pindexNew.pprev = some pprev)
    (hread : s.store.readBlockFromDisk pindexNew = some block)
    (hgen : block.getHash ≠ ctx.params.hashGenesisBlock)
    (hbip30 : fEnforceBIP30 ctx.params pprev = true ∨
      FreshOutputs pindexNew.nHeight (utxoAt s.store.readBlockFromDisk pprev) block.vtx)
    (hconn : connectBlock ctx s.store block pindexNew s.scratch false = .ok (view, store))
    (hblk : BlockConnected ctx s.store block pprev pindexNew s.scratch view store)
    (hmove : s.moveTip env view store (some pindexNew) = .ok (.ok (), s')) : s'.OnChain ctx := by
  obtain ⟨htip', hstore, -⟩ := of_moveTip hmove
  obtain ⟨hwf', hbase', hcoins, -⟩ := moveTip_coins hs.base hblk.wf hblk.base hmove
  obtain ⟨vtxundo, hundo, -⟩ := hblk.undo
  have hpre : s.scratch.utxo = utxoAt s.store.readBlockFromDisk pprev := by
    rw [scratch_utxo, hs.utxo, htip]
    rfl
  have hfiles := readBlockFromDisk_congr hblk.blocks
  have hkept : ∀ other, s.store.undo other ≠ none → store.undo other = s.store.undo other := by
    intro other hsome
    rw [hundo, undo_writeUndo]
    split_ifs with heq
    · obtain ⟨undo, hhas⟩ := Option.ne_none_iff_exists'.1 hsome
      rw [← heq, hhas, Option.getD_some]
    · rfl
  refine ⟨hwf', hbase', ?_, ?_, ?_⟩
  · rw [hcoins, hblk.utxo, hpre, htip', hstore, hfiles]
    exact (utxoAt_child hprev hread).symm
  · rw [hstore]
    intro other hsome
    by_cases hold : s.store.undo other = none
    · -- the undo data has just been written
      by_cases hsame : other = pindexNew
      · subst hsame
        have hview : SpendableCoins s.pcoinsTip.utxo := by
          rw [← scratch_utxo, hpre]
          exact spendable_utxoAt _ _
        refine ⟨pprev, block, hprev, ?_, hgen, ?_, ?_⟩
        · rw [hfiles]
          exact hread
        · rw [hfiles]
          exact hbip30
        · rw [hfiles]
          exact ⟨⟨s.pcoinsTip, hs.wf, hview⟩, view, s.store, store, hpre, hold, hconn, rfl⟩
      · rw [hundo, undo_writeUndo, if_neg hsame] at hsome
        exact absurd hold hsome
    · obtain ⟨below, found, hbelow, hconnd⟩ := hs.recorded other hold
      exact ⟨below, found, hbelow, hconnd.of_files hblk.blocks (hkept other hold)⟩
  · rw [htip', hstore]
    intro other hmem hsome
    have hmem : other ∈ pindexNew.ancestors := hmem
    rw [ancestors_of_pprev hprev] at hmem
    rcases List.mem_cons.1 hmem with rfl | hbelow
    · rw [hundo, undo_writeUndo, if_pos rfl]
      exact Option.some_ne_none _
    · have hactive := hs.active other (by rw [htip]; exact hbelow) hsome
      rw [hkept other hactive]
      exact hactive

/-- `ConnectTip` keeps the coins on the chain unless it overwrites one. -/
theorem OnChain.connect (hs : s.OnChain ctx)
    (hprom : TipCall.Promised ctx s (.connect env pindexNew pblock))
    (hbip30 : ∀ pprev block, pindexNew.pprev = some pprev →
      s.store.readBlockFromDisk pindexNew = some block →
        fEnforceBIP30 ctx.params pprev = true ∨
          FreshOutputs pindexNew.nHeight (utxoAt s.store.readBlockFromDisk pprev) block.vtx)
    (hconn : s.connectTip ctx env pindexNew pblock = .ok (.ok (), s')) :
    s'.OnChain ctx ∧ s'.tip = some pindexNew ∧ Connected ctx s s' pindexNew := by
  obtain ⟨hprev, block, view, store, hf, hrun, hmove⟩ := of_connectTip hconn
  obtain ⟨htip', hstore, -⟩ := of_moveTip hmove
  have hread := hprom.read hf
  by_cases hgen : block.getHash = ctx.params.hashGenesisBlock
  · obtain ⟨hhash, -, -, hcases⟩ := of_connectBlock hrun
    rcases hcases with ⟨-, rfl, rfl⟩ | ⟨hne, -⟩
    swap
    · exact absurd hgen hne
    have hno := hprom.2 (hhash.trans hgen)
    obtain ⟨hutxo, hwf, hstays⟩ := getBestBlock_spec (scratch_wf hs.wf)
    rw [hno] at hprev
    refine ⟨?_, htip', .genesis hno hprev.symm hstore⟩
    have hset := setBestBlock_wf hwf pindexNew.getBlockHash
    exact hs.connect_genesis hno hprev.symm hset hutxo hstays hmove
  · have hpre : ∀ pprev, pindexNew.pprev = some pprev →
        s.scratch.utxo = utxoAt s.store.readBlockFromDisk pprev := by
      intro pprev hpprev
      rw [scratch_utxo, hs.utxo, ← hprev, hpprev]
      rfl
    obtain ⟨pprev, hpprev, hblk⟩ := connectBlock_spec (scratch_wf hs.wf) hgen
      (fun pprev hpprev => by
        rw [hpre pprev hpprev]
        exact hbip30 pprev block hpprev hread) hrun
    have htip : s.tip = some pprev := by rw [← hprev, hpprev]
    refine ⟨hs.connect_block htip hpprev hread hgen (hbip30 pprev block hpprev hread) hrun
      hblk hmove, htip', .block hpprev htip hread hblk.checked ?_ ?_ ?_⟩
    · rw [← hpre pprev hpprev]
      exact hblk.fits
    · rw [hstore]
      exact hblk.blocks
    · rw [hstore, hblk.blocktree, hpre pprev hpprev]

/-- `DisconnectTip` takes the coins one block back. -/
theorem OnChain.disconnect (hs : s.OnChain ctx)
    (hdisc : s.disconnectTip ctx.options env = .ok (.ok (), s')) :
    s'.OnChain ctx ∧ ∃ pprev pindexDelete block,
      TipDisconnected ctx.options s s' pprev pindexDelete block ∧
        s'.pcoinsTip.layer.hashBlock = pprev.getBlockHash := by
  obtain ⟨pindex, block, done, htip, hread, hdone, hres, hmove⟩ := of_disconnectTip hdisc
  obtain ⟨htip', hstore, -⟩ := of_moveTip hmove
  have hundo : s.store.undo pindex ≠ none := by
    intro hno
    simp only [disconnectBlock, hno, Except.ok.injEq] at hdone
    subst hdone
    cases hres
  obtain ⟨pprev, found, hprev, hconnd⟩ := hs.recorded pindex hundo
  obtain rfl : block = found := Option.some.inj (hread.symm.trans hconnd.read)
  obtain ⟨vtxundo, hhist⟩ := hconnd.history hprev
  have hbelow := (hs.chain htip).of_mem (mem_of_pprev hprev)
  have hrec := hhist.recorded hbelow.sound rfl
  obtain ⟨hutxo, hwf, hstays⟩ := getBestBlock_spec (scratch_wf hs.wf)
  have hgoing : done.result ≠ .failed := by rw [hres]; decide
  obtain ⟨hreads, hdiscd⟩ := hrec.disconnected hwf hdone
  have hdiscd := hdiscd hgoing
  have hdist : DistinctInputs s.store pindex := by
    intro other ho tx htx
    obtain rfl : block = other := Option.some.inj (hread.symm.trans ho)
    exact (nodup_prevouts_iff tx).2 ((hrec.result_eq_ok hwf hdone hgoing).1 hres tx htx)
  have hpre : s.scratch.utxo = utxoAt s.store.readBlockFromDisk pindex := by
    rw [scratch_utxo, hs.utxo, htip]
    rfl
  have hafter : done.view.utxo = utxoAt s.store.readBlockFromDisk pprev := by
    have hundone := hhist.apply_blockUndoWrites
    simp only [blockUndoWrites, hhist.read, hhist.undo] at hundone
    rw [hdiscd.utxo, hutxo, hpre, hundone]
  obtain ⟨hwf', hbase', hcoins, hhash⟩ := moveTip_coins hs.base hdiscd.wf
    (hstays.trans hreads.stays) hmove
  have hfiles : s.store.SameFiles s'.store := by
    rw [hstore, hdiscd.store_eq]
    exact ⟨rfl, rfl⟩
  constructor
  · refine ⟨hwf', hbase', ?_, ?_, ?_⟩
    · rw [hcoins, hafter, htip', hprev, hfiles.read]
      rfl
    · rw [hfiles.undo]
      intro other hsome
      obtain ⟨below, found, hpprev, hf⟩ := hs.recorded other hsome
      exact ⟨below, found, hpprev, hf.of_files hfiles.blocks (congrFun hfiles.undo other)⟩
    · rw [htip', hprev, hfiles.undo]
      intro other hmem hsome
      refine hs.active other ?_ hsome
      rw [htip]
      exact ancestors_trans hmem (mem_of_pprev hprev)
  · refine ⟨pprev, pindex, block, ⟨htip, hprev, htip'.trans hprev, hread, hhist.checked,
      hhist.fits, hdist, hfiles, ?_⟩, ?_⟩
    · rw [hstore, hdiscd.store_eq, hhist.undos_eq]
    · rw [hhash, hdiscd.hashBlock, hashPrevBlock, hprev]
      rfl

/-- A node without any block. -/
theorem Initial.onChain (hs : s.Initial) : s.OnChain ctx := by
  obtain ⟨db, hcoins, hempty, -, -⟩ := hs.coins
  constructor
  · rw [hcoins]
    exact ofBase_wf trivial
  · exact ⟨db, by rw [hcoins]; rfl⟩
  · rw [hcoins, hs.tip]
    funext o
    change db.utxo o = none
    rw [CCoinsViewDB.utxo, hempty]
    rfl
  · intro pindex hsome
    rw [hs.undo] at hsome
    exact absurd rfl hsome
  · rw [hs.tip]
    intro pindex hmem
    cases hmem

end CChainState

end Catoshi
