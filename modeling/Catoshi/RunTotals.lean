/-
What holds of the coins after any moves of the tip: they depend on the tip alone, whatever was
connected and taken back on the way, and they are worth at most the subsidies of the chain.
-/
import Catoshi.AddressIndex
import Catoshi.MoneySupply
import Catoshi.NoInflation

namespace Catoshi

open CBlockIndex BlockStore CTransaction CChainState WriteLog

section

variable {ctx : ValidationContext} {start s : CChainState} {store : BlockStore} {tip : CBlockIndex}

/-- The total is the same for all caches with the same coins. -/
theorem CCoinsViewCache.totalValue_congr {view view' : CCoinsViewCache}
    (hutxo : view'.utxo = view.utxo) : view'.totalValue = view.totalValue := by
  have hright : view'.toView.outpoints ⊆ view.toView.outpoints ∪ view'.toView.outpoints :=
    Finset.subset_union_right
  rw [view'.totalValue_eq hright, hutxo, view.totalValue_eq Finset.subset_union_left]

/-- Every block of a chain adds at most its subsidy. -/
theorem ConnectedChain.exists_total_le (hchain : ConnectedChain ctx store tip)
    (hdist : ∀ pindex ∈ tip.ancestors, DistinctInputs store pindex) :
    ∃ view : CCoinsViewCache, view.utxo = utxoAt store.readBlockFromDisk tip ∧
      view.totalValue ≤ moneySupply (getBlockSubsidy · ctx.params) tip.nHeight := by
  induction tip with
  | genesis hash time => exact ⟨.ofBase (.db ⟨∅, none, none, 0, fun _ => 0⟩), rfl, le_rfl⟩
  | child pprev hash time ih =>
    obtain ⟨below, hutxo, htotal⟩ := ih hchain.below.1 fun pindex hmem =>
      hdist pindex (List.mem_cons_of_mem _ hmem)
    obtain ⟨block, hconnd⟩ := hchain _ (ancestors_self _) pprev rfl
    obtain ⟨view, view', before, after, hsame, -, hconn, -⟩ := hconnd.accepted
    have hsame : (CCoinsViewCache.ofBase view.cache.toView).utxo =
      utxoAt store.readBlockFromDisk pprev := hsame
    obtain ⟨_, -, hblk⟩ := connectBlock_spec (CCoinsViewCache.ofBase_wf view.wf) hconnd.genesis
      (fun other ho => by
        obtain rfl : pprev = other := Option.some.inj ho
        rw [hsame]
        exact hconnd.bip30) hconn
    refine ⟨view', ?_, ?_⟩
    · rw [hblk.utxo, hsame, utxoAt_child rfl hconnd.read]
    · have hstep := hblk.total_le fun tx htx =>
        nodup_inputs (hdist _ (ancestors_self _) block hconnd.read tx htx)
      rw [CCoinsViewCache.totalValue_congr (hutxo.trans hsame.symm)] at htotal
      exact hstep.trans (Int.add_le_add_right htotal _)

theorem CChainState.Run.blocks {allowed : CChainState → TipCall → Prop}
    (hrun : Run ctx allowed start s) : s.store.blocks = start.store.blocks := by
  induction hrun with
  | start => rfl
  | step hrun hallowed hcall ih => rw [blocks_of_call hcall, ih]

theorem CChainState.Run.onChain (hstart : start.Initial)
    (hrun : Run ctx (fun s call => call.Promised ctx s ∧ call.Distinct s) start s) :
    s.OnChain ctx ∧ ∀ pindex ∈ activeChain s.tip, DistinctInputs start.store pindex := by
  induction hrun with
  | start => exact ⟨hstart.onChain, by rw [hstart.tip]; nofun⟩
  | @step s s' call hrun hallowed hcall ih =>
    cases call with
    | connect env pindexNew pblock =>
      obtain ⟨hon, htip, -⟩ := ih.1.connect hallowed.1
        (fun pprev block hprev hread => .inr (hallowed.2.2.fresh hprev hread)) hcall
      refine ⟨hon, ?_⟩
      rw [htip, activeChain_some, (of_connectTip hcall).1, List.forall_mem_cons,
        DistinctInputs, ← readBlockFromDisk_congr hrun.blocks]
      exact ⟨hallowed.2.1, ih.2⟩
    | disconnect env =>
      obtain ⟨hon, pprev, pindex, block, hdone, -⟩ := ih.1.disconnect hcall
      refine ⟨hon, fun other ho => ih.2 other ?_⟩
      rw [hdone.tip'] at ho
      rw [hdone.tip]
      exact ancestors_trans ho (mem_of_pprev hdone.pprev_eq)

/-- After any connects and disconnects of blocks with distinct inputs and new txids all coins
together are worth at most the subsidies of the active chain. -/
theorem run_totalValue_le (hstart : start.Initial)
    (hrun : Run ctx (fun s call => call.Promised ctx s ∧ call.Distinct s) start s)
    (htip : s.tip = some tip) :
    s.pcoinsTip.totalValue ≤ moneySupply (getBlockSubsidy · ctx.params) tip.nHeight := by
  obtain ⟨hon, hdist⟩ := hrun.onChain hstart
  obtain ⟨view, hutxo, htotal⟩ := (hon.chain htip).exists_total_le fun pindex hmem => by
    rw [DistinctInputs, readBlockFromDisk_congr hrun.blocks]
    exact hdist pindex (by rw [htip]; exact hmem)
  have hsame : s.pcoinsTip.utxo = view.utxo := by
    rw [hon.utxo, htip, hutxo, utxoAtTip]
  rw [CCoinsViewCache.totalValue_congr hsame]
  exact htotal

/-- Two nodes with the same blocks on disk and the same tip have the same coins, the same unspent
outputs of every address and the same history, whatever each has connected and taken back. -/
theorem same_tip_same_state {ctx' : ValidationContext} {start' s' : CChainState}
    (hon : ctx.options.fAddressIndex = true) (hon' : ctx'.options.fAddressIndex = true)
    (hstart : start.Initial) (hstart' : start'.Initial)
    (hblocks : start'.store.blocks = start.store.blocks)
    (hrun : Run ctx (fun s call => call.Promised ctx s ∧ call.Distinct s) start s)
    (hrun' : Run ctx' (fun s call => call.Promised ctx' s ∧ call.Distinct s) start' s')
    (htip : s'.tip = s.tip) :
    s'.pcoinsTip.utxo = s.pcoinsTip.utxo ∧
      content s'.store.blocktree.addressUnspentIndex =
        content s.store.blocktree.addressUnspentIndex ∧
      ∀ key, s'.store.blocktree.addressIndex.lookup key =
        s.store.blocktree.addressIndex.lookup key := by
  have hidx := hrun.indexed hon hstart
  have hidx' := hrun'.indexed hon' hstart'
  have hread : s'.store.readBlockFromDisk = s.store.readBlockFromDisk :=
    readBlockFromDisk_congr (by rw [hrun'.blocks, hblocks, hrun.blocks])
  have hutxo : s'.pcoinsTip.utxo = s.pcoinsTip.utxo := by
    rw [hidx'.onChain.utxo, hidx.onChain.utxo, hread, htip]
  refine ⟨hutxo, ?_, fun key => ?_⟩
  · rw [hidx'.indexes.unspent, hidx.indexes.unspent, hread, htip]
  · ext amount
    rw [hidx'.indexes.history, hidx.indexes.history, hread, htip]

end

namespace AddressIndexWitness

open UndoInverseWitness CrashRecoveryWitness

theorem run_totalValue_le_up_and_down : ∃ s : CChainState, s.tip = some (index 2) ∧
    s.pcoinsTip.totalValue ≤ moneySupply (getBlockSubsidy · ctx.params) (index 2).nHeight := by
  obtain ⟨s, htip, hrun⟩ := exists_run (List.Subset.refl _) upAndDown_runs
  exact ⟨s, htip, run_totalValue_le newNode_initial hrun htip⟩

/-- One of the nodes takes a block back and connects it again. -/
theorem same_tip_same_state_up_and_down : ∃ s s' : CChainState, s.tip = some (index 2) ∧
    s'.pcoinsTip.utxo = s.pcoinsTip.utxo := by
  have hon : ctx.options.fAddressIndex = true := rfl
  obtain ⟨s, htip, hrun⟩ := exists_run (List.Subset.refl _) upAndDown_runs
  obtain ⟨s', htip', hrun'⟩ := exists_run (List.take_subset 3 _) (by decide +kernel)
  exact ⟨s, s', htip, (same_tip_same_state hon hon newNode_initial newNode_initial rfl hrun hrun'
    (htip'.trans htip.symm)).1⟩

end AddressIndexWitness

end Catoshi
