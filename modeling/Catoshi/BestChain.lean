/-
The chain `ActivateBestChain` ends up with: the blocks below decide whether a block connects, and
in the end the tip is the best block whose chain connects.
-/
import Catoshi.ActiveChain
import Catoshi.ReconsiderBlock

namespace Catoshi

open Outcome BlockStore

/-! ### Moving the tip -/

theorem BlockStore.hash_of_readBlockFromDisk {store : BlockStore} {pindex : CBlockIndex}
    {block : CBlock} (hread : store.readBlockFromDisk pindex = some block) :
    block.getHash = pindex.getBlockHash := by
  rw [readBlockFromDisk] at hread
  split at hread
  · split_ifs at hread with hhash
    exact Option.some.inj hread ▸ hhash
  · cases hread

namespace CChainState

variable {ctx : ValidationContext} {s s' : CChainState} {env : FlushEnv}

/-- Connecting a block follows the ledger: it is valid just if the ledger accepts it. -/
theorem OnChain.connect_follows {pindexNew pprev : CBlockIndex} {pblock : Option CBlock}
    {result : Except TipError Unit} (hs : s.OnChain ctx)
    (hprom : TipCall.Promised ctx s (.connect env pindexNew pblock))
    (hfresh : NoOverwrites ctx s.store.readBlockFromDisk pindexNew)
    (hprev : pindexNew.pprev = some pprev)
    (hconn : s.connectTip ctx env pindexNew pblock = .ok (result, s')) :
    ((∃ scriptsValid, Connection.ofResult result = .systemError scriptsValid) ∨
        Connection.ofResult result = ledgerConnection ctx s.store.readBlockFromDisk pindexNew) ∧
      (Connection.ofResult result = .connected → s'.OnChain ctx ∧ s'.tip = some pindexNew ∧
        s'.store.blocks = s.store.blocks ∧
        s'.pcoinsTip.layer.hashBlock = pindexNew.getBlockHash) ∧
      (Connection.ofResult result = .corrupt ∨ Connection.ofResult result = .invalid → s' = s) := by
  have hcall := hconn
  unfold connectTip at hconn
  split_ifs at hconn with htip
  have htip : s.tip = some pprev := by rw [← not_not.1 htip, hprev]
  split at hconn
  · cases hconn
    exact ⟨.inl ⟨_, rfl⟩, nofun, by rintro (h | h) <;> cases h⟩
  · next block hf =>
    have hread := hprom.read hf
    have hgenesis : block.getHash ≠ ctx.params.hashGenesisBlock := by
      intro hsame
      have hno := hprom.2 ((hash_of_readBlockFromDisk hread).symm.trans hsame)
      rw [hprev] at hno
      cases hno
    have hpre : s.scratch.utxo = utxoAt s.store.readBlockFromDisk pprev := by
      rw [scratch_utxo, hs.utxo, htip]
      rfl
    have hnew := hfresh pprev block hprev hread
    rw [← hpre] at hnew
    have hfollows := connectBlock_follows s.store (scratch_wf hs.wf) hprev hgenesis hnew
    rw [hpre] at hfollows
    rw [ledgerConnection_eq hprev hread]
    split at hconn
    · cases hconn
    · next reject hrun =>
      cases hconn
      rw [hfollows.stopped _ reject hrun rfl]
      refine ⟨.inr rfl, fun hconnd => ?_, fun _ => rfl⟩
      rw [Connection.ofResult] at hconnd
      split at hconnd <;> cases hconnd
    · next view store hrun =>
      obtain ⟨utxo, hledger, -⟩ := hfollows.returned _ hrun
      rcases result_of_moveTip hconn with rfl | rfl
      · obtain ⟨hs', htip', -⟩ := hs.connect hprom
          (fun below found hbelow hf => hfresh below found hbelow hf) hcall
        obtain ⟨below, -, hblk⟩ := connectBlock_spec (scratch_wf hs.wf) hgenesis
          (fun below hbelow => Option.some.inj (hprev.symm.trans hbelow) ▸ hnew) hrun
        obtain ⟨-, -, -, hhash⟩ := moveTip_coins hs.base hblk.wf hblk.base hconn
        rw [hledger]
        refine ⟨.inr rfl, fun _ => ⟨hs', htip', ?_, hhash.trans hblk.hashBlock⟩, ?_⟩
        · have hmoved : s.call ctx (.connect env pindexNew pblock) = .ok (.ok (), s') := hcall
          exact blocks_of_call hmoved
        · rintro (h | h) <;> cases h
      · exact ⟨.inl ⟨true, rfl⟩, nofun, by rintro (h | h) <;> cases h⟩

end CChainState

namespace Node

/-- The coins and the files are at the tip of the block tree. -/
structure Synced (ctx : ValidationContext) (blocks : CBlockIndex → Option CBlock)
    (node : Node) : Prop where
  onChain : node.chain.OnChain ctx
  tip : node.chain.tip = some node.tree.tip
  files : node.chain.store.readBlockFromDisk = blocks
  best : node.chain.pcoinsTip.getBestBlock.1 = node.tree.tip.getBlockHash

/-- No known block overwrites a coin, the one that just arrived is on disk, only the first has the
hash of the genesis block, and no hash is null. -/
structure Expected (env : NodeEnv) (blocks : CBlockIndex → Option CBlock)
    (known : List CBlockIndex) : Prop where
  fresh : ∀ pindex ∈ known, NoOverwrites env.ctx blocks pindex
  arrived : ∀ block, env.pblock = some block → ∀ pindex ∈ known,
    block.getHash = pindex.getBlockHash → blocks pindex = some block
  root : ∀ pindex ∈ known, pindex.getBlockHash = env.ctx.params.hashGenesisBlock →
    pindex.pprev = none
  named : ∀ pindex ∈ known, pindex.getBlockHash.isNull = false

variable {env : NodeEnv} {blocks : CBlockIndex → Option CBlock} {known : List CBlockIndex}
  {params : TreeParams} {node node' : Node}
  {chain : CChainState} {tree : BlockTree} {pindexMostWork : CBlockIndex}
  {fInvalidFound : Bool} {start : Option CBlockIndex}

theorem best_of_hashBlock {pindex : CBlockIndex}
    (hhash : chain.pcoinsTip.layer.hashBlock = pindex.getBlockHash)
    (hnamed : pindex.getBlockHash.isNull = false) :
    chain.pcoinsTip.getBestBlock.1 = pindex.getBlockHash := by
  rw [← hhash] at hnamed ⊢
  rw [CCoinsViewCache.getBestBlock_of_hashBlock hnamed]

section

variable (hsynced : node.Synced env.ctx blocks)
  (hnamed : ∀ pindex ∈ node.tree.tip.ancestors, pindex.getBlockHash.isNull = false)

include hsynced hnamed

omit hnamed in
/-- The tree changes, but its tip does not. -/
theorem Synced.of_tree {n : ℕ}
    (htip : tree.tip = node.tree.tip) : (⟨tree, node.chain, n⟩ : Node).Synced env.ctx blocks where
  onChain := hsynced.onChain
  tip := by rw [hsynced.tip, htip]
  files := hsynced.files
  best := by rw [hsynced.best, htip]

theorem disconnectTip_synced (hdisc : node.disconnectTip env = .ok (true, node')) :
    ∃ pprev, node.tree.tip.pprev = some pprev ∧ node'.tree = { node.tree with tip := pprev } ∧
      node'.Synced env.ctx blocks := by
  rw [disconnectTip] at hdisc
  split at hdisc
  · cases hdisc
  · cases hdisc
  · next chain hcall =>
    cases hdisc
    obtain ⟨honChain, pprev, pindex, block, hdone, hhash⟩ := hsynced.onChain.disconnect hcall
    obtain rfl : node.tree.tip = pindex := Option.some.inj (hsynced.tip.symm.trans hdone.tip)
    have hprev := hdone.pprev_eq
    rw [hprev]
    refine ⟨pprev, rfl, rfl, honChain, hdone.tip', ?_, ?_⟩
    · rw [readBlockFromDisk_congr hdone.files.blocks]
      exact hsynced.files
    · exact best_of_hashBlock hhash (hnamed pprev (CBlockIndex.mem_of_pprev hprev))

theorem disconnectTo_synced {pindexFork : Option CBlockIndex}
    (hdisc : disconnectTo env pindexFork node.tree.tip node = .ok (true, node')) :
    BlockTree.disconnectTo (ledgerEnv env.ctx blocks) pindexFork node.tree.tip node.tree =
        .ok node'.tree ∧ node'.Synced env.ctx blocks := by
  generalize htip : node.tree.tip = tip at hnamed hdisc
  induction tip generalizing node with
  | genesis hash time =>
    obtain ⟨hfork, rfl⟩ := Prod.mk.inj (Except.ok.inj hdisc)
    rw [BlockTree.disconnectTo, if_pos (of_decide_eq_true hfork)]
    exact ⟨rfl, hsynced⟩
  | child pprev hash time ih =>
    rw [disconnectTo] at hdisc
    rw [BlockTree.disconnectTo, BlockTree.disconnectTip_of_child htip]
    split_ifs at hdisc with hfork
    · cases hdisc
      rw [if_pos hfork]
      exact ⟨rfl, hsynced⟩
    · rw [if_neg hfork]
      split at hdisc
      · cases hdisc
      · cases hdisc
      · next mid hmid =>
        obtain ⟨below, hbelow, htree, hmidSynced⟩ :=
          disconnectTip_synced hsynced (htip ▸ hnamed) hmid
        rw [htip] at hbelow
        obtain rfl : pprev = below := Option.some.inj hbelow
        have hrest := ih hmidSynced (by rw [htree]) (List.forall_mem_cons.1 hnamed).2 hdisc
        rwa [htree] at hrest

end

theorem pprev_of_connectTip {ctx : ValidationContext} {flush : FlushEnv} {pindexNew : CBlockIndex}
    {pblock : Option CBlock} {outcome : Except TipError Unit × CChainState}
    (hconn : chain.connectTip ctx flush pindexNew pblock = .ok outcome) :
    pindexNew.pprev = chain.tip := by
  rw [CChainState.connectTip] at hconn
  split_ifs at hconn with hprev
  exact not_not.1 hprev

theorem Expected.promised (hexpected : Expected env blocks known)
    (hfiles : node.chain.store.readBlockFromDisk = blocks) {pindexConnect : CBlockIndex}
    (hknown : pindexConnect ∈ known) (pindexMostWork : CBlockIndex) :
    TipCall.Promised env.ctx node.chain (.connect (env.flush node.nFlushes) pindexConnect
      (handedOver env pindexMostWork pindexConnect)) := by
  refine ⟨fun block hblk => ?_, hexpected.root pindexConnect hknown⟩
  rw [handedOver] at hblk
  split_ifs at hblk with hsame
  obtain ⟨hgiven, hhash⟩ := Option.filter_eq_some_iff.1 hblk
  rw [hfiles]
  apply hexpected.arrived block hgiven pindexConnect hknown
  rw [of_decide_eq_true hhash, hsame]

theorem connectBlocks_synced {oldWork : ℕ} {path : List CBlockIndex}
    (hexpected : Expected env blocks known) (hsynced : node.Synced env.ctx blocks)
    (hpath : ∀ pindex ∈ path, pindex ∈ known)
    (hconn : connectBlocks params env pindexMostWork oldWork path node =
      .ok (some fInvalidFound, node')) :
    BlockTree.connectBlocks params (ledgerEnv env.ctx blocks) oldWork path node.tree =
        .ok (some fInvalidFound, node'.tree) ∧ node'.Synced env.ctx blocks := by
  induction path generalizing node with
  | nil =>
    cases hconn
    exact ⟨rfl, hsynced⟩
  | cons pindex rest ih =>
    have hknown := hpath pindex List.mem_cons_self
    rw [connectBlocks] at hconn
    split at hconn
    · cases hconn
    · next result chain hcall =>
      have hprev : pindex.pprev = some node.tree.tip :=
        (pprev_of_connectTip hcall).trans hsynced.tip
      obtain ⟨hagrees, hconnd, hrefused⟩ := hsynced.onChain.connect_follows
        (hexpected.promised hsynced.files hknown pindexMostWork)
        (by rw [hsynced.files]; exact hexpected.fresh pindex hknown) hprev hcall
      rw [hsynced.files] at hagrees
      have hledger : ∀ connection, Connection.ofResult result = connection →
          (∀ scriptsValid, connection ≠ .systemError scriptsValid) →
          (ledgerEnv env.ctx blocks).connects pindex = connection := by
        intro connection hof hnot
        rcases hagrees with ⟨scriptsValid, herror⟩ | hsame
        · exact absurd (hof.symm.trans herror) (hnot scriptsValid)
        · exact hsame.symm.trans hof
      rw [BlockTree.connectBlocks, if_neg (not_not.2 hprev)]
      cases hof : Connection.ofResult result with
      | connected =>
        rw [hof] at hconn
        rw [hledger _ hof (by simp)]
        obtain ⟨honChain, htip, hblocks, hhash⟩ := hconnd hof
        dsimp only at hconn ⊢
        cases hprune : BlockTree.pruneBlockIndexCandidates params (node.tree.connectTip pindex) with
        | error fault =>
          rw [hprune] at hconn
          cases hconn
        | ok tree =>
          rw [hprune] at hconn
          dsimp only at hconn
          have htree : tree.tip = pindex := by
            rw [BlockTree.pruneCandidates_eq hprune]
            rfl
          have hnext : (⟨tree, chain, node.nFlushes + 1⟩ : Node).Synced env.ctx blocks := by
            refine ⟨honChain, by rw [htip, htree], ?_, ?_⟩
            · rw [readBlockFromDisk_congr hblocks]
              exact hsynced.files
            · rw [htree]
              exact best_of_hashBlock hhash (hexpected.named pindex hknown)
          dsimp only
          split_ifs at hconn with hmore
          · cases hconn
            rw [if_pos hmore]
            exact ⟨rfl, hnext⟩
          · rw [if_neg hmore]
            exact ih hnext (List.forall_mem_cons.1 hpath).2 hconn
      | invalid =>
        rw [hof] at hconn
        rw [hledger _ hof (by simp)]
        obtain rfl := hrefused (.inr hof)
        cases hconn
        exact ⟨rfl, hsynced.of_tree (BlockTree.invalidBlockFound_keeps BlockTree.tip)⟩
      | corrupt =>
        rw [hof] at hconn
        rw [hledger _ hof (by simp)]
        obtain rfl := hrefused (.inl hof)
        cases hconn
        exact ⟨rfl, hsynced.of_tree rfl⟩
      | systemError scriptsValid =>
        rw [hof] at hconn
        cases hconn

theorem activateBestChainStep_synced (hexpected : Expected env blocks node.tree.mapBlockIndex)
    (hgrown : node.tree.Grown params) (hknown : pindexMostWork ∈ node.tree.mapBlockIndex)
    (hsynced : node.Synced env.ctx blocks)
    (hstep : node.activateBestChainStep params env pindexMostWork = .ok (some fInvalidFound, node'))
    :
    node.tree.activateBestChainStep params (ledgerEnv env.ctx blocks) pindexMostWork =
        .ok (some fInvalidFound, node'.tree) ∧ node'.Synced env.ctx blocks := by
  rw [activateBestChainStep] at hstep
  split at hstep
  · cases hstep
  · cases hstep
  · next rewound hrewound =>
    obtain ⟨hdisc, hmid⟩ := disconnectTo_synced hsynced
      (fun pindex hmem => hexpected.named pindex (hgrown.ancestors hgrown.tip hmem)) hrewound
    rw [BlockTree.activateBestChainStep, hdisc]
    apply connectBlocks_synced hexpected hmid _ hstep
    intro pindex hpindex
    have hfork := BlockTree.disconnectTo_spec params (ledgerEnv env.ctx blocks)
      (node.tree.findFork pindexMostWork) node.tree
    obtain ⟨low, -, -, herror | ⟨hfork, hok⟩⟩ := hfork
    · rw [herror] at hdisc
      cases hdisc
    · rw [hok] at hdisc
      rw [← Except.ok.inj hdisc] at hpindex
      have hmem := (BlockTree.mem_of_findFork hfork.symm).1
      exact hgrown.ancestors hknown
        ((CBlockIndex.mem_above_iff hmem).1 (List.mem_reverse.1 hpindex)).1

theorem activateBestChain_synced {rounds : ℕ}
    (hexpected : Expected env blocks node.tree.mapBlockIndex) (hgrown : node.tree.Grown params)
    (hstart : ∀ pindex, start = some pindex →
      pindex ∈ node.tree.mapBlockIndex ∧ node.tree.Usable pindex)
    (hsynced : node.Synced env.ctx blocks)
    (hactivate : activateBestChain params env rounds start node = .ok (.done, node')) :
    BlockTree.activateBestChain params (ledgerEnv env.ctx blocks) rounds start node.tree =
        .ok (.done, node'.tree) ∧ node'.Synced env.ctx blocks := by
  induction rounds generalizing node start with
  | zero => cases hactivate
  | succ rounds ih =>
    rw [activateBestChain] at hactivate
    rw [BlockTree.activateBestChain]
    rcases hfind : BlockTree.mostWork params node.tree start with fault | ⟨_ | chosen, tree⟩
    · rw [hfind] at hactivate
      cases hactivate
    · rw [hfind] at hactivate
      cases hactivate
      exact ⟨rfl, hsynced.of_tree (BlockTree.mostWork_tip hgrown hfind)⟩
    · rw [hfind] at hactivate
      obtain ⟨hmoves, hspec⟩ :=
        BlockTree.mostWork_moves (ledgerEnv env.ctx blocks) hgrown hstart hfind
      obtain ⟨hknown, huse⟩ := hspec chosen rfl
      have hmid : (⟨tree, node.chain, node.nFlushes⟩ : Node).Synced env.ctx blocks :=
        hsynced.of_tree (BlockTree.mostWork_tip hgrown hfind)
      have hgrownMid := hgrown.moves hmoves
      rw [← BlockTree.mapBlockIndex_of_moves hmoves] at hexpected
      dsimp only at hactivate ⊢
      split_ifs at hactivate with htip
      · cases hactivate
        rw [if_pos htip]
        exact ⟨rfl, hmid⟩
      · rw [if_neg htip]
        have hstepped : ∀ {fInvalidFound : Bool} {stepped : Node},
            (⟨tree, node.chain, node.nFlushes⟩ : Node).activateBestChainStep params env
              chosen = .ok (some fInvalidFound, stepped) →
            tree.activateBestChainStep params (ledgerEnv env.ctx blocks) chosen =
                .ok (some fInvalidFound, stepped.tree) ∧ stepped.Synced env.ctx blocks ∧
              stepped.tree.Grown params ∧ Expected env blocks stepped.tree.mapBlockIndex ∧
              (fInvalidFound = false → chosen ∈ stepped.tree.mapBlockIndex ∧
                stepped.tree.Usable chosen) := by
          intro fInvalidFound stepped hstep
          obtain ⟨htree, hsteppedSynced⟩ :=
            activateBestChainStep_synced hexpected hgrownMid hknown hmid hstep
          obtain ⟨hmoved, hkeeps⟩ :=
            BlockTree.activateBestChainStep_moves hgrownMid hknown huse htree
          have hmap := BlockTree.mapBlockIndex_of_moves hmoved
          refine ⟨htree, hsteppedSynced, hgrownMid.moves hmoved, ?_, fun hf => ?_⟩
          · rw [hmap]
            exact hexpected
          · rw [hmap]
            exact ⟨hknown, hkeeps (by rw [hf])⟩
        split at hactivate
        · cases hactivate
        · cases hactivate
        · next stepped hstep =>
          obtain ⟨htree, hnext, hgrownNext, hexpectedNext, -⟩ := hstepped hstep
          rw [htree]
          exact ih hexpectedNext hgrownNext (by simp) hnext hactivate
        · next stepped hstep =>
          obtain ⟨htree, hnext, hgrownNext, hexpectedNext, hkeeps⟩ := hstepped hstep
          rw [htree]
          dsimp only
          split_ifs at hactivate with hreach
          · cases hactivate
            rw [if_pos hreach]
            exact ⟨rfl, hnext⟩
          · rw [if_neg hreach]
            refine ih hexpectedNext hgrownNext (fun pindex hpindex => ?_) hnext hactivate
            exact Option.some.inj hpindex ▸ hkeeps rfl

end Node

/-! ### The best chain that connects -/

namespace BlockTree

/-- The whole chain of a block has data, is not marked failed, and connects. -/
structure Connects (env : ActivateEnv) (tree : BlockTree) (pindex : CBlockIndex) : Prop where
  usable : tree.Usable pindex
  connected : ∀ other ∈ pindex.ancestors, other.pprev ≠ none → env.connects other = .connected

variable {params : TreeParams} {env : ActivateEnv} {start tree next : BlockTree}
  {best : CBlockIndex}

/-- While the tip moves, the best block stays a candidate. -/
structure Leads (env : ActivateEnv) (start : BlockTree) (best : CBlockIndex) (tree : BlockTree) :
    Prop where
  candidate : best ∈ tree.setBlockIndexCandidates
  usable : tree.Usable best
  tip : ∀ other ∈ tree.tip.ancestors, other.pprev ≠ none → env.connects other = .connected
  before : ∀ pindex, tree.Usable pindex → start.Usable pindex
  known : tree.mapBlockIndex = start.mapBlockIndex
  shrunk : Shrunk start tree

theorem Shrunk.rank (hshrunk : Shrunk tree next) (pindex : CBlockIndex) :
    next.rank params pindex = tree.rank params pindex :=
  rank_congr (hshrunk.nChainWork pindex) (hshrunk.nSequenceId pindex)

/-- Marking blocks failed makes just the chains above them unusable. -/
theorem usable_marked_iff {marked : CBlockIndex → Prop}
    (hmarked : ∀ other, marked other → (next.entry other).failed = true)
    (hkept : ∀ other, ¬ marked other → next.entry other = tree.entry other) (pindex : CBlockIndex) :
    next.Usable pindex ↔ tree.Usable pindex ∧ ∀ other ∈ pindex.ancestors, ¬ marked other := by
  constructor
  · intro huse
    have hfree : ∀ other ∈ pindex.ancestors, ¬ marked other := by
      intro other ho hmark
      have hfail := hmarked other hmark
      rw [(huse other ho).1] at hfail
      cases hfail
    exact ⟨fun other ho => hkept other (hfree other ho) ▸ huse other ho, hfree⟩
  · rintro ⟨huse, hfree⟩ other ho
    rw [hkept other (hfree other ho)]
    exact huse other ho

theorem Leads.marked (marked : CBlockIndex → Prop) (hleads : Leads env start best tree)
    (hmarked : ∀ other, marked other → (next.entry other).failed = true)
    (hkept : ∀ other, ¬ marked other → next.entry other = tree.entry other)
    (hfree : ∀ other ∈ best.ancestors, ¬ marked other)
    (hcandidate : best ∈ next.setBlockIndexCandidates) (htip : next.tip = tree.tip)
    (hknown : next.mapBlockIndex = start.mapBlockIndex) (hshrunk : Shrunk start next) :
    Leads env start best next where
  candidate := hcandidate
  usable := (usable_marked_iff hmarked hkept best).2 ⟨hleads.usable, hfree⟩
  tip := htip ▸ hleads.tip
  before pindex huse := hleads.before pindex ((usable_marked_iff hmarked hkept pindex).1 huse).1
  known := hknown
  shrunk := hshrunk

section

variable (hbest : start.Connects env best)
  (hmax : ∀ pindex ∈ start.mapBlockIndex, start.Connects env pindex →
    start.rank params pindex ≤ start.rank params best)
  (hleads : Leads env start best tree)

include hbest hmax hleads

theorem Leads.move (hmove : Move params env tree next) : Leads env start best next := by
  have hshrunk := hleads.shrunk.trans hmove.shrunk
  have hknown := hmove.mapBlockIndex.trans hleads.known
  cases hmove with
  | disconnect pprev hprev =>
    refine ⟨hleads.candidate, hleads.usable, fun other ho => ?_, hleads.before, hknown, hshrunk⟩
    exact hleads.tip other (CBlockIndex.ancestors_trans ho (CBlockIndex.mem_of_pprev hprev))
  | connect pindex next hpindex hprev huse hconnects hprune =>
    have htip : ∀ other ∈ pindex.ancestors, other.pprev ≠ none →
        env.connects other = .connected := by
      intro other ho hnot
      rw [CBlockIndex.ancestors_of_pprev hprev] at ho
      rcases List.mem_cons.1 ho with rfl | hbelow
      · exact hconnects
      · exact hleads.tip other hbelow hnot
    have hrank := hmax pindex (hleads.known ▸ hpindex) ⟨hleads.before pindex huse, htip⟩
    have hmarked := hleads.shrunk.trans (shrunk_markScriptsValid tree pindex)
    have heq := pruneCandidates_eq hprune
    subst heq
    refine ⟨List.mem_filter.2 ⟨hleads.candidate, ?_⟩, usable_markScriptsValid.2 hleads.usable,
      htip, fun other ho => hleads.before other (usable_markScriptsValid.1 ho), hknown,
      hshrunk⟩
    have hless : (tree.markScriptsValid pindex).less params best pindex = false := by
      rw [less_eq_false_iff, hmarked.rank, hmarked.rank]
      exact hrank
    rw [Bool.not_eq_true']
    exact hless
  | invalid pindex hpindex hprev huse hconnects =>
    have hnot : pindex ∉ best.ancestors := by
      intro hmem
      have hconnd := hbest.connected pindex hmem (by simp [hprev])
      rw [hconnects] at hconnd
      cases hconnd
    refine hleads.marked (· = pindex) ?_ ?_ ?_ ?_ ?_ hknown hshrunk
    · rintro other rfl
      rw [entry_invalid, if_pos rfl]
      exact failed_of_failedValid rfl
    · intro other hne
      rw [entry_invalid, if_neg hne]
    · rintro other ho rfl
      exact hnot ho
    · apply (mem_candidates_invalid _ _ _ _).2
      exact ⟨hleads.candidate, fun heq => hnot (heq ▸ CBlockIndex.ancestors_self _)⟩
    · exact invalidBlockFound_keeps BlockTree.tip
  | systemError pindex hpindex hprev huse hconnects =>
    exact ⟨hleads.candidate, usable_markScriptsValid.2 hleads.usable, hleads.tip,
      fun other ho => hleads.before other (usable_markScriptsValid.1 ho), hknown, hshrunk⟩
  | discard pindexNew pindexTest hcandidate hmem hunusable =>
    have hnot : pindexTest ∉ best.ancestors := by
      intro hbelow
      obtain ⟨hfail, hdata⟩ := hleads.usable pindexTest hbelow
      rcases hunusable with hbad | hmissing
      · rw [hfail] at hbad
        cases hbad
      · rw [hdata] at hmissing
        cases hmissing
    have habove : ∀ other ∈ best.ancestors, other ∉ pindexNew.above pindexTest := by
      intro other ho hmarked
      have hover := ((CBlockIndex.mem_above_iff hmem).1 hmarked).2.1
      exact hnot (CBlockIndex.ancestors_trans hover ho)
    have hkept : best ∈ (tree.removeChain pindexNew pindexTest
        (tree.entry pindexTest).failed).setBlockIndexCandidates := by
      apply (mem_candidates_removeChain _ _ _ _ _).2
      refine ⟨hleads.candidate, habove best (CBlockIndex.ancestors_self best), ?_⟩
      exact fun heq => hnot (heq ▸ CBlockIndex.ancestors_self _)
    have htip : (tree.removeChain pindexNew pindexTest (tree.entry pindexTest).failed).tip =
        tree.tip := removeChain_keeps BlockTree.tip
    cases hfail : (tree.entry pindexTest).failed with
    | true =>
      rw [hfail] at hkept htip hknown hshrunk
      refine hleads.marked (· ∈ pindexNew.above pindexTest) ?_ ?_ habove hkept htip hknown hshrunk
      · intro other ho
        rw [entry_removeChain_failed, if_pos ho]
        simp [BlockEntry.failed]
      · intro other ho
        rw [entry_removeChain_failed, if_neg ho]
    | false =>
      rw [hfail] at hkept htip hknown hshrunk
      exact hleads.marked (fun _ => False) (by simp)
        (fun other _ => by rw [entry_removeChain_missing]) (fun _ _ => id) hkept htip hknown hshrunk

theorem Leads.moves (hmoves : Moves params env tree next) : Leads env start best next := by
  induction hmoves with
  | refl => exact hleads
  | tail _ hmove ih => exact ih.move hbest hmax hmove

omit hleads in
/-- When the call returns, the tip is no worse than the best block. -/
theorem activateBestChain_leads {rounds : ℕ} {found : Option CBlockIndex}
    (hgrown : tree.Grown params) (hleads : Leads env start best tree)
    (hf : ∀ pindex, found = some pindex → pindex ∈ tree.mapBlockIndex ∧
      tree.Usable pindex ∧ start.rank params best ≤ start.rank params pindex)
    (hactivate : activateBestChain params env rounds found tree = .ok (.done, next)) :
    next.Grown params ∧ Leads env start best next ∧
      start.rank params best ≤ start.rank params next.tip := by
  induction rounds generalizing found tree with
  | zero => cases hactivate
  | succ rounds ih =>
    rw [activateBestChain] at hactivate
    have hstart := fun pindex hpindex => (hf pindex hpindex).imp_right And.left
    split at hactivate
    · cases hactivate
    · next mid hfind =>
      obtain ⟨hmoves, -⟩ := mostWork_moves env hgrown hstart hfind
      have hcandidate := (hleads.moves hbest hmax hmoves).candidate
      cases found with
      | some pindex => cases hfind
      | none =>
        have hsearch := findMostWorkChain_search env hgrown hfind
        rw [hsearch.exhausted rfl (Nat.lt_succ_self _)] at hcandidate
        cases hcandidate
    · next chosen mid hfind =>
      obtain ⟨hmoves, hspec⟩ := mostWork_moves env hgrown hstart hfind
      obtain ⟨hknown, huse⟩ := hspec chosen rfl
      have hgrownMid := hgrown.moves hmoves
      have hleadsMid := hleads.moves hbest hmax hmoves
      have hrank : start.rank params best ≤ start.rank params chosen := by
        cases found with
        | some pindex =>
          cases hfind
          exact (hf chosen rfl).2.2
        | none =>
          rw [← hleadsMid.shrunk.rank, ← hleadsMid.shrunk.rank]
          have hsearch := findMostWorkChain_search env hgrown hfind
          exact (hsearch.chosen chosen rfl).2.2 best hleadsMid.candidate
      split_ifs at hactivate with htip
      · cases hactivate
        exact ⟨hgrownMid, hleadsMid, htip ▸ hrank⟩
      · split at hactivate
        · cases hactivate
        · cases hactivate
        · next stepped hstep =>
          obtain ⟨hmoved, -⟩ := activateBestChainStep_moves hgrownMid hknown huse hstep
          apply ih (hgrownMid.moves hmoved) (hleadsMid.moves hbest hmax hmoved) _ hactivate
          rintro pindex ⟨⟩
        · next stepped hstep =>
          obtain ⟨hmoved, hkeeps⟩ := activateBestChainStep_moves hgrownMid hknown huse hstep
          have hgrownNext := hgrownMid.moves hmoved
          have hleadsNext := hleadsMid.moves hbest hmax hmoved
          split_ifs at hactivate with hreach
          · cases hactivate
            exact ⟨hgrownNext, hleadsNext, hreach ▸ hrank⟩
          · apply ih hgrownNext hleadsNext _ hactivate
            intro pindex hpindex
            obtain rfl := Option.some.inj hpindex
            exact ⟨mapBlockIndex_of_moves hmoved ▸ hknown, hkeeps rfl, hrank⟩

end

/-- Among blocks whose chain connects one is best. -/
theorem exists_best (params : TreeParams) (hgrown : tree.Grown params)
    (htip : tree.Connects env tree.tip) :
    ∃ best ∈ tree.mapBlockIndex, tree.Connects env best ∧
      ∀ pindex ∈ tree.mapBlockIndex, tree.Connects env pindex →
        tree.rank params pindex ≤ tree.rank params best := by
  classical
  let connecting := tree.mapBlockIndex.toFinset.filter (tree.Connects env)
  have hmem : ∀ pindex, pindex ∈ connecting ↔
      pindex ∈ tree.mapBlockIndex ∧ tree.Connects env pindex := by
    intro pindex
    rw [Finset.mem_filter, List.mem_toFinset]
  obtain ⟨best, hbest, hmax⟩ := connecting.exists_max_image (tree.rank params)
    ⟨tree.tip, (hmem _).2 ⟨hgrown.tip, htip⟩⟩
  obtain ⟨hknown, hconnects⟩ := (hmem best).1 hbest
  exact ⟨best, hknown, hconnects, fun pindex hpindex ho =>
    hmax pindex ((hmem pindex).2 ⟨hpindex, ho⟩)⟩

/-- In a tree that passes its check, a chain that connects and is no worse than the tip is a
candidate's. -/
theorem candidate_of_check {fHavePruned : Bool}
    (hcheck : tree.checkBlockIndex params fHavePruned = true)
    (hknown : best ∈ tree.mapBlockIndex) (huse : tree.Usable best)
    (hrank : tree.rank params tree.tip ≤ tree.rank params best) :
    best ∈ tree.setBlockIndexCandidates := by
  have hpresent : ∀ other ∈ best.ancestors, (tree.entry other).haveData = true :=
    fun other ho => (huse other ho).2
  apply (asserted_of_check hcheck hknown).candidate (less_eq_false_iff.2 hrank) _ _ hpresent
  · intro other ho
    have hfail := (huse other ho).1
    rw [BlockEntry.failed, Bool.or_eq_false_iff] at hfail
    exact hfail.1
  · intro other ho
    have hother' := ancestors_of_check hcheck hknown ho
    exact (asserted_of_check hcheck hother').data (hpresent other ho)

end BlockTree

namespace Node

variable {env : NodeEnv} {blocks : CBlockIndex → Option CBlock} {params : TreeParams}
  {node node' : Node}

/-- The ledger accepts every block of the active chain. -/
theorem Synced.connected (hsynced : node.Synced env.ctx blocks) :
    ∀ other ∈ node.tree.tip.ancestors, other.pprev ≠ none →
      (ledgerEnv env.ctx blocks).connects other = .connected := by
  intro other ho hroot
  obtain ⟨pprev, hprev⟩ := Option.ne_none_iff_exists'.1 hroot
  obtain ⟨block, hblk⟩ := hsynced.onChain.chain hsynced.tip other ho pprev hprev
  obtain ⟨view, view', before, after, hutxo, -, hconn, -⟩ := hblk.accepted
  have hbip30 := hblk.bip30
  rw [← hutxo] at hbip30
  have hfollows := connectBlock_follows before (CCoinsViewCache.ofBase_wf view.wf) hprev
    hblk.genesis hbip30
  obtain ⟨utxo, hledger, -⟩ := hfollows.returned _ hconn
  have hledger : ledgerBlock env.ctx block pprev other view.cache.utxo = .ok utxo := hledger
  have hread := hblk.read
  rw [hsynced.files] at hread hutxo
  rw [hutxo] at hledger
  change ledgerConnection env.ctx blocks other = .connected
  rw [ledgerConnection_eq hprev hread, hledger]
  rfl

/-- When `ActivateBestChain` returns true, the tip is the best block whose chain has data, is
not marked failed and connects; it has at least the work of the tip before; and the coins
are those of the new tip. -/
theorem activation_reaches_best {rounds : ℕ} {fHavePruned : Bool}
    (hgrown : node.tree.Grown params)
    (hcheck : node.tree.checkBlockIndex params fHavePruned = true)
    (hexpected : Expected env blocks node.tree.mapBlockIndex) (hsynced : node.Synced env.ctx blocks)
    (hactivate : activateBestChain params env rounds none node = .ok (.done, node')) :
    node'.tree.tip ∈ node.tree.mapBlockIndex ∧
      node.tree.Connects (ledgerEnv env.ctx blocks) node'.tree.tip ∧
      (∀ pindex ∈ node.tree.mapBlockIndex, node.tree.Connects (ledgerEnv env.ctx blocks) pindex →
        node.tree.rank params pindex ≤ node.tree.rank params node'.tree.tip) ∧
      (node.tree.entry node.tree.tip).nChainWork ≤ (node'.tree.entry node'.tree.tip).nChainWork ∧
      node'.chain.pcoinsTip.getBestBlock.1 = node'.tree.tip.getBlockHash ∧
      node'.chain.pcoinsTip.utxo = utxoAt blocks node'.tree.tip := by
  obtain ⟨htree, hsynced'⟩ :=
    activateBestChain_synced hexpected hgrown (by rintro _ ⟨⟩) hsynced hactivate
  have htip : node.tree.Connects (ledgerEnv env.ctx blocks) node.tree.tip :=
    ⟨hgrown.usable, hsynced.connected⟩
  obtain ⟨best, hknown, hbest, hmax⟩ := BlockTree.exists_best params hgrown htip
  have hcandidate := BlockTree.candidate_of_check hcheck hknown hbest.usable
    (hmax _ hgrown.tip htip)
  have hleads : BlockTree.Leads (ledgerEnv env.ctx blocks) node.tree best node.tree :=
    ⟨hcandidate, hbest.usable, hsynced.connected, fun _ => id, rfl, .refl _⟩
  obtain ⟨hgrown', hleads', hrank⟩ :=
    BlockTree.activateBestChain_leads hbest hmax hgrown hleads (by rintro _ ⟨⟩) htree
  have hnew : node.tree.Connects (ledgerEnv env.ctx blocks) node'.tree.tip :=
    ⟨hleads'.before _ hgrown'.usable, hleads'.tip⟩
  have hall : ∀ pindex ∈ node.tree.mapBlockIndex,
      node.tree.Connects (ledgerEnv env.ctx blocks) pindex →
      node.tree.rank params pindex ≤ node.tree.rank params node'.tree.tip :=
    fun pindex hpindex hconnects => (hmax pindex hpindex hconnects).trans hrank
  refine ⟨hleads'.known ▸ hgrown'.tip, hnew, hall, ?_, hsynced'.best, ?_⟩
  · have hnotWorse := hall _ hgrown.tip htip
    rw [BlockTree.rank, BlockTree.rank, Prod.Lex.toLex_le_toLex] at hnotWorse
    rw [hleads'.shrunk.nChainWork]
    rcases hnotWorse with hless | ⟨hsame, -⟩
    · exact hless.le
    · exact hsame.le
  · rw [hsynced'.onChain.utxo, hsynced'.tip, hsynced'.files]
    rfl

end Node

namespace BestChainWitness

open BlockTree UndoInverseWitness InvalidHeadersWitness FailedBlocksWitness

def treeParams : TreeParams := { params with hashGenesisBlock := hashOf 1 }

def lower : CBlockIndex := .child genesis (hashOf 2) 0

def coinbaseBlock : CBlock :=
  ⟨hashOf 2, hashOf 4, 0, [coinbaseTx 10 hashOf_ten_ne_null 5000000000]⟩

def chain : CChainState where
  pcoinsTip := .ofBase (.db ⟨∅, some (hashOf 1), none, 16777216, fun _ => 64⟩)
  tip := some genesis
  store :=
    ⟨fun pindex => if pindex = lower then some coinbaseBlock else none, fun _ => none, .empty⟩

def nodeEnv : NodeEnv := ⟨ctx, fun _ => ⟨true, true⟩, some coinbaseBlock⟩

theorem onChain_chain : chain.OnChain ctx where
  wf := CCoinsViewCache.ofBase_wf trivial
  base := ⟨_, rfl⟩
  utxo := rfl
  recorded pindex hundo := absurd rfl hundo
  active := by
    intro pindex hmem hroot
    obtain rfl := List.mem_singleton.1 hmem
    exact absurd rfl hroot

/-- The tip and the blocks of a tree with the block not connected. -/
def holdsLower (tree : BlockTree) : Bool :=
  decide (tree.tip = genesis) && decide (tree.mapBlockIndex = [lower, genesis]) &&
    tree.checkBlockIndex treeParams false

variable {tree : BlockTree}

theorem synced_chain (htip : tree.tip = genesis) :
    (⟨tree, chain, 0⟩ : Node).Synced nodeEnv.ctx chain.store.readBlockFromDisk where
  onChain := onChain_chain
  tip := by rw [htip]; rfl
  files := rfl
  best := by rw [htip]; rfl

theorem expected_chain : Node.Expected nodeEnv chain.store.readBlockFromDisk [lower, genesis] where
  fresh := by
    intro pindex hmem pprev block hprev hblk
    rcases List.mem_pair.1 hmem with rfl | rfl
    · obtain rfl : genesis = pprev := Option.some.inj hprev
      exact .inl (by decide)
    · cases hprev
  arrived block hblk := by
    cases hblk
    decide
  root := by decide
  named := by decide

/-- The tip when `ActivateBestChain` returns true. -/
def tipAfter (tree : BlockTree) : Option CBlockIndex :=
  match Node.activateBestChain treeParams nodeEnv 5 none ⟨tree, chain, 0⟩ with
  | .ok (.done, node) => some node.tree.tip
  | _ => none

theorem done_of_tipAfter {tip : CBlockIndex} (htip : tipAfter tree = some tip) :
    ∃ node',
      Node.activateBestChain treeParams nodeEnv 5 none ⟨tree, chain, 0⟩ = .ok (.done, node') ∧
      node'.tree.tip = tip := by
  rw [tipAfter] at htip
  split at htip
  · next node' hdone => exact ⟨node', hdone, Option.some.inj htip⟩
  · cases htip

/-- The block arrives and is connected. -/
theorem arrived_block_becomes_tip :
    ∃ tree node', Runs.run (call treeParams)
        [.acceptBlock (validBody 1 2)] (initial treeParams 0 1) = .ok tree ∧
      Node.activateBestChain treeParams nodeEnv 5 none ⟨tree, chain, 0⟩ = .ok (.done, node') ∧
      node'.tree.tip = lower ∧
      node'.chain.pcoinsTip.utxo = utxoAt chain.store.readBlockFromDisk lower := by
  have hends : Runs.endsIn (call treeParams) (fun tree =>
      holdsLower tree && decide (tipAfter tree = some lower))
      [.acceptBlock (validBody 1 2)] (initial treeParams 0 1) = true := by
    decide +kernel
  obtain ⟨tree, hrun, htest⟩ := Runs.exists_of_endsIn hends
  simp only [holdsLower, Bool.and_eq_true, decide_eq_true_eq] at htest
  obtain ⟨⟨⟨htip, hknown⟩, hcheck⟩, hafter⟩ := htest
  obtain ⟨node', hdone, hlower⟩ := done_of_tipAfter hafter
  have hexpected : Node.Expected nodeEnv chain.store.readBlockFromDisk tree.mapBlockIndex := by
    rw [hknown]
    exact expected_chain
  have hbest := Node.activation_reaches_best (ChainLoop.ready_of_run hrun).grown hcheck hexpected
    (synced_chain htip) hdone
  refine ⟨tree, node', hrun, hdone, hlower, ?_⟩
  rw [hbest.2.2.2.2.2, hlower]

/-- The block is invalidated by hand before it is connected: its data is there and the ledger
accepts it, but the tip stays below it. -/
theorem invalidated_block_stays_out :
    ∃ tree node', Runs.run (call treeParams)
        [.acceptBlock (validBody 1 2),
          .invalidateBlock env (hashOf 2)] (initial treeParams 0 1) = .ok tree ∧
      tree.checkBlockIndex treeParams false = true ∧
      (⟨tree, chain, 0⟩ : Node).Synced nodeEnv.ctx chain.store.readBlockFromDisk ∧
      Node.Expected nodeEnv chain.store.readBlockFromDisk tree.mapBlockIndex ∧
      Node.activateBestChain treeParams nodeEnv 5 none ⟨tree, chain, 0⟩ = .ok (.done, node') ∧
      lower ∈ tree.mapBlockIndex ∧
      (∀ other ∈ lower.ancestors, (tree.entry other).haveData = true ∧ (other.pprev ≠ none →
        ledgerConnection ctx chain.store.readBlockFromDisk other = .connected)) ∧
      (tree.entry node'.tree.tip).nChainWork < (tree.entry lower).nChainWork := by
  have hends : Runs.endsIn (call treeParams) (fun tree =>
      holdsLower tree && decide (tipAfter tree = some genesis) &&
        lower.ancestors.all (fun other => (tree.entry other).haveData) &&
        decide ((tree.entry genesis).nChainWork < (tree.entry lower).nChainWork))
      [.acceptBlock (validBody 1 2),
        .invalidateBlock env (hashOf 2)] (initial treeParams 0 1) = true := by
    decide +kernel
  obtain ⟨tree, hrun, htest⟩ := Runs.exists_of_endsIn hends
  simp only [holdsLower, Bool.and_eq_true, decide_eq_true_eq, List.all_eq_true] at htest
  obtain ⟨⟨⟨⟨⟨htip, hknown⟩, hcheck⟩, hafter⟩, hdata⟩, hwork⟩ := htest
  obtain ⟨node', hdone, hgenesis⟩ := done_of_tipAfter hafter
  have hledger : ∀ other ∈ lower.ancestors, other.pprev ≠ none →
      ledgerConnection ctx chain.store.readBlockFromDisk other = .connected := by
    decide +kernel
  refine ⟨tree, node', hrun, hcheck, synced_chain htip, ?_, hdone, ?_, ?_, ?_⟩
  · rw [hknown]
    exact expected_chain
  · rw [hknown]
    exact List.mem_cons_self
  · exact fun other ho => ⟨hdata other ho, hledger other ho⟩
  · rw [hgenesis]
    exact hwork

end BestChainWitness

end Catoshi
