/-
`ActivateBestChain` on a whole node (`validation.cpp`): `ConnectTip` and `DisconnectTip` move the
tip through the block tree and change the coins.
-/
import Catoshi.ActivateProgress
import Catoshi.LedgerConnect
import Catoshi.TipsSpec

namespace Catoshi

/-- The block tree, the coins and files, and how often a flush was considered. -/
structure Node where
  tree : BlockTree
  chain : CChainState
  nFlushes : ℕ

/-- What a node is given to look for the best chain: the rules, what each flush finds out, and
perhaps the block that just arrived. -/
structure NodeEnv where
  ctx : ValidationContext
  flush : ℕ → FlushEnv
  pblock : Option CBlock

namespace Node

open BlockTree

/-- `DisconnectTip`, and whether it succeeded. -/
def disconnectTip (env : NodeEnv) (node : Node) : Except Fault (Bool × Node) :=
  match node.chain.disconnectTip env.ctx.options (env.flush node.nFlushes) with
  | .error fault => .error fault
  | .ok (.error _, chain) =>
    .ok (false, { node with chain := chain, nFlushes := node.nFlushes + 1 })
  | .ok (.ok _, chain) =>
    let tip := node.tree.tip.pprev.getD node.tree.tip
    .ok (true, ⟨{ node.tree with tip := tip }, chain, node.nFlushes + 1⟩)

/-- Disconnect down to the fork, and whether all could be disconnected. -/
def disconnectTo (env : NodeEnv) (pindexFork : Option CBlockIndex) :
    CBlockIndex → Node → Except Fault (Bool × Node)
  | .genesis hash nTime, node =>
    .ok (some (CBlockIndex.genesis hash nTime) = pindexFork, node)
  | .child pprev hash nTime, node =>
    if some (CBlockIndex.child pprev hash nTime) = pindexFork then .ok (true, node)
    else
      match node.disconnectTip env with
      | .error fault => .error fault
      | .ok (false, node) => .ok (false, node)
      | .ok (true, node) => disconnectTo env pindexFork pprev node

/-- The block handed to `ConnectTip`: the one that just arrived, if it is the block to go for. -/
def handedOver (env : NodeEnv) (pindexMostWork pindexConnect : CBlockIndex) : Option CBlock :=
  if pindexConnect = pindexMostWork then
    env.pblock.filter fun block => block.getHash = pindexMostWork.getBlockHash
  else
    none

/-- The loop of `ActivateBestChainStep` that connects blocks. -/
def connectBlocks (params : TreeParams) (env : NodeEnv) (pindexMostWork : CBlockIndex)
    (oldWork : ℕ) : List CBlockIndex → Node → Except Fault (Option Bool × Node)
  | [], node => .ok (some false, node)
  | pindexConnect :: rest, node =>
    match node.chain.connectTip env.ctx (env.flush node.nFlushes) pindexConnect
        (handedOver env pindexMostWork pindexConnect) with
    | .error fault => .error fault
    | .ok (result, chain) =>
      let node : Node := { node with chain := chain, nFlushes := node.nFlushes + 1 }
      match Connection.ofResult result with
      | .connected =>
        match (node.tree.connectTip pindexConnect).pruneBlockIndexCandidates params with
        | .error fault => .error fault
        | .ok tree =>
          let node : Node := { node with tree := tree }
          if oldWork < (tree.entry tree.tip).nChainWork then .ok (some false, node)
          else connectBlocks params env pindexMostWork oldWork rest node
      | .invalid =>
        .ok (some true, { node with tree := node.tree.invalidBlockFound params pindexConnect })
      | .corrupt => .ok (some true, node)
      | .systemError scriptsValid =>
        .ok (none, { node with
          tree := if scriptsValid then node.tree.markScriptsValid pindexConnect
            else node.tree })

def activateBestChainStep (params : TreeParams) (env : NodeEnv) (node : Node)
    (pindexMostWork : CBlockIndex) : Except Fault (Option Bool × Node) :=
  match disconnectTo env (node.tree.findFork pindexMostWork) node.tree.tip node with
  | .error fault => .error fault
  | .ok (false, rewound) => .ok (none, rewound)
  | .ok (true, rewound) =>
    connectBlocks params env pindexMostWork (node.tree.entry node.tree.tip).nChainWork
      (pindexMostWork.above rewound.tree.tip).reverse rewound

/-- `ActivateBestChain`, shut down after a number of rounds. -/
def activateBestChain (params : TreeParams) (env : NodeEnv) :
    ℕ → Option CBlockIndex → Node → Except Fault (Activation × Node)
  | 0, _, node => .ok (.shutdown, node)
  | n + 1, pindexMostWork, node =>
    match node.tree.mostWork params pindexMostWork with
    | .error fault => .error fault
    | .ok (none, tree) => .ok (.done, { node with tree := tree })
    | .ok (some pindexMostWork, tree) =>
      let node : Node := { node with tree := tree }
      if pindexMostWork = node.tree.tip then .ok (.done, node)
      else
        match node.activateBestChainStep params env pindexMostWork with
        | .error fault => .error fault
        | .ok (none, node) => .ok (.failed, node)
        | .ok (some true, node) => activateBestChain params env n none node
        | .ok (some false, node) =>
          if node.tree.tip = pindexMostWork then .ok (.done, node)
          else activateBestChain params env n (some pindexMostWork) node

end Node

/-! ### What the ledger says about the blocks -/

def Connection.ofLedger : Except Reject UtxoMap → Connection
  | .ok _ => .connected
  | .error reject => if reject.corruptionPossible then .corrupt else .invalid

/-- What connecting a block on its parent's chain comes to. -/
def ledgerConnection (ctx : ValidationContext) (blocks : CBlockIndex → Option CBlock)
    (pindex : CBlockIndex) : Connection :=
  match pindex.pprev, blocks pindex with
  | some pprev, some block =>
    .ofLedger (ledgerBlock ctx block pprev pindex (utxoAt blocks pprev))
  | _, _ => .systemError false

theorem ledgerConnection_eq {ctx : ValidationContext} {blocks : CBlockIndex → Option CBlock}
    {pindex pprev : CBlockIndex} {block : CBlock} (hprev : pindex.pprev = some pprev)
    (hblk : blocks pindex = some block) : ledgerConnection ctx blocks pindex =
      .ofLedger (ledgerBlock ctx block pprev pindex (utxoAt blocks pprev)) := by
  rw [ledgerConnection, hprev, hblk]

/-- A block tree moved by the ledger alone. -/
def ledgerEnv (ctx : ValidationContext) (blocks : CBlockIndex → Option CBlock) : ActivateEnv where
  connects := ledgerConnection ctx blocks
  disconnects _ := true

/-- The block makes no output that is still unspent below it, unless the check for that is on. -/
def NoOverwrites (ctx : ValidationContext) (blocks : CBlockIndex → Option CBlock)
    (pindex : CBlockIndex) : Prop :=
  ∀ pprev block, pindex.pprev = some pprev → blocks pindex = some block →
    fEnforceBIP30 ctx.params pprev = true ∨
      FreshOutputs pindex.nHeight (utxoAt blocks pprev) block.vtx

end Catoshi
