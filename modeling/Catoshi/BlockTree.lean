/-
The tree of block headers (`validation.cpp`): which blocks are taken in, which chain is made
active, and how invalid blocks are marked. The place of a block is its `CBlockIndex`; what the
functions write is kept beside it.
-/
import Catoshi.Chain

namespace Catoshi

def blockValidTree : ℕ := 2

def blockValidTransactions : ℕ := 3

def blockValidScripts : ℕ := 5

def minBlocksToKeep : ℕ := 288

/-- What changes in a `CBlockIndex`: the parts of `nStatus`, the transaction counts, the work and
the order of arrival. -/
structure BlockEntry where
  nValidity : ℕ
  haveData : Bool
  haveUndo : Bool
  failedValid : Bool
  failedChild : Bool
  nTx : ℕ
  nChainTx : ℕ
  nChainWork : ℕ
  nSequenceId : ℤ
deriving DecidableEq, Repr

namespace BlockEntry

def new : BlockEntry := ⟨0, false, false, false, false, 0, 0, 0, 0⟩

/-- `nStatus & BLOCK_FAILED_MASK`. -/
def failed (entry : BlockEntry) : Bool := entry.failedValid || entry.failedChild

def isValid (entry : BlockEntry) (nUpTo : ℕ) : Bool :=
  !entry.failed && decide (nUpTo ≤ entry.nValidity)

def raiseValidity (entry : BlockEntry) (nUpTo : ℕ) : BlockEntry :=
  if entry.failed then entry
  else if entry.nValidity < nUpTo then { entry with nValidity := nUpTo }
  else entry

end BlockEntry

/-- The consensus parameters, the work a header proves and the addresses of the entries.
`CheckProofOfWork` refuses targets with zero `GetBlockProof`. -/
structure TreeParams where
  hashGenesisBlock : Uint256
  nMinimumChainWork : ℕ
  getBlockProof : Uint256 → ℕ
  getBlockProof_pos : ∀ hash, 0 < getBlockProof hash
  address : CBlockIndex → ℕ

/-- The block tree of `CChainState`. `g_failed_blocks` is in the order of addresses. -/
structure BlockTree where
  mapBlockIndex : List CBlockIndex
  entry : CBlockIndex → BlockEntry
  setBlockIndexCandidates : List CBlockIndex
  mapBlocksUnlinked : List (CBlockIndex × CBlockIndex)
  gFailedBlocks : List CBlockIndex
  tip : CBlockIndex
  nBlockSequenceId : ℤ

structure CBlockHeader where
  hash : Uint256
  hashPrevBlock : Uint256
  nTime : UInt32
deriving DecidableEq, Repr

/-- What `CheckBlockHeader` and `ContextualCheckBlockHeader` find. -/
structure HeaderChecks where
  checkBlockHeader : Except Reject Unit
  contextualCheckBlockHeader : CBlockIndex → Except Reject Unit

namespace BlockTree

def find (tree : BlockTree) (hash : Uint256) : Option CBlockIndex :=
  tree.mapBlockIndex.find? fun pindex => decide (pindex.getBlockHash = hash)

variable (params : TreeParams) (tree : BlockTree) (pindex : CBlockIndex)

def contains : Bool :=
  chainContains (some tree.tip) pindex

@[simps]
def modify (change : BlockEntry → BlockEntry) : BlockTree :=
  { tree with entry := Function.update tree.entry pindex (change (tree.entry pindex)) }

@[simps]
def insertCandidate : BlockTree :=
  { tree with setBlockIndexCandidates := tree.setBlockIndexCandidates.insert pindex }

@[simps]
def eraseCandidate : BlockTree :=
  { tree with
    setBlockIndexCandidates := tree.setBlockIndexCandidates.filter fun other => other ≠ pindex }

def markFailedChild : BlockTree :=
  tree.modify pindex fun entry => { entry with failedChild := true }

def markFailedValid : BlockTree :=
  tree.modify pindex fun entry => { entry with failedValid := true }

/-- `g_failed_blocks.insert`. -/
def insertFailed : BlockTree :=
  if pindex ∈ tree.gFailedBlocks then tree
  else
    { tree with
      gFailedBlocks := tree.gFailedBlocks.orderedInsert
        (fun first second => params.address first ≤ params.address second) pindex }

/-- `CBlockIndexWorkComparator`. -/
def less (pa pb : CBlockIndex) : Bool :=
  if (tree.entry pb).nChainWork < (tree.entry pa).nChainWork then false
  else if (tree.entry pa).nChainWork < (tree.entry pb).nChainWork then true
  else if (tree.entry pa).nSequenceId < (tree.entry pb).nSequenceId then false
  else if (tree.entry pb).nSequenceId < (tree.entry pa).nSequenceId then true
  else if params.address pa < params.address pb then false
  else decide (params.address pb < params.address pa)

def addToBlockIndex (block : CBlockHeader) : CBlockIndex × BlockTree :=
  match tree.find block.hash with
  | some pindex => (pindex, tree)
  | none =>
    let pprev := tree.find block.hashPrevBlock
    let pindexNew :=
      match pprev with
      | some pprev => CBlockIndex.child pprev block.hash block.nTime
      | none => CBlockIndex.genesis block.hash block.nTime
    let prevWork := pprev.elim 0 fun pprev => (tree.entry pprev).nChainWork
    let entry := { BlockEntry.new with
      nChainWork := prevWork + params.getBlockProof block.hash }
    (pindexNew, { tree with
      mapBlockIndex := pindexNew :: tree.mapBlockIndex
      entry := Function.update tree.entry pindexNew (entry.raiseValidity blockValidTree) })

/-- Mark the blocks from a header down to the failed one below it. -/
def invalidWalk (pindex failedit : CBlockIndex) : BlockTree :=
  (pindex.above failedit).foldl markFailedChild tree

/-- `AcceptBlockHeader`: the entry, or why it is not accepted. -/
def acceptBlockHeader (block : CBlockHeader)
    (checks : HeaderChecks) : Except Fault (Except Reject CBlockIndex × BlockTree) :=
  let add := fun tree : BlockTree =>
    let added := tree.addToBlockIndex params block
    (.ok (.ok added.1, added.2) : Except Fault (Except Reject CBlockIndex × BlockTree))
  if block.hash = params.hashGenesisBlock then add tree
  else
    match tree.find block.hash with
    | some pindex =>
      if (tree.entry pindex).failed then .ok (.error ⟨0, 0, "duplicate", false⟩, tree)
      else .ok (.ok pindex, tree)
    | none =>
      match checks.checkBlockHeader, tree.find block.hashPrevBlock with
      | .error reject, _ => .ok (.error reject, tree)
      | .ok _, none => .ok (.error ⟨10, 0, "prev-blk-not-found", false⟩, tree)
      | .ok _, some pindexPrev =>
        if (tree.entry pindexPrev).failed then .ok (.error (dos 100 "bad-prevblk"), tree)
        else
          match checks.contextualCheckBlockHeader pindexPrev with
          | .error reject => .ok (.error reject, tree)
          | .ok _ =>
            if (tree.entry pindexPrev).isValid blockValidScripts then add tree
            else
              match tree.gFailedBlocks.find? fun failedit =>
                decide (pindexPrev.getAncestor failedit.nHeight = some failedit) with
              | none => add tree
              | some failedit =>
                if (tree.entry failedit).failedValid then
                  .ok (.error (dos 100 "bad-prevblk"), tree.invalidWalk pindexPrev failedit)
                else
                  .error (.assertFailed "failedit->nStatus & BLOCK_FAILED_VALID")

/-- The queue of `ReceivedBlockTransactions`. Every round takes a block off and adds its waiting
children. The counts wrap around. -/
def linkBlocks (params : TreeParams) : ℕ → List CBlockIndex → BlockTree → BlockTree
  | 0, _, tree => tree
  | _, [], tree => tree
  | n + 1, pindex :: queue, tree =>
    let prevTx := pindex.pprev.elim 0 fun pprev => (tree.entry pprev).nChainTx
    let tree := { tree.modify pindex (fun entry => { entry with
        nChainTx := (prevTx + entry.nTx) % 2 ^ 32
        nSequenceId := tree.nBlockSequenceId }) with
      nBlockSequenceId := (tree.nBlockSequenceId + 1).bmod (2 ^ 32) }
    let tree := if tree.less params pindex tree.tip then tree else tree.insertCandidate pindex
    let children := tree.mapBlocksUnlinked.filter fun waiting => waiting.1 = pindex
    linkBlocks params n (queue ++ children.map Prod.snd)
      { tree with
        mapBlocksUnlinked := tree.mapBlocksUnlinked.filter fun waiting => waiting.1 ≠ pindex }

def receivedBlockTransactions (pindexNew : CBlockIndex) (nTx : ℕ) : BlockTree :=
  let tree := tree.modify pindexNew fun entry =>
    ({ entry with nTx := nTx, nChainTx := 0, haveData := true } : BlockEntry).raiseValidity
      blockValidTransactions
  match pindexNew.pprev with
  | none => linkBlocks params (tree.mapBlocksUnlinked.length + 1) [pindexNew] tree
  | some pprev =>
    if (tree.entry pprev).nChainTx ≠ 0 then
      linkBlocks params (tree.mapBlocksUnlinked.length + 1) [pindexNew] tree
    else if (tree.entry pprev).isValid blockValidTree then
      { tree with mapBlocksUnlinked := (pprev, pindexNew) :: tree.mapBlocksUnlinked }
    else
      tree

end BlockTree

/-- A block that arrives: its header, the number of its transactions, what the checks find, whether
it was asked for and could be written. `CheckBlock` refuses one without transactions. -/
structure BlockArrival where
  header : CBlockHeader
  headerChecks : HeaderChecks
  nTx : ℕ
  blockChecks : Except Reject Unit
  nTx_pos : blockChecks = .ok () → 0 < nTx
  fRequested : Bool
  saved : Bool

/-- Why `AcceptBlock` returns false. -/
inductive AcceptError where
  | invalid (reject : Reject)
  | systemError (strMessage : String)
deriving DecidableEq

/-- How `ConnectTip` ends. A block whose data may be corrupt is refused and not marked. A system
error can come before or after the block was found script-valid. -/
inductive Connection where
  | connected
  | invalid
  | corrupt
  | systemError (scriptsValid : Bool)
deriving DecidableEq, Repr

/-- What a node finds out when it tries to move its tip. -/
structure ActivateEnv where
  connects : CBlockIndex → Connection
  disconnects : CBlockIndex → Bool

namespace BlockTree

variable (params : TreeParams) (env : ActivateEnv) (tree : BlockTree) (pindex : CBlockIndex)

/-- Whether `AcceptBlock` ignores an unrequested block. -/
def notWanted : Bool :=
  let entry := tree.entry pindex
  decide (entry.nTx ≠ 0) || decide (entry.nChainWork < (tree.entry tree.tip).nChainWork) ||
    decide (tree.tip.nHeight + minBlocksToKeep < pindex.nHeight) ||
    decide (entry.nChainWork < params.nMinimumChainWork)

/-- `AcceptBlock` once the header has been accepted. -/
def acceptBlockBody (arrival : BlockArrival)
    (pindex : CBlockIndex) : Except AcceptError Unit × BlockTree :=
  if (tree.entry pindex).haveData then (.ok (), tree)
  else if !arrival.fRequested && tree.notWanted params pindex then (.ok (), tree)
  else
    match arrival.blockChecks with
    | .error reject =>
      (.error (.invalid reject),
        if reject.corruptionPossible then tree else tree.markFailedValid pindex)
    | .ok _ =>
      if arrival.saved then
        (.ok (), tree.receivedBlockTransactions params pindex arrival.nTx)
      else
        (.error (.systemError
          "AcceptBlock: Failed to find position to write new block to disk"), tree)

def acceptBlock (arrival : BlockArrival) : Except Fault (Except AcceptError Unit × BlockTree) :=
  match tree.acceptBlockHeader params arrival.header arrival.headerChecks with
  | .error fault => .error fault
  | .ok (.error reject, tree) => .ok (.error (.invalid reject), tree)
  | .ok (.ok pindex, tree) => .ok (tree.acceptBlockBody params arrival pindex)

/-- `DisconnectTip`. The genesis block has no undo data. -/
def disconnectTip : Option BlockTree :=
  match tree.tip with
  | .genesis _ _ => none
  | .child pprev hash nTime =>
    if env.disconnects (.child pprev hash nTime) then some { tree with tip := pprev } else none

/-- `InvalidBlockFound` for a block known to be intact. -/
def invalidBlockFound : BlockTree :=
  ((tree.markFailedValid pindex).insertFailed params pindex).eraseCandidate pindex

/-- The better of the best block so far and another. -/
def better (best : Option CBlockIndex) (pindex : CBlockIndex) : Option CBlockIndex :=
  match best with
  | none => some pindex
  | some best => if tree.less params best pindex then some pindex else some best

def bestCandidate : Option CBlockIndex :=
  tree.setBlockIndexCandidates.foldl (tree.better params) none

/-- The first block from a candidate down to the active chain that is marked failed or has no data,
and whether it is marked. -/
def findUnusable (tree : BlockTree) : CBlockIndex → Except Fault (Option (CBlockIndex × Bool))
  | .genesis hash nTime =>
    let pindexTest := CBlockIndex.genesis hash nTime
    let entry := tree.entry pindexTest
    if tree.contains pindexTest then .ok none
    else if entry.failed || !entry.haveData then .ok (some (pindexTest, entry.failed))
    else .ok none
  | .child pprev hash nTime =>
    let pindexTest := CBlockIndex.child pprev hash nTime
    let entry := tree.entry pindexTest
    if tree.contains pindexTest then .ok none
    else if entry.nChainTx = 0 then
      .error (.assertFailed "pindexTest->nChainTx || pindexTest->nHeight == 0")
    else if entry.failed || !entry.haveData then .ok (some (pindexTest, entry.failed))
    else tree.findUnusable pprev

/-- Take a candidate and the blocks below it on an unusable block out of the candidates. -/
def removeChain (pindexNew pindexTest : CBlockIndex) (fFailedChain : Bool) : BlockTree :=
  ((pindexNew.above pindexTest).foldl (fun tree pindexFailed =>
    let tree :=
      if fFailedChain then tree.markFailedChild pindexFailed
      else
        match pindexFailed.pprev with
        | none => tree
        | some pprev =>
          { tree with
            mapBlocksUnlinked := (pprev, pindexFailed) :: tree.mapBlocksUnlinked }
    tree.eraseCandidate pindexFailed) tree).eraseCandidate pindexTest

/-- `FindMostWorkChain`. Every round drops a candidate. -/
def findMostWorkChain (params : TreeParams) :
    ℕ → BlockTree → Except Fault (Option CBlockIndex × BlockTree)
  | 0, tree => .ok (none, tree)
  | n + 1, tree =>
    match tree.bestCandidate params with
    | none => .ok (none, tree)
    | some pindexNew =>
      match tree.findUnusable pindexNew with
      | .error fault => .error fault
      | .ok none => .ok (some pindexNew, tree)
      | .ok (some (pindexTest, fFailedChain)) =>
        findMostWorkChain params n (tree.removeChain pindexNew pindexTest fFailedChain)

def pruneBlockIndexCandidates : Except Fault BlockTree :=
  let kept := tree.setBlockIndexCandidates.filter fun pindex => !tree.less params pindex tree.tip
  if kept = [] then .error (.assertFailed "!setBlockIndexCandidates.empty()")
  else .ok { tree with setBlockIndexCandidates := kept }

def findFork : Option CBlockIndex :=
  let start :=
    if tree.tip.nHeight < pindex.nHeight then pindex.getAncestor tree.tip.nHeight
    else some pindex
  start.bind fun pindex => pindex.ancestors.find? fun other => tree.contains other

/-- Disconnect to the fork; if a block cannot be disconnected the state is returned as an error. -/
def disconnectTo (env : ActivateEnv) (pindexFork : Option CBlockIndex) :
    CBlockIndex → BlockTree → Except BlockTree BlockTree
  | .genesis hash nTime, tree =>
    if some (CBlockIndex.genesis hash nTime) = pindexFork then .ok tree else .error tree
  | .child pprev hash nTime, tree =>
    if some (CBlockIndex.child pprev hash nTime) = pindexFork then .ok tree
    else
      match tree.disconnectTip env with
      | none => .error tree
      | some tree => disconnectTo env pindexFork pprev tree

/-- What `ConnectBlock` records of a valid block. -/
def markScriptsValid (pindexNew : CBlockIndex) : BlockTree :=
  tree.modify pindexNew fun entry =>
    ({ entry with haveUndo := true } : BlockEntry).raiseValidity blockValidScripts

/-- `ConnectTip` for a block that can be connected. -/
def connectTip (pindexNew : CBlockIndex) : BlockTree :=
  { tree.markScriptsValid pindexNew with tip := pindexNew }

/-- The loop of `ActivateBestChainStep`: whether it found an invalid block, or nothing after a
system error. It stops once the tip has more work. -/
def connectBlocks (params : TreeParams) (env : ActivateEnv) (oldWork : ℕ) :
    List CBlockIndex → BlockTree → Except Fault (Option Bool × BlockTree)
  | [], tree => .ok (some false, tree)
  | pindexConnect :: rest, tree =>
    if pindexConnect.pprev ≠ some tree.tip then
      .error (.assertFailed "pindexNew->pprev == chainActive.Tip()")
    else
      match env.connects pindexConnect with
      | .connected =>
        match (tree.connectTip pindexConnect).pruneBlockIndexCandidates params with
        | .error fault => .error fault
        | .ok tree =>
          if oldWork < (tree.entry tree.tip).nChainWork then .ok (some false, tree)
          else connectBlocks params env oldWork rest tree
      | .invalid => .ok (some true, tree.invalidBlockFound params pindexConnect)
      -- neither `InvalidBlockFound` nor `InvalidChainFound` does anything
      | .corrupt => .ok (some true, tree)
      | .systemError scriptsValid =>
        .ok (none, if scriptsValid then tree.markScriptsValid pindexConnect else tree)

/-- How `ActivateBestChain` ends. -/
inductive Activation where
  | done
  | failed
  | shutdown
deriving DecidableEq, Repr

/-- `ActivateBestChainStep`: whether an invalid block was found, or nothing after a
system error. -/
def activateBestChainStep (pindexMostWork : CBlockIndex) : Except Fault (Option Bool × BlockTree) :=
  match disconnectTo env (tree.findFork pindexMostWork) tree.tip tree with
  | .error rewound => .ok (none, rewound)
  | .ok rewound =>
    -- the tip is the fork now
    connectBlocks params env (tree.entry tree.tip).nChainWork
      (pindexMostWork.above rewound.tip).reverse rewound

/-- The block to go for: that of the round before, or the best candidate. -/
def mostWork : Option CBlockIndex → Except Fault (Option CBlockIndex × BlockTree)
  | some pindex => .ok (some pindex, tree)
  | none => findMostWorkChain params (tree.setBlockIndexCandidates.length + 1) tree

/-- `ActivateBestChain`, shut down after a number of rounds. -/
def activateBestChain (params : TreeParams) (env : ActivateEnv) :
    ℕ → Option CBlockIndex → BlockTree → Except Fault (Activation × BlockTree)
  | 0, _, tree => .ok (.shutdown, tree)
  | n + 1, pindexMostWork, tree =>
    match tree.mostWork params pindexMostWork with
    | .error fault => .error fault
    | .ok (none, tree) => .ok (.done, tree)
    | .ok (some pindexMostWork, tree) =>
      if pindexMostWork = tree.tip then .ok (.done, tree)
      else
        match tree.activateBestChainStep params env pindexMostWork with
        | .error fault => .error fault
        | .ok (none, tree) => .ok (.failed, tree)
        | .ok (some true, tree) => activateBestChain params env n none tree
        | .ok (some false, tree) =>
          if tree.tip = pindexMostWork then .ok (.done, tree)
          else activateBestChain params env n (some pindexMostWork) tree

/-- The start of `InvalidateBlock`: disconnect to below a block. -/
def disconnectBelow (env : ActivateEnv) (pindex : CBlockIndex) :
    CBlockIndex → BlockTree → Except BlockTree BlockTree
  | .genesis _ _, tree => if tree.contains pindex then .error tree else .ok tree
  | .child pprev _ _, tree =>
    if tree.contains pindex then
      match tree.disconnectTip env with
      | none => .error tree
      | some tree => disconnectBelow env pindex pprev tree
    else
      .ok tree

/-- The end of `InvalidateBlock`, which puts back the candidates no worse than the new tip. -/
def restoreCandidates : BlockTree :=
  tree.mapBlockIndex.foldl (fun tree pindex =>
    if (tree.entry pindex).isValid blockValidTransactions &&
        decide ((tree.entry pindex).nChainTx ≠ 0) && !tree.less params pindex tree.tip then
      tree.insertCandidate pindex
    else
      tree) tree

/-- `InvalidateBlock`, and whether it succeeded. -/
def invalidateBlock : Bool × BlockTree :=
  match disconnectBelow env pindex tree.tip tree with
  | .error tree => (false, tree)
  | .ok rewound =>
    let walked :=
      if tree.contains pindex then
        (tree.tip.above pindex).foldl (fun tree walk =>
          (tree.markFailedChild walk).eraseCandidate walk) rewound
      else
        rewound
    (true, (walked.invalidBlockFound params pindex).restoreCandidates params)

/-- `ResetBlockFailureFlags`: clears the flags of a block, its descendants and its ancestors. -/
def resetBlockFailureFlags : BlockTree :=
  let clear := fun (tree : BlockTree) (other : CBlockIndex) =>
    tree.modify other fun entry => { entry with failedValid := false, failedChild := false }
  let tree := tree.mapBlockIndex.foldl (fun tree other =>
    if !(tree.entry other).isValid blockValidTransactions &&
        decide (other.getAncestor pindex.nHeight = some pindex) then
      let tree := clear tree other
      let tree :=
        if (tree.entry other).isValid blockValidTransactions &&
            decide ((tree.entry other).nChainTx ≠ 0) && tree.less params tree.tip other then
          tree.insertCandidate other
        else
          tree
      { tree with gFailedBlocks := tree.gFailedBlocks.filter fun failed => failed ≠ other }
    else
      tree) tree
  pindex.ancestors.foldl (fun tree other =>
    if (tree.entry other).failed then clear tree other else tree) tree

end BlockTree

/-- The calls that change the block tree. Blocks to invalidate or reconsider are given by hash. -/
inductive TreeCall where
  | acceptBlockHeader (block : CBlockHeader) (checks : HeaderChecks)
  | acceptBlock (arrival : BlockArrival)
  | activateBestChain (env : ActivateEnv) (rounds : ℕ)
  | invalidateBlock (env : ActivateEnv) (hash : Uint256)
  | resetBlockFailureFlags (hash : Uint256)

namespace BlockTree

/-- The state a call leaves, unless an assertion fails. -/
def call (params : TreeParams) (tree : BlockTree) : TreeCall → Except Fault BlockTree
  | .acceptBlockHeader block checks =>
    (tree.acceptBlockHeader params block checks).map Prod.snd
  | .acceptBlock arrival => (tree.acceptBlock params arrival).map Prod.snd
  | .activateBestChain env rounds =>
    (activateBestChain params env rounds none tree).map Prod.snd
  | .invalidateBlock env hash =>
    match tree.find hash with
    | none => .ok tree
    | some pindex => .ok (tree.invalidateBlock params env pindex).2
  | .resetBlockFailureFlags hash =>
    match tree.find hash with
    | none => .ok tree
    | some pindex => .ok (tree.resetBlockFailureFlags params pindex)

/-- A node that has connected the genesis block and knows no other. -/
def initial (params : TreeParams) (nTime : UInt32) (nTx : ℕ) : BlockTree :=
  let genesis := CBlockIndex.genesis params.hashGenesisBlock nTime
  { mapBlockIndex := [genesis]
    entry := Function.update (fun _ => .new) genesis
      ⟨blockValidTransactions, true, false, false, false, nTx, nTx,
        params.getBlockProof params.hashGenesisBlock, 1⟩
    setBlockIndexCandidates := [genesis]
    mapBlocksUnlinked := []
    gFailedBlocks := []
    tip := genesis
    nBlockSequenceId := 2 }

end BlockTree

end Catoshi
