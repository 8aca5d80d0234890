/-
`CheckBlockIndex` (`validation.cpp`) and the `pskip` pointers (`chain.cpp`). The source walks the
tree; here the oldest block with a property is the first such block up from the genesis block.
-/
import Catoshi.BlockTree

namespace Catoshi

def invertLowestOne (n : ℕ) : ℕ := n &&& (n - 1)

def getSkipHeight (height : ℕ) : ℕ :=
  if height < 2 then 0
  else if height &&& 1 ≠ 0 then invertLowestOne (invertLowestOne (height - 1)) + 1
  else invertLowestOne height

/-- `BuildSkip`. -/
def CBlockIndex.pskip : CBlockIndex → Option CBlockIndex
  | .genesis _ _ => none
  | .child pprev _ _ => pprev.getAncestor (getSkipHeight (pprev.nHeight + 1))

theorem invertLowestOne_lt {n : ℕ} (hpos : 0 < n) : invertLowestOne n < n :=
  lt_of_le_of_lt Nat.and_le_right (by omega)

theorem getSkipHeight_lt {height : ℕ} (hpos : 0 < height) : getSkipHeight height < height := by
  rw [getSkipHeight]
  split
  · exact hpos
  · next hhigh =>
    split
    · have hfst := invertLowestOne_lt (show 0 < height - 1 by omega)
      have hsnd : invertLowestOne (invertLowestOne (height - 1)) ≤
        invertLowestOne (height - 1) := Nat.and_le_left
      omega
    · exact invertLowestOne_lt hpos

def blockValidChain : ℕ := 4

namespace BlockTree

/-- The oldest block with a property below a block. -/
def first (test : CBlockIndex → Bool) (pindex : CBlockIndex) : Option CBlockIndex :=
  pindex.ancestors.reverse.find? test

/-- Blocks after the genesis block below a level. -/
def belowLevel (tree : BlockTree) (level : ℕ) (pindex : CBlockIndex) : Bool :=
  pindex.pprev.isSome && decide ((tree.entry pindex).nValidity < level)

/-- The assertions about the fields of one block. -/
def checkEntry (params : TreeParams) (fHavePruned : Bool) (tree : BlockTree)
    (pindex : CBlockIndex) : Bool :=
  let entry := tree.entry pindex
  let pindexFirstInvalid := first (fun other => (tree.entry other).failedValid) pindex
  let pindexFirstMissing := first (fun other => !(tree.entry other).haveData) pindex
  let pindexFirstNeverProcessed := first (fun other => (tree.entry other).nTx = 0) pindex
  let pindexFirstNotTreeValid := first (tree.belowLevel blockValidTree) pindex
  let pindexFirstNotTransactionsValid := first (tree.belowLevel blockValidTransactions) pindex
  let pindexFirstNotChainValid := first (tree.belowLevel blockValidChain) pindex
  let pindexFirstNotScriptsValid := first (tree.belowLevel blockValidScripts) pindex
  decide (pindex.pprev = none →
      pindex.getBlockHash = params.hashGenesisBlock ∧ pindex = tree.tip.root) &&
    decide (entry.nChainTx = 0 → entry.nSequenceId ≤ 0) &&
    (if fHavePruned then decide (entry.haveData = true → 0 < entry.nTx)
      else decide (entry.haveData = false ↔ entry.nTx = 0) &&
        decide (pindexFirstMissing = pindexFirstNeverProcessed)) &&
    decide (entry.haveUndo = true → entry.haveData = true) &&
    decide (blockValidTransactions ≤ entry.nValidity ↔ 0 < entry.nTx) &&
    decide (pindexFirstNeverProcessed ≠ none ↔ entry.nChainTx = 0) &&
    decide (pindexFirstNotTransactionsValid ≠ none ↔ entry.nChainTx = 0) &&
    decide (pindex.nHeight + 1 = pindex.ancestors.length) &&
    decide (∀ pprev ∈ pindex.pprev, (tree.entry pprev).nChainWork ≤ entry.nChainWork) &&
    decide (pindex.nHeight < 2 ∨ ∃ pskip ∈ pindex.pskip, pskip.nHeight < pindex.nHeight) &&
    decide (pindexFirstNotTreeValid = none) &&
    decide (blockValidChain ≤ entry.nValidity → pindexFirstNotChainValid = none) &&
    decide (blockValidScripts ≤ entry.nValidity → pindexFirstNotScriptsValid = none) &&
    decide (pindexFirstInvalid = none → entry.failed = false)

def checkSets (params : TreeParams) (fHavePruned : Bool) (tree : BlockTree)
    (pindex : CBlockIndex) : Bool :=
  let entry := tree.entry pindex
  let pindexFirstInvalid := first (fun other => (tree.entry other).failedValid) pindex
  let pindexFirstMissing := first (fun other => !(tree.entry other).haveData) pindex
  let pindexFirstNeverProcessed := first (fun other => (tree.entry other).nTx = 0) pindex
  let foundInUnlinked := tree.mapBlocksUnlinked.any fun waiting =>
    decide (some waiting.1 = pindex.pprev) && decide (waiting.2 = pindex)
  (if tree.less params pindex tree.tip = false ∧ pindexFirstNeverProcessed = none then
      decide (pindexFirstInvalid = none → pindexFirstMissing = none ∨ pindex = tree.tip →
        pindex ∈ tree.setBlockIndexCandidates)
    else
      decide (pindex ∉ tree.setBlockIndexCandidates)) &&
    decide (pindex.pprev ≠ none → entry.haveData = true → pindexFirstNeverProcessed ≠ none →
      pindexFirstInvalid = none → foundInUnlinked = true) &&
    decide (entry.haveData = false → foundInUnlinked = false) &&
    decide (pindexFirstMissing = none → foundInUnlinked = false) &&
    -- what is missing was pruned, and the block may have been given up as a candidate
    decide (pindex.pprev ≠ none → entry.haveData = true → pindexFirstNeverProcessed = none →
      pindexFirstMissing ≠ none → fHavePruned = true ∧ (tree.less params pindex tree.tip = false →
        pindex ∉ tree.setBlockIndexCandidates → pindexFirstInvalid = none →
        foundInUnlinked = true))

/-- `CheckBlockIndex`: one block has no predecessor, all are reached from it, and every block
passes. -/
def checkBlockIndex (params : TreeParams) (fHavePruned : Bool) (tree : BlockTree) : Bool :=
  decide ((tree.mapBlockIndex.filter fun pindex => pindex.pprev = none).length = 1) &&
    (tree.mapBlockIndex.all fun pindex =>
      decide (∀ pprev ∈ pindex.pprev, pprev ∈ tree.mapBlockIndex)) &&
    tree.mapBlockIndex.all fun pindex =>
      tree.checkEntry params fHavePruned pindex && tree.checkSets params fHavePruned pindex

end BlockTree

end Catoshi
