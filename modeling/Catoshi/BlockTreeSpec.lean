/-
What the functions on the block tree do, taken apart into a few kinds of steps.
-/
import Catoshi.BlockTree

namespace Catoshi

open CBlockIndex Function List

namespace CBlockIndex

variable {tip pindex : CBlockIndex}

theorem getAncestor_eq_some_iff :
    tip.getAncestor pindex.nHeight = some pindex ↔ pindex ∈ tip.ancestors := by
  have hcont : chainContains (some tip) pindex = true ↔ pindex ∈ tip.ancestors := chainContains_iff
  rwa [chainContains, decide_eq_true_eq] at hcont

theorem ancestors_antisymm {low high : CBlockIndex} (hlow : low ∈ high.ancestors)
    (hhigh : high ∈ low.ancestors) : low = high := by
  have hheight := le_antisymm (nHeight_le_of_mem hlow) (nHeight_le_of_mem hhigh)
  have hf := getAncestor_eq_some_iff.2 hlow
  rw [hheight, getAncestor_self] at hf
  exact (Option.some.inj hf).symm

theorem mem_above_iff {fork : CBlockIndex} (hfork : fork ∈ tip.ancestors) :
    pindex ∈ tip.above fork ↔ pindex ∈ tip.ancestors ∧ fork ∈ pindex.ancestors ∧ pindex ≠ fork := by
  induction tip, hfork using ancestors_induction with
  | self =>
    rw [above_self]
    constructor
    · simp
    · rintro ⟨hbelow, habove, hne⟩
      exact absurd (ancestors_antisymm hbelow habove) hne
  | child pprev hash time hbelow ih =>
    rw [above_child hbelow, mem_cons, ih, ancestors, mem_cons]
    constructor
    · rintro (rfl | ⟨hmem, habove, hne⟩)
      · exact ⟨.inl rfl, mem_cons_of_mem _ hbelow, child_ne_of_mem hbelow hash time⟩
      · exact ⟨.inr hmem, habove, hne⟩
    · rintro ⟨rfl | hmem, habove, hne⟩
      · exact .inl rfl
      · exact .inr ⟨hmem, habove, hne⟩

end CBlockIndex

namespace BlockTree

variable {tree : BlockTree} {pindex : CBlockIndex}

theorem contains_iff :
    tree.contains pindex = true ↔ pindex ∈ tree.tip.ancestors :=
  chainContains_iff

/-- The whole chain of a block has data and is not marked failed. -/
def Usable (tree : BlockTree) (pindex : CBlockIndex) : Prop :=
  ∀ other ∈ pindex.ancestors, (tree.entry other).failed = false ∧ (tree.entry other).haveData = true

theorem Usable.of_mem {low high : CBlockIndex} (hhigh : tree.Usable high)
    (hlow : low ∈ high.ancestors) : tree.Usable low :=
  fun other ho => hhigh other (ancestors_trans ho hlow)

/-- The known blocks form a tree over the genesis block, the sets hold only known blocks, and the
active chain is usable. -/
structure Grown (params : TreeParams) (tree : BlockTree) : Prop where
  root : ∀ pindex ∈ tree.mapBlockIndex, pindex.pprev = none →
    pindex.getBlockHash = params.hashGenesisBlock
  pprev : ∀ pindex ∈ tree.mapBlockIndex, ∀ pprev, pindex.pprev = some pprev →
    pprev ∈ tree.mapBlockIndex
  unique : ∀ pindex ∈ tree.mapBlockIndex, ∀ other ∈ tree.mapBlockIndex,
    pindex.getBlockHash = other.getBlockHash → pindex = other
  tip : tree.tip ∈ tree.mapBlockIndex
  candidates : ∀ pindex ∈ tree.setBlockIndexCandidates, pindex ∈ tree.mapBlockIndex
  unlinked : ∀ waiting ∈ tree.mapBlocksUnlinked, waiting.2 ∈ tree.mapBlockIndex
  failed : ∀ pindex ∈ tree.gFailedBlocks, pindex ∈ tree.mapBlockIndex
  usable : tree.Usable tree.tip

variable {params : TreeParams} {hash : Uint256} {round : BlockTree → CBlockIndex → BlockTree}

theorem Grown.ancestors (hgrown : tree.Grown params) {other : CBlockIndex}
    (hin : pindex ∈ tree.mapBlockIndex) (ho : other ∈ pindex.ancestors) :
    other ∈ tree.mapBlockIndex := by
  induction pindex, ho using ancestors_induction with
  | self => exact hin
  | child pprev hash time hbelow ih => exact ih (hgrown.pprev _ hin pprev rfl)

theorem mem_of_find (hfind : tree.find hash = some pindex) :
    pindex ∈ tree.mapBlockIndex ∧ pindex.getBlockHash = hash := by
  have hhash := List.find?_some hfind
  exact ⟨mem_of_find?_eq_some hfind, of_decide_eq_true hhash⟩

theorem hash_ne_of_find_none (hfind : tree.find hash = none)
    (hin : pindex ∈ tree.mapBlockIndex) : pindex.getBlockHash ≠ hash := by
  have hno := List.find?_eq_none.1 hfind pindex hin
  simpa using hno

/-- A step that adds no block keeps the tree grown if the sets stay inside. -/
theorem Grown.of_map_eq {next : BlockTree} (hgrown : tree.Grown params)
    (hmap : next.mapBlockIndex = tree.mapBlockIndex) (htip : next.tip ∈ tree.mapBlockIndex)
    (hcands : ∀ pindex ∈ next.setBlockIndexCandidates, pindex ∈ tree.mapBlockIndex)
    (hunlinked : ∀ waiting ∈ next.mapBlocksUnlinked, waiting.2 ∈ tree.mapBlockIndex)
    (hfail : ∀ pindex ∈ next.gFailedBlocks, pindex ∈ tree.mapBlockIndex)
    (huse : next.Usable next.tip) : next.Grown params where
  root := by rw [hmap]; exact hgrown.root
  pprev := by rw [hmap]; exact hgrown.pprev
  unique := by rw [hmap]; exact hgrown.unique
  tip := by rw [hmap]; exact htip
  candidates := by rw [hmap]; exact hcands
  unlinked := by rw [hmap]; exact hunlinked
  failed := by rw [hmap]; exact hfail
  usable := huse

theorem entry_foldl_mark {mark : BlockTree → CBlockIndex → BlockTree}
    (hmark : ∀ tree pindex other, (mark tree pindex).entry other =
      if other = pindex then { tree.entry other with failedChild := true }
      else tree.entry other)
    (blocks : List CBlockIndex) (tree : BlockTree) (other : CBlockIndex) :
    (blocks.foldl mark tree).entry other =
      if other ∈ blocks then { tree.entry other with failedChild := true }
      else tree.entry other := by
  induction blocks generalizing tree with
  | nil => rfl
  | cons pindex blocks ih =>
    rw [foldl_cons, ih, hmark]
    by_cases hsame : other = pindex <;> simp [hsame]

/-- What a round does not touch, the loop does not. -/
theorem foldl_keeps {β : Type*} (part : BlockTree → β)
    (hround : ∀ tree pindex, part (round tree pindex) = part tree) {blocks : List CBlockIndex}
    {tree : BlockTree} : part (blocks.foldl round tree) = part tree := by
  induction blocks generalizing tree with
  | nil => rfl
  | cons pindex blocks ih => rw [foldl_cons, ih, hround]

theorem mem_candidates_foldl_erase
    (hround : ∀ tree pindex, (round tree pindex).setBlockIndexCandidates =
      tree.setBlockIndexCandidates.filter fun other => other ≠ pindex) (blocks : List CBlockIndex)
    (tree : BlockTree) (other : CBlockIndex) :
    other ∈ (blocks.foldl round tree).setBlockIndexCandidates ↔
      other ∈ tree.setBlockIndexCandidates ∧ other ∉ blocks := by
  induction blocks generalizing tree with
  | nil => simp
  | cons pindex blocks ih =>
    rw [foldl_cons, ih, hround, mem_filter, mem_cons]
    simp only [decide_eq_true_eq, not_or, and_assoc]

theorem entry_modify (tree : BlockTree) (pindex other : CBlockIndex)
    (change : BlockEntry → BlockEntry) : (tree.modify pindex change).entry other =
      if other = pindex then change (tree.entry other) else tree.entry other := by
  rw [modify_entry, update_apply]
  split_ifs with hsame
  · rw [hsame]
  · rfl

theorem entry_markFailedChild (tree : BlockTree) (pindex other : CBlockIndex) :
    (tree.markFailedChild pindex).entry other =
      if other = pindex then { tree.entry other with failedChild := true }
      else tree.entry other := entry_modify tree pindex other _

theorem entry_markFailedValid (tree : BlockTree) (pindex other : CBlockIndex) :
    (tree.markFailedValid pindex).entry other =
      if other = pindex then { tree.entry other with failedValid := true }
      else tree.entry other := entry_modify tree pindex other _

end BlockTree

theorem BlockEntry.raiseValidity_eq (entry : BlockEntry) (nUpTo : ℕ) :
    entry.raiseValidity nUpTo = { entry with
      nValidity := if entry.failed then entry.nValidity else max entry.nValidity nUpTo } := by
  rw [raiseValidity]
  by_cases hfail : entry.failed
  · rw [if_pos hfail, if_pos hfail]
  · rw [if_neg hfail, if_neg hfail]
    split_ifs with hlow
    · rw [max_eq_right hlow.le]
    · rw [max_eq_left (not_lt.1 hlow)]

namespace BlockTree

/-! ### Headers -/

theorem entry_invalidWalk (tree : BlockTree) (pindex failedit other : CBlockIndex) :
    (tree.invalidWalk pindex failedit).entry other =
      if other ∈ pindex.above failedit then { tree.entry other with failedChild := true }
      else tree.entry other :=
  entry_foldl_mark entry_markFailedChild _ _ _

/-- Marking blocks failed changes only the entries. -/
theorem invalidWalk_keeps {β : Type*} (part : BlockTree → β)
    (hpart : ∀ (tree : BlockTree) entry, part { tree with entry := entry } = part tree := by
      intros; rfl) {tree : BlockTree} {pindex failedit : CBlockIndex} :
    part (tree.invalidWalk pindex failedit) = part tree :=
  foldl_keeps part fun tree _ => hpart tree _

/-- The entry `AddToBlockIndex` makes on a known block. -/
def newEntry (params : TreeParams) (tree : BlockTree) (pprev : CBlockIndex) (hash : Uint256) :
    BlockEntry :=
  { BlockEntry.new with
    nValidity := blockValidTree
    nChainWork := (tree.entry pprev).nChainWork + params.getBlockProof hash }

def grow (params : TreeParams) (tree : BlockTree) (pprev : CBlockIndex) (block : CBlockHeader) :
    BlockTree :=
  { tree with
    mapBlockIndex := .child pprev block.hash block.nTime :: tree.mapBlockIndex
    entry := update tree.entry (.child pprev block.hash block.nTime)
      (tree.newEntry params pprev block.hash) }

variable {next tree : BlockTree} {params : TreeParams} {pindex pprev : CBlockIndex}
  {block : CBlockHeader}

theorem addToBlockIndex_of_known (hfind : tree.find block.hash = some pindex) :
    tree.addToBlockIndex params block = (pindex, tree) := by
  rw [addToBlockIndex, hfind]

theorem addToBlockIndex_of_new (hfind : tree.find block.hash = none)
    (hprev : tree.find block.hashPrevBlock = some pprev) :
    tree.addToBlockIndex params block =
      (.child pprev block.hash block.nTime, tree.grow params pprev block) := by
  rw [addToBlockIndex, hfind, hprev, grow]
  rfl

/-- What `AcceptBlockHeader` does, and the entry it returns if it accepts. -/
inductive HeaderStep (params : TreeParams) (tree : BlockTree) (block : CBlockHeader) :
    Option CBlockIndex → BlockTree → Prop
  | refused : HeaderStep params tree block none tree
  | known (pindex : CBlockIndex) (hfind : tree.find block.hash = some pindex)
      (hvalid : (tree.entry pindex).failed = false ∨ block.hash = params.hashGenesisBlock) :
      HeaderStep params tree block (some pindex) tree
  | added (pprev : CBlockIndex) (hnew : tree.find block.hash = none)
      (hprev : tree.find block.hashPrevBlock = some pprev)
      (hvalid : (tree.entry pprev).failed = false)
      (hscripts : (tree.entry pprev).isValid blockValidScripts = true ∨
        ∀ failedit ∈ tree.gFailedBlocks, failedit ∉ pprev.ancestors) :
      HeaderStep params tree block (some (.child pprev block.hash block.nTime))
        (tree.grow params pprev block)
  | walked (pprev failedit : CBlockIndex) (hprev : pprev ∈ tree.mapBlockIndex)
      (hfailed : failedit ∈ tree.gFailedBlocks) (hmem : failedit ∈ pprev.ancestors)
      (hvalid : (tree.entry failedit).failedValid = true) :
      HeaderStep params tree block none (tree.invalidWalk pprev failedit)

/-- The genesis block is known and active. -/
theorem Grown.find_genesis (hgrown : tree.Grown params) :
    ∃ genesis ∈ tree.tip.ancestors, tree.find params.hashGenesisBlock = some genesis := by
  obtain ⟨hmem, hnone⟩ := tree.tip.root_spec
  have hin := hgrown.ancestors hgrown.tip hmem
  have hhash := hgrown.root _ hin hnone
  cases hfind : tree.find params.hashGenesisBlock with
  | none => exact absurd hhash (hash_ne_of_find_none hfind hin)
  | some found =>
    obtain ⟨hf, hsame⟩ := mem_of_find hfind
    have heq := hgrown.unique found hf _ hin (hsame.trans hhash.symm)
    exact ⟨_, hmem, by rw [heq]⟩

theorem acceptBlockHeader_step (hgrown : tree.Grown params) {checks : HeaderChecks}
    {result : Except Reject CBlockIndex}
    (hacc : tree.acceptBlockHeader params block checks = .ok (result, next)) :
    HeaderStep params tree block result.toOption next := by
  rw [acceptBlockHeader] at hacc
  split at hacc
  · next hgen =>
    obtain ⟨genesis, -, hfind⟩ := hgrown.find_genesis
    rw [← hgen] at hfind
    simp only [addToBlockIndex_of_known hfind] at hacc
    cases hacc
    exact .known genesis hfind (.inr hgen)
  · split at hacc
    · next pindex hfind =>
      split at hacc
      · cases hacc
        exact .refused
      · next hvalid =>
        cases hacc
        exact .known pindex hfind (.inl (by simpa using hvalid))
    · next hnew =>
      split at hacc
      · cases hacc
        exact .refused
      · cases hacc
        exact .refused
      · next pprev hcheck hprev =>
        have hadded : tree.addToBlockIndex params block = _ := addToBlockIndex_of_new hnew hprev
        split at hacc
        · cases hacc
          exact .refused
        · next hvalid =>
          have hvalid : (tree.entry pprev).failed = false := by simpa using hvalid
          split at hacc
          · cases hacc
            exact .refused
          · split_ifs at hacc with hscrs
            · simp only [hadded] at hacc
              cases hacc
              exact .added pprev hnew hprev hvalid (.inl hscrs)
            · split at hacc
              · next hnone =>
                simp only [hadded] at hacc
                cases hacc
                refine .added pprev hnew hprev hvalid (.inr fun failedit hfail => ?_)
                have hno := List.find?_eq_none.1 hnone failedit hfail
                rwa [decide_eq_true_eq, getAncestor_eq_some_iff] at hno
              · next failedit hf =>
                have hmem : failedit ∈ pprev.ancestors := by
                  have htest := List.find?_some hf
                  rwa [decide_eq_true_eq, getAncestor_eq_some_iff] at htest
                split_ifs at hacc with hfail
                cases hacc
                exact .walked pprev failedit (mem_of_find hprev).1
                  (mem_of_find?_eq_some hf) hmem hfail

theorem not_mem_of_find_none (hnew : tree.find block.hash = none) :
    child pprev block.hash block.nTime ∉ tree.mapBlockIndex :=
  fun hin => hash_ne_of_find_none hnew hin rfl

theorem entry_grow_of_mem (hnew : tree.find block.hash = none) (hin : pindex ∈ tree.mapBlockIndex) :
    (tree.grow params pprev block).entry pindex = tree.entry pindex := by
  refine update_of_ne (fun heq => ?_) _ _
  exact not_mem_of_find_none hnew (heq ▸ hin)

theorem entry_grow_new (params : TreeParams) (tree : BlockTree) (pprev : CBlockIndex)
    (block : CBlockHeader) :
    (tree.grow params pprev block).entry (.child pprev block.hash block.nTime) =
      tree.newEntry params pprev block.hash :=
  update_self _ _ _

theorem Grown.grow (hgrown : tree.Grown params) (hnew : tree.find block.hash = none)
    (hprev : pprev ∈ tree.mapBlockIndex) : (tree.grow params pprev block).Grown params where
  root := by
    intro pindex hin hnone
    rcases mem_cons.1 hin with rfl | hold
    · cases hnone
    · exact hgrown.root pindex hold hnone
  pprev := by
    intro pindex hin other ho
    rcases mem_cons.1 hin with rfl | hold
    · cases ho
      exact mem_cons_of_mem _ hprev
    · exact mem_cons_of_mem _ (hgrown.pprev pindex hold other ho)
  unique := by
    intro pindex hin other ho hhash
    rcases mem_cons.1 hin with rfl | hold
    · rcases mem_cons.1 ho with rfl | hold
      · rfl
      · exact absurd hhash.symm (hash_ne_of_find_none hnew hold)
    · rcases mem_cons.1 ho with rfl | ho
      · exact absurd hhash (hash_ne_of_find_none hnew hold)
      · exact hgrown.unique pindex hold other ho hhash
  tip := mem_cons_of_mem _ hgrown.tip
  candidates := fun pindex hmem => mem_cons_of_mem _ (hgrown.candidates pindex hmem)
  unlinked := fun waiting hmem => mem_cons_of_mem _ (hgrown.unlinked waiting hmem)
  failed := fun pindex hmem => mem_cons_of_mem _ (hgrown.failed pindex hmem)
  usable := by
    intro other ho
    rw [entry_grow_of_mem hnew (hgrown.ancestors hgrown.tip ho)]
    exact hgrown.usable other ho

theorem failed_of_failedValid {entry : BlockEntry} (hvalid : entry.failedValid = true) :
    entry.failed = true := by
  rw [BlockEntry.failed, hvalid, Bool.true_or]

/-- No active block stands on a failed one. -/
theorem Grown.not_failed_below (hgrown : tree.Grown params) {low high : CBlockIndex}
    (hlow : low ∈ high.ancestors) (hfail : (tree.entry low).failed = true) :
    high ∉ tree.tip.ancestors := by
  intro hhigh
  have huse := hgrown.usable low (ancestors_trans hlow hhigh)
  rw [hfail] at huse
  cases huse.1

variable {result : Option CBlockIndex} {queue : List CBlockIndex} {arrival : BlockArrival}

theorem Grown.headerStep (hgrown : tree.Grown params)
    (hstep : HeaderStep params tree block result next) : next.Grown params := by
  cases hstep with
  | refused | known => exact hgrown
  | added pprev hnew hprev hvalid hscrs => exact hgrown.grow hnew (mem_of_find hprev).1
  | walked pprev failedit hprev hfail hmem hvalid =>
    refine hgrown.of_map_eq (invalidWalk_keeps mapBlockIndex) ?_ ?_ ?_ ?_ ?_
    · rw [invalidWalk_keeps BlockTree.tip]
      exact hgrown.tip
    · rw [invalidWalk_keeps setBlockIndexCandidates]
      exact hgrown.candidates
    · rw [invalidWalk_keeps mapBlocksUnlinked]
      exact hgrown.unlinked
    · rw [invalidWalk_keeps gFailedBlocks]
      exact hgrown.failed
    · intro other ho
      rw [invalidWalk_keeps BlockTree.tip] at ho
      rw [entry_invalidWalk, if_neg]
      · exact hgrown.usable other ho
      · intro habove
        obtain ⟨-, hbelow, -⟩ := (mem_above_iff hmem).1 habove
        exact hgrown.not_failed_below hbelow (failed_of_failedValid hvalid) ho

/-! ### Blocks -/

/-- What linking blocks leaves as it was. -/
structure Linked (tree next : BlockTree) : Prop where
  entry : ∀ pindex, next.entry pindex = { tree.entry pindex with
    nChainTx := (next.entry pindex).nChainTx
    nSequenceId := (next.entry pindex).nSequenceId }
  mapBlockIndex : next.mapBlockIndex = tree.mapBlockIndex
  gFailedBlocks : next.gFailedBlocks = tree.gFailedBlocks
  tip : next.tip = tree.tip

theorem Linked.refl (tree : BlockTree) : Linked tree tree := ⟨fun _ => rfl, rfl, rfl, rfl⟩

theorem Linked.trans {mid : BlockTree} (hfst : Linked tree mid) (hsnd : Linked mid next) :
    Linked tree next where
  entry := fun pindex => by
    rw [hsnd.entry pindex, hfst.entry pindex]
  mapBlockIndex := hsnd.mapBlockIndex.trans hfst.mapBlockIndex
  gFailedBlocks := hsnd.gFailedBlocks.trans hfst.gFailedBlocks
  tip := hsnd.tip.trans hfst.tip

/-- The block gets its transaction count and its place in the order of arrival. -/
def number (tree : BlockTree) (pindex : CBlockIndex) : BlockTree :=
  { tree.modify pindex (fun entry => { entry with
      nChainTx :=
        ((pindex.pprev.elim 0 fun pprev => (tree.entry pprev).nChainTx) + entry.nTx) % 2 ^ 32
      nSequenceId := tree.nBlockSequenceId }) with
    nBlockSequenceId := (tree.nBlockSequenceId + 1).bmod (2 ^ 32) }

/-- A round of the queue of `ReceivedBlockTransactions`. -/
def linkBlock (params : TreeParams) (tree : BlockTree) (pindex : CBlockIndex) : BlockTree :=
  { tree.number pindex with
    setBlockIndexCandidates :=
      if (tree.number pindex).less params pindex tree.tip then tree.setBlockIndexCandidates
      else tree.setBlockIndexCandidates.insert pindex
    mapBlocksUnlinked := tree.mapBlocksUnlinked.filter fun waiting => waiting.1 ≠ pindex }

def waitingFor (tree : BlockTree) (pindex : CBlockIndex) : List CBlockIndex :=
  (tree.mapBlocksUnlinked.filter fun waiting => waiting.1 = pindex).map Prod.snd

theorem linkBlocks_cons (params : TreeParams) (n : ℕ) (pindex : CBlockIndex)
    (queue : List CBlockIndex) (tree : BlockTree) :
    linkBlocks params (n + 1) (pindex :: queue) tree =
      linkBlocks params n (queue ++ tree.waitingFor pindex) (tree.linkBlock params pindex) := by
  have hround : linkBlocks params (n + 1) (pindex :: queue) tree =
      let linked :=
        if (tree.number pindex).less params pindex tree.tip then tree.number pindex
        else (tree.number pindex).insertCandidate pindex
      linkBlocks params n
        (queue ++ (linked.mapBlocksUnlinked.filter fun waiting => waiting.1 = pindex).map Prod.snd)
        { linked with
          mapBlocksUnlinked := linked.mapBlocksUnlinked.filter fun waiting =>
            waiting.1 ≠ pindex } := rfl
  rw [hround, linkBlock]
  split <;> rfl

theorem entry_linkBlock (params : TreeParams) (tree : BlockTree) (pindex other : CBlockIndex) :
    (tree.linkBlock params pindex).entry other =
      if other = pindex then { tree.entry other with
        nChainTx := ((other.pprev.elim 0 fun pprev => (tree.entry pprev).nChainTx) +
          (tree.entry other).nTx) % 2 ^ 32
        nSequenceId := tree.nBlockSequenceId }
      else tree.entry other := by
  rw [linkBlock, number]
  simp only [modify_entry, update_apply]
  split_ifs with hsame
  · rw [hsame]
  · rfl

theorem linked_linkBlock (params : TreeParams) (tree : BlockTree) (pindex : CBlockIndex) :
    Linked tree (tree.linkBlock params pindex) where
  entry := fun other => by
    rw [entry_linkBlock]
    split <;> rfl
  mapBlockIndex := rfl
  gFailedBlocks := rfl
  tip := rfl

theorem mem_candidates_linkBlock (params : TreeParams) (tree : BlockTree)
    (pindex other : CBlockIndex) :
    other ∈ (tree.linkBlock params pindex).setBlockIndexCandidates ↔
      other ∈ tree.setBlockIndexCandidates ∨ other = pindex ∧
        (tree.linkBlock params pindex).less params pindex tree.tip = false := by
  have hsame : (tree.linkBlock params pindex).less params pindex tree.tip =
      (tree.number pindex).less params pindex tree.tip := rfl
  rw [hsame, linkBlock]
  cases (tree.number pindex).less params pindex tree.tip with
  | true => simp
  | false => simp [or_comm]

/-- What every round keeps holds when the queue is empty. -/
theorem linkBlocks_induction (inv : List CBlockIndex → BlockTree → Prop)
    (hround : ∀ pindex queue tree, inv (pindex :: queue) tree →
      inv (queue ++ tree.waitingFor pindex) (tree.linkBlock params pindex)) {n : ℕ}
    (hfuel : queue.length + tree.mapBlocksUnlinked.length ≤ n) (hinv : inv queue tree) :
    inv [] (linkBlocks params n queue tree) := by
  induction n generalizing queue tree with
  | zero =>
    obtain rfl : queue = [] := length_eq_zero_iff.1 (by omega)
    exact hinv
  | succ n ih =>
    cases queue with
    | nil => exact hinv
    | cons pindex queue =>
      rw [linkBlocks_cons]
      refine ih ?_ (hround pindex queue tree hinv)
      have hsplit : tree.mapBlocksUnlinked.length = _ :=
        length_eq_length_filter_add fun waiting => decide (waiting.1 = pindex)
      have hrest : (tree.linkBlock params pindex).mapBlocksUnlinked =
          tree.mapBlocksUnlinked.filter fun waiting => !decide (waiting.1 = pindex) := by
        rw [linkBlock]
        simp
      rw [length_append, waitingFor, length_map, hrest]
      rw [length_cons] at hfuel
      omega

def stored (tree : BlockTree) (pindexNew : CBlockIndex) (nTx : ℕ) : BlockTree :=
  tree.modify pindexNew fun entry =>
    ({ entry with nTx := nTx, nChainTx := 0, haveData := true } : BlockEntry).raiseValidity
      blockValidTransactions

theorem entry_stored (tree : BlockTree) (pindexNew : CBlockIndex) (nTx : ℕ) (other : CBlockIndex) :
    (tree.stored pindexNew nTx).entry other =
      if other = pindexNew then { tree.entry other with
        nTx := nTx
        nChainTx := 0
        haveData := true
        nValidity := if (tree.entry other).failed then (tree.entry other).nValidity
          else max (tree.entry other).nValidity blockValidTransactions }
      else tree.entry other := by
  rw [stored, entry_modify, BlockEntry.raiseValidity_eq]
  rfl

/-- A block is linked at once, or waits for its parent. -/
theorem received_cases (params : TreeParams) (tree : BlockTree)
    (pindexNew : CBlockIndex) (nTx : ℕ) :
    (∀ pprev, pindexNew.pprev = some pprev →
        ((tree.stored pindexNew nTx).entry pprev).nChainTx ≠ 0) ∧
      tree.receivedBlockTransactions params pindexNew nTx =
        linkBlocks params (tree.mapBlocksUnlinked.length + 1) [pindexNew]
          (tree.stored pindexNew nTx) ∨
    ∃ pprev, pindexNew.pprev = some pprev ∧
      ((tree.stored pindexNew nTx).entry pprev).nChainTx = 0 ∧
      (((tree.stored pindexNew nTx).entry pprev).isValid blockValidTree = true ∧
        tree.receivedBlockTransactions params pindexNew nTx =
          { tree.stored pindexNew nTx with
            mapBlocksUnlinked := (pprev, pindexNew) :: tree.mapBlocksUnlinked } ∨
      ((tree.stored pindexNew nTx).entry pprev).isValid blockValidTree = false ∧
        tree.receivedBlockTransactions params pindexNew nTx = tree.stored pindexNew nTx) := by
  cases hprev : pindexNew.pprev with
  | none =>
    refine .inl ⟨by simp, ?_⟩
    simp only [receivedBlockTransactions, hprev]
    rfl
  | some pprev =>
    have hdef : tree.receivedBlockTransactions params pindexNew nTx =
        if ((tree.stored pindexNew nTx).entry pprev).nChainTx ≠ 0 then
          linkBlocks params (tree.mapBlocksUnlinked.length + 1) [pindexNew]
            (tree.stored pindexNew nTx)
        else if ((tree.stored pindexNew nTx).entry pprev).isValid blockValidTree then
          { tree.stored pindexNew nTx with
            mapBlocksUnlinked := (pprev, pindexNew) :: tree.mapBlocksUnlinked }
        else tree.stored pindexNew nTx := by
      simp only [receivedBlockTransactions, hprev]
      rfl
    rw [hdef]
    by_cases hlink : ((tree.stored pindexNew nTx).entry pprev).nChainTx = 0
    · refine .inr ⟨pprev, rfl, hlink, ?_⟩
      cases hvalid : ((tree.stored pindexNew nTx).entry pprev).isValid blockValidTree with
      | true => exact .inl ⟨rfl, by simp [hlink]⟩
      | false => exact .inr ⟨rfl, by simp [hlink]⟩
    · refine .inl ⟨fun other ho => ?_, by simp [hlink]⟩
      cases ho
      exact hlink

/-- Storing a block: `start` has its data, and the queue holds it and blocks that waited. -/
structure Queued (start : BlockTree) (pindexNew : CBlockIndex) (queue : List CBlockIndex)
    (next : BlockTree) : Prop where
  linked : Linked start next
  queue : ∀ pindex ∈ queue,
    pindex = pindexNew ∨ ∃ waiting ∈ start.mapBlocksUnlinked, waiting.2 = pindex
  candidates : ∀ pindex ∈ next.setBlockIndexCandidates, pindex ∈ start.setBlockIndexCandidates ∨
    pindex = pindexNew ∨ ∃ waiting ∈ start.mapBlocksUnlinked, waiting.2 = pindex
  unlinked : ∀ waiting ∈ next.mapBlocksUnlinked, waiting ∈ start.mapBlocksUnlinked ∨
    waiting.2 = pindexNew

theorem Queued.round {start : BlockTree} {pindexNew : CBlockIndex}
    (hqueued : Queued start pindexNew (pindex :: queue) next) :
    Queued start pindexNew (queue ++ next.waitingFor pindex) (next.linkBlock params pindex) where
  linked := hqueued.linked.trans (linked_linkBlock params next pindex)
  queue := by
    intro other ho
    rcases mem_append.1 ho with hqueue | hwait
    · exact hqueued.queue other (mem_cons_of_mem _ hqueue)
    · obtain ⟨waiting, hmem, rfl⟩ := mem_map.1 hwait
      rcases hqueued.unlinked waiting (mem_filter.1 hmem).1 with hold | hnew
      · exact .inr ⟨waiting, hold, rfl⟩
      · exact .inl hnew
  candidates := by
    intro other ho
    rcases (mem_candidates_linkBlock params next pindex other).1 ho with hold | ⟨rfl, -⟩
    · exact hqueued.candidates other hold
    · exact .inr (hqueued.queue other mem_cons_self)
  unlinked := fun waiting hwait => hqueued.unlinked waiting (mem_filter.1 hwait).1

theorem queued_received (params : TreeParams) (tree : BlockTree)
    (pindexNew : CBlockIndex) (nTx : ℕ) :
    Queued (tree.stored pindexNew nTx) pindexNew []
      (tree.receivedBlockTransactions params pindexNew nTx) := by
  rcases received_cases params tree pindexNew nTx with
    ⟨-, heq⟩ | ⟨pprev, -, -, ⟨-, heq⟩ | ⟨-, heq⟩⟩
  · rw [heq]
    refine linkBlocks_induction (Queued _ pindexNew) (fun _ _ _ hqueued => hqueued.round) ?_ ?_
    · exact (Nat.add_comm _ _).le
    · exact ⟨Linked.refl _, fun pindex hmem => .inl (mem_singleton.1 hmem),
        fun pindex hmem => .inl hmem, fun waiting hmem => .inl hmem⟩
  · rw [heq]
    refine ⟨⟨fun _ => rfl, rfl, rfl, rfl⟩, nofun, fun pindex hmem => .inl hmem, ?_⟩
    intro waiting hmem
    rcases mem_cons.1 hmem with rfl | hold
    · exact .inr rfl
    · exact .inl hold
  · rw [heq]
    exact ⟨Linked.refl _, nofun, fun pindex hmem => .inl hmem, fun waiting hmem => .inl hmem⟩

/-- What `AcceptBlock` does with an accepted header. -/
inductive BodyStep (params : TreeParams) (arrival : BlockArrival) (tree : BlockTree)
    (pindex : CBlockIndex) : BlockTree → Prop
  | same : BodyStep params arrival tree pindex tree
  | refused (reject : Reject) (hchecks : arrival.blockChecks = .error reject)
      (hintact : reject.corruptionPossible = false)
      (hdata : (tree.entry pindex).haveData = false) :
      BodyStep params arrival tree pindex (tree.markFailedValid pindex)
  | received (hchecks : arrival.blockChecks = .ok ()) (hpos : 0 < arrival.nTx)
      (hdata : (tree.entry pindex).haveData = false) :
      BodyStep params arrival tree pindex (tree.receivedBlockTransactions params pindex arrival.nTx)

theorem acceptBlockBody_step (params : TreeParams) (tree : BlockTree) (arrival : BlockArrival)
    (pindex : CBlockIndex) :
    BodyStep params arrival tree pindex (tree.acceptBlockBody params arrival pindex).2 := by
  rw [acceptBlockBody]
  split
  · exact .same
  · next hdata =>
    have hdata := Bool.eq_false_iff.2 hdata
    split
    · exact .same
    · split
      · next reject hchecks =>
        split_ifs with hintact
        · exact .same
        · exact .refused reject hchecks (Bool.eq_false_iff.2 hintact) hdata
      · next hchecks =>
        split
        · exact .received hchecks (arrival.nTx_pos hchecks) hdata
        · exact .same

theorem acceptBlock_step (hgrown : tree.Grown params) {result : Except AcceptError Unit}
    (hacc : tree.acceptBlock params arrival = .ok (result, next)) :
    HeaderStep params tree arrival.header none next ∨
      ∃ pindex mid, HeaderStep params tree arrival.header (some pindex) mid ∧
        BodyStep params arrival mid pindex next := by
  rw [acceptBlock] at hacc
  split at hacc
  · cases hacc
  · next reject mid hhead =>
    cases hacc
    exact .inl (acceptBlockHeader_step hgrown hhead)
  · next pindex mid hhead =>
    have hbody := acceptBlockBody_step params mid arrival pindex
    rw [Except.ok.inj hacc] at hbody
    exact .inr ⟨pindex, mid, acceptBlockHeader_step hgrown hhead, hbody⟩

theorem HeaderStep.tip (hstep : HeaderStep params tree block result next) :
    next.tip = tree.tip := by
  cases hstep with
  | refused | known | added => rfl
  | walked => exact invalidWalk_keeps BlockTree.tip

theorem HeaderStep.mem (hstep : HeaderStep params tree block (some pindex) next) :
    pindex ∈ next.mapBlockIndex := by
  cases hstep with
  | known _ hfind hvalid => exact (mem_of_find hfind).1
  | added pprev hnew hprev hvalid hscrs => exact mem_cons_self

theorem Grown.receivedBlockTransactions (hgrown : tree.Grown params)
    (hin : pindex ∈ tree.mapBlockIndex) (nTx : ℕ) :
    (tree.receivedBlockTransactions params pindex nTx).Grown params := by
  have hqueued := queued_received params tree pindex nTx
  refine hgrown.of_map_eq hqueued.linked.mapBlockIndex ?_ ?_ ?_ ?_ ?_
  · rw [hqueued.linked.tip]
    exact hgrown.tip
  · intro other ho
    rcases hqueued.candidates other ho with hold | rfl | ⟨waiting, hwait, rfl⟩
    · exact hgrown.candidates other hold
    · exact hin
    · exact hgrown.unlinked waiting hwait
  · intro waiting hwait
    rcases hqueued.unlinked waiting hwait with hold | hnew
    · exact hgrown.unlinked waiting hold
    · rw [hnew]
      exact hin
  · rw [hqueued.linked.gFailedBlocks]
    exact hgrown.failed
  · intro other ho
    rw [hqueued.linked.tip] at ho
    obtain ⟨hvalid, hhave⟩ := hgrown.usable other ho
    rw [hqueued.linked.entry, entry_stored]
    split
    · exact ⟨hvalid, rfl⟩
    · exact ⟨hvalid, hhave⟩

theorem Grown.bodyStep (hgrown : tree.Grown params) (hin : pindex ∈ tree.mapBlockIndex)
    (hstep : BodyStep params arrival tree pindex next) : next.Grown params := by
  cases hstep with
  | same => exact hgrown
  | refused reject hchecks hintact hdata =>
    refine hgrown.of_map_eq rfl hgrown.tip hgrown.candidates hgrown.unlinked hgrown.failed ?_
    intro other ho
    obtain ⟨hvalid, hhave⟩ := hgrown.usable other ho
    rw [entry_markFailedValid, if_neg]
    · exact ⟨hvalid, hhave⟩
    · rintro rfl
      rw [hdata] at hhave
      cases hhave
  | received hchecks hpos hdata => exact hgrown.receivedBlockTransactions hin arrival.nTx

end BlockTree

end Catoshi
