/-
How blocks are linked: a block is processed just if it and all before it have arrived, whatever the
order of arrival.
-/
import Catoshi.BlockTreeMoves

namespace Catoshi

open List

namespace BlockTree

/-- The block has arrived, on a linked one. -/
def Arrived (tree : BlockTree) (pindex : CBlockIndex) : Prop :=
  (tree.entry pindex).nTx ≠ 0 ∧ ∀ pprev, pindex.pprev = some pprev → (tree.entry pprev).nChainTx ≠ 0

/-- The transactions of a block and of all before it. -/
def totalTx (tree : BlockTree) (pindex : CBlockIndex) : ℕ :=
  (pindex.ancestors.map fun other => (tree.entry other).nTx).sum

/-- With so many transactions in the block, every count of a known chain through it fits. -/
def Countable (tree : BlockTree) (pindex : CBlockIndex) (nTx : ℕ) : Prop :=
  ∀ other ∈ tree.mapBlockIndex, pindex ∈ other.ancestors → tree.totalTx other + nTx < 2 ^ 32

/-- The links while a queue is still to be linked. -/
structure Linking (tree : BlockTree) (queue : List CBlockIndex) : Prop where
  chainTx : ∀ pindex ∈ tree.mapBlockIndex, pindex ∉ queue →
    ((tree.entry pindex).nChainTx ≠ 0 ↔ tree.Arrived pindex)
  queued : ∀ pindex ∈ queue, pindex ∈ tree.mapBlockIndex ∧ tree.Arrived pindex ∧
    (tree.entry pindex).nChainTx = 0
  unlinked : ∀ pprev pindex, (pprev, pindex) ∈ tree.mapBlocksUnlinked ↔
    pindex ∈ tree.mapBlockIndex ∧ pindex.pprev = some pprev ∧ (tree.entry pindex).nTx ≠ 0 ∧
      (tree.entry pprev).nChainTx = 0
  nodup : queue.Nodup
  nodupUnlinked : tree.mapBlocksUnlinked.Nodup
  known : ∀ pindex ∈ tree.mapBlockIndex, ∀ pprev, pindex.pprev = some pprev →
    pprev ∈ tree.mapBlockIndex
  total : ∀ pindex ∈ tree.mapBlockIndex, (tree.entry pindex).nChainTx ≠ 0 →
    (tree.entry pindex).nChainTx = tree.totalTx pindex
  small : ∀ pindex ∈ tree.mapBlockIndex, tree.totalTx pindex < 2 ^ 32

variable {tree next : BlockTree} {params : TreeParams} {pindex pprev : CBlockIndex}

theorem ne_of_pprev (hprev : pindex.pprev = some pprev) : pprev ≠ pindex := by
  rintro rfl
  have hheight := CBlockIndex.nHeight_of_pprev hprev
  omega

theorem mem_waitingFor :
    pindex ∈ tree.waitingFor pprev ↔ (pprev, pindex) ∈ tree.mapBlocksUnlinked := by
  rw [waitingFor, mem_map]
  constructor
  · rintro ⟨⟨low, high⟩, hmem, rfl⟩
    rw [mem_filter, decide_eq_true_eq] at hmem
    obtain ⟨hmem, rfl⟩ := hmem
    exact hmem
  · intro hmem
    exact ⟨(pprev, pindex), mem_filter.2 ⟨hmem, decide_eq_true rfl⟩, rfl⟩

theorem nodup_waitingFor (hnd : tree.mapBlocksUnlinked.Nodup) (pprev : CBlockIndex) :
    (tree.waitingFor pprev).Nodup := by
  refine List.Nodup.map_on ?_ (hnd.filter _)
  rintro ⟨low, high⟩ hfst ⟨low', high'⟩ hsnd (rfl : high = high')
  rw [mem_filter, decide_eq_true_eq] at hfst hsnd
  obtain ⟨-, rfl⟩ := hfst
  obtain ⟨-, rfl⟩ := hsnd
  rfl

theorem totalTx_eq (tree : BlockTree) (pindex : CBlockIndex) :
    tree.totalTx pindex = pindex.pprev.elim 0 tree.totalTx + (tree.entry pindex).nTx := by
  cases pindex with
  | genesis | child => exact Nat.add_comm _ _

theorem totalTx_congr (hsame : ∀ other ∈ pindex.ancestors,
      (next.entry other).nTx = (tree.entry other).nTx) :
    next.totalTx pindex = tree.totalTx pindex :=
  congrArg List.sum (List.map_congr_left hsame)

/-- A linked block stands on linked blocks. -/
theorem Linking.linked_below (hlinking : tree.Linking []) (hin : pindex ∈ tree.mapBlockIndex)
    (hlink : (tree.entry pindex).nChainTx ≠ 0) {other : CBlockIndex}
    (ho : other ∈ pindex.ancestors) :
    other ∈ tree.mapBlockIndex ∧ (tree.entry other).nChainTx ≠ 0 := by
  induction pindex, ho using CBlockIndex.ancestors_induction with
  | self => exact ⟨hin, hlink⟩
  | child pprev hash time hbelow ih =>
    have harrived := (hlinking.chainTx _ hin not_mem_nil).1 hlink
    exact ih (hlinking.known _ hin pprev rfl) (harrived.2 pprev rfl)

section

variable {queue : List CBlockIndex} (hlinking : tree.Linking (pindex :: queue))

include hlinking

/-- The count of a block taken off the queue does not wrap around. -/
theorem Linking.nChainTx_linkBlock :
    ((tree.linkBlock params pindex).entry pindex).nChainTx = tree.totalTx pindex := by
  obtain ⟨hin, harrived, -⟩ := hlinking.queued pindex mem_cons_self
  have hbelow : (pindex.pprev.elim 0 fun pprev => (tree.entry pprev).nChainTx) =
      pindex.pprev.elim 0 tree.totalTx := by
    cases hprev : pindex.pprev with
    | none => rfl
    | some pprev =>
      exact hlinking.total pprev (hlinking.known pindex hin pprev hprev) (harrived.2 pprev hprev)
  rw [entry_linkBlock, if_pos rfl]
  dsimp only
  rw [hbelow, ← totalTx_eq]
  exact Nat.mod_eq_of_lt (hlinking.small pindex hin)

theorem Linking.linkBlock_ne_zero :
    ((tree.linkBlock params pindex).entry pindex).nChainTx ≠ 0 := by
  have hpos := (hlinking.queued pindex mem_cons_self).2.1.1
  rw [hlinking.nChainTx_linkBlock, totalTx_eq]
  omega

theorem Linking.round :
    (tree.linkBlock params pindex).Linking (queue ++ tree.waitingFor pindex) := by
  obtain ⟨hhead, hnd⟩ := nodup_cons.1 hlinking.nodup
  obtain ⟨hknown, harrived, hzero⟩ := hlinking.queued pindex mem_cons_self
  have ho : ∀ other, other ≠ pindex →
      (tree.linkBlock params pindex).entry other = tree.entry other := by
    intro other hne
    rw [entry_linkBlock, if_neg hne]
  have hself := @Linking.linkBlock_ne_zero _ params _ _ hlinking
  have hnTx : ∀ other, ((tree.linkBlock params pindex).entry other).nTx =
      (tree.entry other).nTx := by
    intro other
    rw [(linked_linkBlock params tree pindex).entry]
  -- numbering the block only makes more blocks count as arrived
  have hgrows : ∀ other, (tree.entry other).nChainTx ≠ 0 →
      ((tree.linkBlock params pindex).entry other).nChainTx ≠ 0 := by
    intro other hlink
    by_cases hsame : other = pindex
    · exact hsame ▸ hself
    · rwa [ho other hsame]
  have hstill : ∀ other, tree.Arrived other → (tree.linkBlock params pindex).Arrived other := by
    intro other harrived
    exact ⟨by rw [hnTx]; exact harrived.1, fun pprev hprev => hgrows pprev (harrived.2 pprev hprev)⟩
  constructor
  · intro other hmem hout
    rw [mem_append, not_or] at hout
    by_cases hsame : other = pindex
    · subst hsame
      exact ⟨fun _ => hstill other harrived, fun _ => hself⟩
    · have hiff := hlinking.chainTx other hmem (by simp [hsame, hout.1])
      rw [ho other hsame, hiff]
      refine ⟨hstill other, fun hnow => ⟨by rw [← hnTx]; exact hnow.1, fun pprev hprev => ?_⟩⟩
      by_cases hchild : pprev = pindex
      · -- a child that has arrived was waiting and is in the queue now
        subst hchild
        refine absurd (mem_waitingFor.2 ((hlinking.unlinked pprev other).2
          ⟨hmem, hprev, ?_, hzero⟩)) hout.2
        rw [← hnTx]
        exact hnow.1
      · have hlink := hnow.2 pprev hprev
        rwa [ho pprev hchild] at hlink
  · intro other hmem
    rcases mem_append.1 hmem with hold | hwait
    · obtain ⟨hin, harrived, hzero⟩ := hlinking.queued other (mem_cons_of_mem _ hold)
      have hne : other ≠ pindex := fun heq => hhead (heq ▸ hold)
      exact ⟨hin, hstill other harrived, by rw [ho other hne]; exact hzero⟩
    · obtain ⟨hin, hprev, hpos, -⟩ := (hlinking.unlinked pindex other).1 (mem_waitingFor.1 hwait)
      have hne : other ≠ pindex := (ne_of_pprev hprev).symm
      have hout : other ∉ pindex :: queue := by
        intro hqueue
        exact (hlinking.queued other hqueue).2.1.2 pindex hprev hzero
      refine ⟨hin, ⟨by rw [hnTx]; exact hpos, fun pprev hpprev => ?_⟩, ?_⟩
      · obtain rfl : pprev = pindex := Option.some.inj (hpprev.symm.trans hprev)
        exact hself
      · rw [ho other hne]
        by_contra hlink
        exact ((hlinking.chainTx other hin hout).1 hlink).2 pindex hprev hzero
  · intro pprev other
    have hfilter : (pprev, other) ∈ (tree.linkBlock params pindex).mapBlocksUnlinked ↔
        (pprev, other) ∈ tree.mapBlocksUnlinked ∧ pprev ≠ pindex := by
      rw [linkBlock, mem_filter, decide_eq_true_eq]
    rw [hfilter, hlinking.unlinked, hnTx]
    by_cases hsame : pprev = pindex
    · subst hsame
      simp [hself]
    · rw [ho pprev hsame]
      simp only [hsame, ne_eq, not_false_eq_true, and_true]
      rfl
  · refine hnd.append (nodup_waitingFor hlinking.nodupUnlinked pindex) ?_
    intro other hqueue hwait
    obtain ⟨-, hprev, -, -⟩ := (hlinking.unlinked pindex other).1 (mem_waitingFor.1 hwait)
    exact (hlinking.queued other (mem_cons_of_mem _ hqueue)).2.1.2 pindex hprev hzero
  · exact hlinking.nodupUnlinked.filter _
  · exact hlinking.known
  · intro other hmem hlink
    rw [totalTx_congr fun low _ => hnTx low]
    by_cases hsame : other = pindex
    · rw [hsame, hlinking.nChainTx_linkBlock]
    · rw [ho other hsame] at hlink ⊢
      exact hlinking.total other hmem hlink
  · intro other hmem
    rw [totalTx_congr fun low _ => hnTx low]
    exact hlinking.small other hmem

end

/-- A new block waits for data; other links stay. -/
theorem Linking.grow (hlinking : tree.Linking []) (hgrown : tree.Grown params)
    {block : CBlockHeader} (hnew : tree.find block.hash = none)
    (hknown : pprev ∈ tree.mapBlockIndex) : (tree.grow params pprev block).Linking [] := by
  have hent : ∀ other ∈ tree.mapBlockIndex,
      (tree.grow params pprev block).entry other = tree.entry other := fun other ho =>
    entry_grow_of_mem hnew ho
  have hfresh : (tree.grow params pprev block).entry (.child pprev block.hash block.nTime) =
      tree.newEntry params pprev block.hash := entry_grow_new params tree pprev block
  have harrived : ∀ other ∈ tree.mapBlockIndex,
      ((tree.grow params pprev block).Arrived other ↔ tree.Arrived other) := by
    intro other ho
    rw [Arrived, hent other ho]
    refine and_congr_right fun _ => forall_congr' fun low => forall_congr' fun hlow => ?_
    rw [hent low (hgrown.pprev other ho low hlow)]
  have htotal : ∀ other ∈ tree.mapBlockIndex,
      (tree.grow params pprev block).totalTx other = tree.totalTx other := fun other ho =>
    totalTx_congr fun low hlow => by rw [hent low (hgrown.ancestors ho hlow)]
  refine ⟨?_, nofun, ?_, nodup_nil, hlinking.nodupUnlinked, ?_, ?_, ?_⟩
  · intro other ho hqueue
    rcases mem_cons.1 ho with rfl | hold
    · rw [Arrived, hfresh]
      exact iff_of_false (fun hlink => hlink rfl) fun hnow => hnow.1 rfl
    · rw [hent other hold, harrived other hold]
      exact hlinking.chainTx other hold hqueue
  · intro low other
    change (low, other) ∈ tree.mapBlocksUnlinked ↔ _
    rw [hlinking.unlinked]
    constructor
    · rintro ⟨hold, hlow, hpos, hzero⟩
      rw [hent other hold, hent low (hgrown.pprev other hold low hlow)]
      exact ⟨mem_cons_of_mem _ hold, hlow, hpos, hzero⟩
    · rintro ⟨ho, hlow, hpos, hzero⟩
      rcases mem_cons.1 ho with rfl | hold
      · rw [hfresh] at hpos
        exact absurd rfl hpos
      · rw [hent other hold] at hpos
        rw [hent low (hgrown.pprev other hold low hlow)] at hzero
        exact ⟨hold, hlow, hpos, hzero⟩
  · intro other ho low hlow
    rcases mem_cons.1 ho with rfl | hold
    · cases hlow
      exact mem_cons_of_mem _ hknown
    · exact mem_cons_of_mem _ (hlinking.known other hold low hlow)
  · intro other ho hlink
    rcases mem_cons.1 ho with rfl | hold
    · rw [hfresh] at hlink
      exact absurd rfl hlink
    · rw [hent other hold] at hlink ⊢
      rw [htotal other hold]
      exact hlinking.total other hold hlink
  · intro other ho
    rcases mem_cons.1 ho with rfl | hold
    · rw [totalTx_eq, hfresh]
      exact (htotal pprev hknown).trans_lt (hlinking.small pprev hknown)
    · rw [htotal other hold]
      exact hlinking.small other hold

/-- No block below has been found invalid. -/
def Clean (tree : BlockTree) (pindex : CBlockIndex) : Prop :=
  ∀ other ∈ pindex.ancestors, (tree.entry other).failedValid = false

/-- The candidates are linked and no worse than the tip, and each linked clean block no worse than
the reference is one. -/
structure Ranked (params : TreeParams) (tree : BlockTree) (ref : CBlockIndex) : Prop where
  linked : ∀ pindex ∈ tree.setBlockIndexCandidates, (tree.entry pindex).nChainTx ≠ 0
  notWorse : ∀ pindex ∈ tree.setBlockIndexCandidates,
    tree.rank params tree.tip ≤ tree.rank params pindex
  complete : ∀ pindex ∈ tree.mapBlockIndex, (tree.entry pindex).nChainTx ≠ 0 →
    tree.Clean pindex → tree.rank params ref ≤ tree.rank params pindex →
    pindex ∈ tree.setBlockIndexCandidates

theorem rank_congr {next : BlockTree}
    (hwork : (next.entry pindex).nChainWork = (tree.entry pindex).nChainWork)
    (horder : (next.entry pindex).nSequenceId = (tree.entry pindex).nSequenceId) :
    next.rank params pindex = tree.rank params pindex := by
  rw [rank, rank, hwork, horder]

theorem Ranked.round {queue : List CBlockIndex} (hranked : tree.Ranked params tree.tip)
    (hlinking : tree.Linking (pindex :: queue)) (htip : (tree.entry tree.tip).nChainTx ≠ 0) :
    (tree.linkBlock params pindex).Ranked params (tree.linkBlock params pindex).tip := by
  obtain ⟨hknown, harrived, hzero⟩ := hlinking.queued pindex mem_cons_self
  have hent : ∀ other, (tree.entry other).nChainTx ≠ 0 →
      (tree.linkBlock params pindex).entry other = tree.entry other := by
    intro other hlink
    rw [entry_linkBlock, if_neg fun heq : other = pindex => hlink (heq ▸ hzero)]
  have hrank : ∀ other, (tree.entry other).nChainTx ≠ 0 →
      (tree.linkBlock params pindex).rank params other = tree.rank params other :=
    fun other hlink =>
    rank_congr (by rw [hent other hlink]) (by rw [hent other hlink])
  have hless : (tree.linkBlock params pindex).less params pindex tree.tip = false ↔
      tree.rank params tree.tip ≤ (tree.linkBlock params pindex).rank params pindex := by
    rw [less_eq_false_iff, hrank tree.tip htip]
  have hclean : ∀ other, (tree.linkBlock params pindex).Clean other → tree.Clean other := by
    intro other ho block hblk
    have hmark := ho block hblk
    rwa [(linked_linkBlock params tree pindex).entry] at hmark
  constructor
  · intro other ho
    rcases (mem_candidates_linkBlock params tree pindex other).1 ho with hold | ⟨rfl, -⟩
    · rw [hent other (hranked.linked other hold)]
      exact hranked.linked other hold
    · exact hlinking.linkBlock_ne_zero
  · intro other ho
    change (tree.linkBlock params pindex).rank params tree.tip ≤ _
    rw [hrank tree.tip htip]
    rcases (mem_candidates_linkBlock params tree pindex other).1 ho with hold | ⟨rfl, hgood⟩
    · rw [hrank other (hranked.linked other hold)]
      exact hranked.notWorse other hold
    · exact hless.1 hgood
  · intro other hmem hlink ho hgood
    change (tree.linkBlock params pindex).rank params tree.tip ≤ _ at hgood
    rw [hrank tree.tip htip] at hgood
    rw [mem_candidates_linkBlock]
    by_cases hsame : other = pindex
    · subst hsame
      exact .inr ⟨rfl, hless.2 hgood⟩
    · rw [entry_linkBlock, if_neg hsame] at hlink
      rw [hrank other hlink] at hgood
      exact .inl (hranked.complete other hmem hlink (hclean other ho) hgood)

end BlockTree

/-- How the fields of one entry fit together. -/
structure BlockEntry.Ok (entry : BlockEntry) : Prop where
  level : blockValidTree ≤ entry.nValidity
  data : entry.haveData = true ↔ entry.nTx ≠ 0
  transactions : blockValidTransactions ≤ entry.nValidity ↔ entry.nTx ≠ 0
  scripts : blockValidTransactions < entry.nValidity → blockValidScripts ≤ entry.nValidity
  undo : entry.haveUndo = true → entry.haveData = true
  order : entry.nChainTx = 0 → entry.nSequenceId ≤ 0

namespace BlockTree

/-- What is kept while the queue is worked off. -/
structure Queueing (params : TreeParams) (tree : BlockTree) (queue : List CBlockIndex) : Prop where
  linking : tree.Linking queue
  ranked : tree.Ranked params tree.tip
  tip : (tree.entry tree.tip).nChainTx ≠ 0
  entries : ∀ pindex ∈ tree.mapBlockIndex, (tree.entry pindex).Ok

theorem Queueing.round {params : TreeParams} {tree : BlockTree} {pindex : CBlockIndex}
    {queue : List CBlockIndex} (hqueueing : tree.Queueing params (pindex :: queue)) :
    (tree.linkBlock params pindex).Queueing params (queue ++ tree.waitingFor pindex) := by
  obtain ⟨hknown, harrived, hzero⟩ := hqueueing.linking.queued pindex mem_cons_self
  refine ⟨hqueueing.linking.round, hqueueing.ranked.round hqueueing.linking hqueueing.tip, ?_, ?_⟩
  · change ((tree.linkBlock params pindex).entry tree.tip).nChainTx ≠ 0
    rw [entry_linkBlock, if_neg fun heq : tree.tip = pindex => hqueueing.tip (heq ▸ hzero)]
    exact hqueueing.tip
  · intro other ho
    have hok := hqueueing.entries other ho
    by_cases hsame : other = pindex
    · subst hsame
      have hlink := @Linking.linkBlock_ne_zero _ params _ _ hqueueing.linking
      rw [entry_linkBlock, if_pos rfl] at hlink ⊢
      exact ⟨hok.level, hok.data, hok.transactions, hok.scripts, hok.undo, fun hno =>
        absurd hno hlink⟩
    · rw [entry_linkBlock, if_neg hsame]
      exact hok

section stored

variable {params : TreeParams} {tree : BlockTree} {pindex : CBlockIndex} {nTx : ℕ}
  {other : CBlockIndex}

theorem entry_stored_of_ne (hne : other ≠ pindex) :
    (tree.stored pindex nTx).entry other = tree.entry other := by
  rw [entry_stored, if_neg hne]

theorem nTx_stored : ((tree.stored pindex nTx).entry pindex).nTx = nTx := by
  rw [entry_stored, if_pos rfl]

theorem nChainTx_stored (hzero : (tree.entry pindex).nChainTx = 0) (other : CBlockIndex) :
    ((tree.stored pindex nTx).entry other).nChainTx = (tree.entry other).nChainTx := by
  by_cases hsame : other = pindex
  · rw [entry_stored, if_pos hsame, hsame, hzero]
  · rw [entry_stored_of_ne hsame]

theorem totalTx_stored_of_not_mem (hout : pindex ∉ other.ancestors) :
    (tree.stored pindex nTx).totalTx other = tree.totalTx other :=
  totalTx_congr fun low hlow => by
    rw [entry_stored_of_ne fun heq : low = pindex => hout (heq ▸ hlow)]

theorem totalTx_stored (hnTx : (tree.entry pindex).nTx = 0) (hmem : pindex ∈ other.ancestors) :
    (tree.stored pindex nTx).totalTx other = tree.totalTx other + nTx := by
  induction other, hmem using CBlockIndex.ancestors_induction with
  | self =>
    rw [totalTx_eq, totalTx_eq tree, nTx_stored, hnTx]
    cases hprev : pindex.pprev with
    | none => rfl
    | some pprev =>
      refine congrArg (· + nTx) (totalTx_stored_of_not_mem fun hbelow => ?_)
      have hheight := CBlockIndex.nHeight_of_pprev hprev
      have hle := CBlockIndex.nHeight_le_of_mem hbelow
      omega
  | child pprev hash time hbelow ih =>
    rw [totalTx_eq, totalTx_eq tree,
      entry_stored_of_ne (CBlockIndex.child_ne_of_mem hbelow hash time)]
    change (tree.stored pindex nTx).totalTx pprev + _ = tree.totalTx pprev + _ + _
    omega

section

variable (hlinking : tree.Linking [])

include hlinking

theorem Linking.total_stored (hzero : (tree.entry pindex).nChainTx = 0)
    (hmem : other ∈ tree.mapBlockIndex)
    (hlink : ((tree.stored pindex nTx).entry other).nChainTx ≠ 0) :
    ((tree.stored pindex nTx).entry other).nChainTx = (tree.stored pindex nTx).totalTx other := by
  rw [nChainTx_stored hzero] at hlink ⊢
  rw [totalTx_stored_of_not_mem fun hbelow => (hlinking.linked_below hmem hlink hbelow).2 hzero]
  exact hlinking.total other hmem hlink

theorem Linking.small_stored (hnTx : (tree.entry pindex).nTx = 0)
    (hcount : tree.Countable pindex nTx) (hmem : other ∈ tree.mapBlockIndex) :
    (tree.stored pindex nTx).totalTx other < 2 ^ 32 := by
  by_cases hbelow : pindex ∈ other.ancestors
  · rw [totalTx_stored hnTx hbelow]
    exact hcount other hmem hbelow
  · rw [totalTx_stored_of_not_mem hbelow]
    exact hlinking.small other hmem

theorem Linking.chainTx_stored (hzero : (tree.entry pindex).nChainTx = 0)
    (hmem : other ∈ tree.mapBlockIndex) (hne : other ≠ pindex) :
    ((tree.stored pindex nTx).entry other).nChainTx ≠ 0 ↔
      (tree.stored pindex nTx).Arrived other := by
  have harrived : (tree.stored pindex nTx).Arrived other ↔ tree.Arrived other := by
    simp only [Arrived, entry_stored_of_ne hne, nChainTx_stored hzero]
  rw [harrived, nChainTx_stored hzero]
  exact hlinking.chainTx other hmem not_mem_nil

theorem Linking.unlinked_stored
    (hzero : (tree.entry pindex).nChainTx = 0) (pprev : CBlockIndex) (hne : other ≠ pindex) :
    (pprev, other) ∈ tree.mapBlocksUnlinked ↔
      other ∈ tree.mapBlockIndex ∧ other.pprev = some pprev ∧
        ((tree.stored pindex nTx).entry other).nTx ≠ 0 ∧
        ((tree.stored pindex nTx).entry pprev).nChainTx = 0 := by
  rw [entry_stored_of_ne hne, nChainTx_stored hzero]
  exact hlinking.unlinked pprev other

section

variable (hknown : pindex ∈ tree.mapBlockIndex) (hnTx : (tree.entry pindex).nTx = 0)

include hknown hnTx

theorem Linking.not_linked : (tree.entry pindex).nChainTx = 0 := by
  by_contra hlink
  exact ((hlinking.chainTx pindex hknown not_mem_nil).1 hlink).1 hnTx

omit hknown in
theorem Linking.not_waiting (pprev : CBlockIndex) : (pprev, pindex) ∉ tree.mapBlocksUnlinked := by
  intro hmem
  exact ((hlinking.unlinked pprev pindex).1 hmem).2.2.1 hnTx

/-- A block on a linked block is put into the queue. -/
theorem Linking.queue_stored
    (hpos : 0 < nTx) (hcount : tree.Countable pindex nTx)
    (hpar : ∀ pprev, pindex.pprev = some pprev →
      ((tree.stored pindex nTx).entry pprev).nChainTx ≠ 0) :
    (tree.stored pindex nTx).Linking [pindex] := by
  have hzero := hlinking.not_linked hknown hnTx
  constructor
  · exact fun other hmem hout => hlinking.chainTx_stored hzero hmem (by simpa using hout)
  · intro other ho
    rw [mem_singleton.1 ho]
    refine ⟨hknown, ⟨by rw [nTx_stored]; exact hpos.ne', hpar⟩, ?_⟩
    rw [nChainTx_stored hzero, hzero]
  · intro pprev other
    by_cases hsame : other = pindex
    · subst hsame
      refine iff_of_false (hlinking.not_waiting hnTx pprev) ?_
      rintro ⟨-, hprev, -, hno⟩
      exact hpar pprev hprev hno
    · exact hlinking.unlinked_stored hzero pprev hsame
  · exact nodup_singleton _
  · exact hlinking.nodupUnlinked
  · exact hlinking.known
  · exact fun other hmem hlink => hlinking.total_stored hzero hmem hlink
  · exact fun other hmem => hlinking.small_stored hnTx hcount hmem

theorem Linking.wait_stored (hpos : 0 < nTx) (hcount : tree.Countable pindex nTx)
    {pprev : CBlockIndex}
    (hprev : pindex.pprev = some pprev)
    (hpar : ((tree.stored pindex nTx).entry pprev).nChainTx = 0) :
    Linking { tree.stored pindex nTx with
      mapBlocksUnlinked := (pprev, pindex) :: tree.mapBlocksUnlinked } [] := by
  have hzero := hlinking.not_linked hknown hnTx
  have hself : ((tree.stored pindex nTx).entry pindex).nChainTx = 0 := by
    rw [nChainTx_stored hzero, hzero]
  refine ⟨?_, nofun, ?_, nodup_nil, ?_, hlinking.known,
    fun other hmem hlink => hlinking.total_stored hzero hmem hlink,
    fun other hmem => hlinking.small_stored hnTx hcount hmem⟩
  · intro other hmem _
    by_cases hsame : other = pindex
    · subst hsame
      exact iff_of_false (not_not.2 hself) fun ho => ho.2 pprev hprev hpar
    · exact hlinking.chainTx_stored hzero hmem hsame
  · intro low other
    rw [mem_cons]
    by_cases hsame : other = pindex
    · subst hsame
      constructor
      · rintro (heq | hold)
        · cases heq
          exact ⟨hknown, hprev, by rw [nTx_stored]; exact hpos.ne', hpar⟩
        · exact absurd hold (hlinking.not_waiting hnTx low)
      · rintro ⟨-, hlowPrev, -⟩
        rw [hprev] at hlowPrev
        cases hlowPrev
        exact .inl rfl
    · rw [or_iff_right fun heq => hsame (Prod.ext_iff.1 heq).2]
      exact hlinking.unlinked_stored hzero low hsame
  · exact nodup_cons.2 ⟨hlinking.not_waiting hnTx pprev, hlinking.nodupUnlinked⟩

end

end

section

variable (hqueueing : tree.Queueing params []) (hknown : pindex ∈ tree.mapBlockIndex)

include hqueueing hknown

theorem Queueing.not_linked (hdata : (tree.entry pindex).haveData = false) :
    (tree.entry pindex).nTx = 0 ∧ (tree.entry pindex).nChainTx = 0 := by
  have hnTx : (tree.entry pindex).nTx = 0 := by
    by_contra hpos
    rw [(hqueueing.entries pindex hknown).data.2 hpos] at hdata
    cases hdata
  exact ⟨hnTx, hqueueing.linking.not_linked hknown hnTx⟩

variable (hpos : 0 < nTx) (hvalid : (tree.entry pindex).failed = false)
  (hdata : (tree.entry pindex).haveData = false)

include hpos hvalid hdata

omit hqueueing hknown in
theorem ok_stored (hok : (tree.entry pindex).Ok) (hzero : (tree.entry pindex).nChainTx = 0) :
    ((tree.stored pindex nTx).entry pindex).Ok := by
  have hlow : (tree.entry pindex).nValidity < blockValidTransactions := by
    by_contra hhigh
    rw [hok.data.2 (hok.transactions.1 (not_lt.1 hhigh))] at hdata
    cases hdata
  have hlevel : max (tree.entry pindex).nValidity blockValidTransactions =
      blockValidTransactions := max_eq_right hlow.le
  rw [entry_stored, hvalid]
  simp only [Bool.false_eq_true, if_false, hlevel]
  have hnTx : nTx ≠ 0 := hpos.ne'
  have hstart : blockValidTree ≤ blockValidTransactions := by decide
  refine ⟨hstart, ?_, ?_, ?_, fun _ => rfl, fun _ => hok.order hzero⟩
  · simp [hnTx]
  · simp [hnTx]
  · exact fun hhigh => absurd hhigh (lt_irrefl _)

/-- With the data of a block stored, only its own link is missing. -/
theorem Queueing.stored :
    (tree.stored pindex nTx).Ranked params (tree.stored pindex nTx).tip ∧
      ((tree.stored pindex nTx).entry (tree.stored pindex nTx).tip).nChainTx ≠ 0 ∧
      ∀ other ∈ tree.mapBlockIndex, ((tree.stored pindex nTx).entry other).Ok := by
  obtain ⟨hnTx, hzero⟩ := hqueueing.not_linked hknown hdata
  have hrank : ∀ other, (tree.stored pindex nTx).rank params other = tree.rank params other := by
    intro other
    refine rank_congr ?_ ?_
    · rw [entry_stored]
      split <;> rfl
    · rw [entry_stored]
      split <;> rfl
  have hlink : ∀ other, ((tree.stored pindex nTx).entry other).nChainTx =
      (tree.entry other).nChainTx := nChainTx_stored hzero
  refine ⟨⟨?_, ?_, ?_⟩, ?_, ?_⟩
  · simp only [hlink]
    exact hqueueing.ranked.linked
  · simp only [hrank]
    exact hqueueing.ranked.notWorse
  · simp only [hlink, hrank]
    refine fun other hmem ho hclean => hqueueing.ranked.complete other hmem ho ?_
    intro block hblk
    have hmark := hclean block hblk
    rw [entry_stored] at hmark
    split at hmark <;> exact hmark
  · rw [hlink]
    exact hqueueing.tip
  · intro other ho
    by_cases hsame : other = pindex
    · subst hsame
      exact ok_stored hpos hvalid hdata (hqueueing.entries other ho) hzero
    · rw [entry_stored_of_ne hsame]
      exact hqueueing.entries other ho

theorem Queueing.receivedBlockTransactions (hcount : tree.Countable pindex nTx)
    (horderly : ∀ pprev, pindex.pprev = some pprev → (tree.entry pprev).nChainTx = 0 →
      (tree.entry pprev).failed = false) :
    (tree.receivedBlockTransactions params pindex nTx).Queueing params [] := by
  obtain ⟨hnTx, hzero⟩ := hqueueing.not_linked hknown hdata
  obtain ⟨hranked, htip, hentries⟩ := hqueueing.stored hknown hpos hvalid hdata
  have hprevs := hqueueing.linking.known pindex hknown
  rcases received_cases params tree pindex nTx with
    ⟨hpar, heq⟩ | ⟨pprev, hprev, hpar, hcases⟩
  · rw [heq]
    exact linkBlocks_induction (fun queue tree => tree.Queueing params queue)
      (fun _ _ _ hqueueing => hqueueing.round) (Nat.add_comm _ _).le
      ⟨hqueueing.linking.queue_stored hknown hnTx hpos hcount hpar, hranked, htip, hentries⟩
  · have hlow : (tree.entry pprev).nChainTx = 0 := by rwa [nChainTx_stored hzero] at hpar
    have hgood : ((tree.stored pindex nTx).entry pprev).isValid blockValidTree = true := by
      rw [entry_stored_of_ne (ne_of_pprev hprev), BlockEntry.isValid, horderly pprev hprev hlow]
      exact decide_eq_true (hqueueing.entries pprev (hprevs pprev hprev)).level
    rcases hcases with ⟨-, heq⟩ | ⟨hbad, -⟩
    · rw [heq]
      exact ⟨hqueueing.linking.wait_stored hknown hnTx hpos hcount hprev hpar,
        ⟨hranked.linked, hranked.notWorse, hranked.complete⟩, htip, hentries⟩
    · rw [hgood] at hbad
      cases hbad

end

end stored

end BlockTree

end Catoshi
