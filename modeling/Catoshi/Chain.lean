/-
The block tree: the way from a block down to the genesis block, where two ways meet (`chain.cpp`),
and the coins unspent after a block.
-/
import Catoshi.Ledger

namespace Catoshi

open CBlockIndex List

/-- `ReadBlockFromDisk` on an entry: what is found must have its hash. -/
def BlockStore.readBlockFromDisk (store : BlockStore) (pindex : CBlockIndex) : Option CBlock :=
  match store.blocks pindex with
  | some block => if block.getHash = pindex.getBlockHash then some block else none
  | none => none

namespace CBlockIndex

/-- The block and all before it, from the top down. -/
def ancestors : CBlockIndex → List CBlockIndex
  | genesis hash time => [genesis hash time]
  | child pprev hash time => child pprev hash time :: pprev.ancestors

def root : CBlockIndex → CBlockIndex
  | genesis hash time => genesis hash time
  | child pprev _ _ => pprev.root

/-- The loop of `LastCommonAncestor`: step down on both sides. -/
def meet : CBlockIndex → CBlockIndex → Option CBlockIndex
  | genesis hash time, pb => if genesis hash time = pb then some pb else none
  | child pa hash time, pb =>
    if child pa hash time = pb then some pb
    else
      match pb with
      | genesis _ _ => none
      | child pb _ _ => pa.meet pb

/-- `LastCommonAncestor`: bring both to one height, then step down. -/
def lastCommonAncestor (pa pb : CBlockIndex) : Option CBlockIndex := do
  let left ← if pb.nHeight < pa.nHeight then pa.getAncestor pb.nHeight else some pa
  let right ← if pa.nHeight < pb.nHeight then pb.getAncestor pa.nHeight else some pb
  left.meet right

/-- The blocks above `fork`, from the top down. -/
def above : CBlockIndex → CBlockIndex → List CBlockIndex
  | genesis hash time, fork => if genesis hash time = fork then [] else [genesis hash time]
  | child pprev hash time, fork =>
    if child pprev hash time = fork then []
    else child pprev hash time :: pprev.above fork

/-- All other common ancestors are ancestors of it. -/
structure HighestCommon (pa pb fork : CBlockIndex) : Prop where
  left : fork ∈ pa.ancestors
  right : fork ∈ pb.ancestors
  highest : ∀ other ∈ pa.ancestors, other ∈ pb.ancestors → other ∈ fork.ancestors

theorem ancestors_self (pindex : CBlockIndex) : pindex ∈ pindex.ancestors := by
  cases pindex <;> simp [ancestors]

theorem root_spec (pindex : CBlockIndex) :
    pindex.root ∈ pindex.ancestors ∧ pindex.root.pprev = none := by
  induction pindex with
  | genesis hash time => exact ⟨ancestors_self _, rfl⟩
  | child pprev hash time ih => exact ⟨mem_cons_of_mem _ ih.1, ih.2⟩

variable {low pindex tip mid pprev pa pb fork : CBlockIndex} {height : ℕ}

/-- What holds at a block and is kept by a block on top holds above it. -/
theorem ancestors_induction {motive : ∀ tip : CBlockIndex, low ∈ tip.ancestors → Prop}
    (self : motive low (ancestors_self low))
    (child : ∀ pprev hash time (hbelow : low ∈ pprev.ancestors), motive pprev hbelow →
      motive (child pprev hash time) (mem_cons_of_mem _ hbelow)) (tip : CBlockIndex)
    (hmem : low ∈ tip.ancestors) : motive tip hmem := by
  induction tip with
  | genesis hash time =>
    obtain rfl := mem_singleton.1 hmem
    exact self
  | child pprev hash time ih =>
    rcases mem_cons.1 hmem with rfl | hbelow
    · exact self
    · exact child pprev hash time hbelow (ih hbelow)

theorem nHeight_le_of_mem (hmem : pindex ∈ tip.ancestors) : pindex.nHeight ≤ tip.nHeight := by
  induction tip, hmem using ancestors_induction with
  | self => exact le_rfl
  | child pprev hash time hbelow ih => exact Nat.le_succ_of_le ih

theorem ancestors_trans (hlow : low ∈ mid.ancestors) (hmid : mid ∈ tip.ancestors) :
    low ∈ tip.ancestors := by
  induction tip, hmid using ancestors_induction with
  | self => exact hlow
  | child pprev hash time hbelow ih => exact mem_cons_of_mem _ ih

/-- An ancestor but the block itself is one of its predecessor. -/
theorem mem_ancestors_pprev {hash : Uint256} {time : UInt32}
    (hmem : pindex ∈ (child pprev hash time).ancestors) (hne : child pprev hash time ≠ pindex) :
    pindex ∈ pprev.ancestors :=
  (mem_cons.1 hmem).resolve_left fun heq => hne heq.symm

/-- The ancestors of a block lie on one line. -/
theorem mem_ancestors_of_le (hlow : low ∈ tip.ancestors) (hmid : mid ∈ tip.ancestors)
    (hle : low.nHeight ≤ mid.nHeight) : low ∈ mid.ancestors := by
  induction tip, hmid using ancestors_induction with
  | self => exact hlow
  | child pprev hash time hbelow ih =>
    refine ih (mem_ancestors_pprev hlow ?_)
    rintro rfl
    exact absurd (hle.trans (nHeight_le_of_mem hbelow)) (Nat.not_succ_le_self _)

theorem getAncestor_self (pindex : CBlockIndex) :
    pindex.getAncestor pindex.nHeight = some pindex := by
  cases pindex <;> simp [getAncestor, nHeight]

theorem getAncestor_child (hheight : height ≤ pprev.nHeight) (hash : Uint256) (time : UInt32) :
    (child pprev hash time).getAncestor height = pprev.getAncestor height := by
  rw [getAncestor, if_neg (by omega)]

theorem getAncestor_of_lt (hheight : tip.nHeight < height) : tip.getAncestor height = none := by
  induction tip with
  | genesis hash time =>
    rw [getAncestor, if_neg (by omega)]
  | child pprev hash time ih =>
    rw [nHeight] at hheight
    rw [getAncestor, if_neg (by omega), ih (by omega)]

/-- Below an ancestor a block has its ancestors. -/
theorem getAncestor_of_mem (hlow : low ∈ tip.ancestors) (hheight : height ≤ low.nHeight) :
    tip.getAncestor height = low.getAncestor height := by
  induction tip, hlow using ancestors_induction with
  | self => rfl
  | child pprev hash time hbelow ih =>
    rw [getAncestor_child (hheight.trans (nHeight_le_of_mem hbelow)), ih]

theorem mem_of_getAncestor (hf : tip.getAncestor height = some pindex) :
    pindex ∈ tip.ancestors := by
  induction tip with
  | genesis hash time =>
    rw [getAncestor] at hf
    split_ifs at hf
    exact mem_singleton.2 (Option.some.inj hf).symm
  | child pprev hash time ih =>
    rw [getAncestor] at hf
    split at hf
    · exact mem_cons.2 (Or.inl (Option.some.inj hf).symm)
    · exact mem_cons_of_mem _ (ih hf)

/-- Every height up to the block's has an ancestor. -/
theorem exists_getAncestor (hheight : height ≤ tip.nHeight) :
    ∃ pindex, tip.getAncestor height = some pindex ∧ pindex ∈ tip.ancestors ∧
      pindex.nHeight = height ∧ pindex.root = tip.root := by
  induction tip with
  | genesis hash time =>
    obtain rfl : height = 0 := Nat.le_zero.1 hheight
    exact ⟨genesis hash time, rfl, ancestors_self _, rfl, rfl⟩
  | child pprev hash time ih =>
    by_cases htop : height = pprev.nHeight + 1
    · subst htop
      exact ⟨_, getAncestor_self (child pprev hash time), ancestors_self _, rfl, rfl⟩
    · have hbelow : height ≤ pprev.nHeight := by
        rw [nHeight] at hheight
        omega
      obtain ⟨pindex, hf, hmem, hsame, hroot⟩ := ih hbelow
      exact ⟨pindex, by rw [getAncestor_child hbelow, hf], mem_cons_of_mem _ hmem, hsame, hroot⟩

theorem meet_self (pindex : CBlockIndex) : pindex.meet pindex = some pindex := by
  cases pindex <;> simp [meet]

/-- Two blocks of one height over one genesis block meet below. -/
theorem exists_meet (hheight : pa.nHeight = pb.nHeight) (hroot : pa.root = pb.root) :
    ∃ fork, pa.meet pb = some fork ∧ HighestCommon pa pb fork := by
  induction pa generalizing pb with
  | genesis hash time =>
    cases pb with
    | child pb _ _ => simp [nHeight] at hheight
    | genesis _ _ =>
      have hsame : genesis hash time = _ := hroot
      exact ⟨_, by simp only [meet, hsame, root, if_true],
        by rw [hsame]; exact ancestors_self _, ancestors_self _, fun _ _ hright => hright⟩
  | child pa hash time ih =>
    by_cases hsame : child pa hash time = pb
    · subst hsame
      exact ⟨_, meet_self _, ancestors_self _, ancestors_self _, fun _ _ hright => hright⟩
    · cases pb with
      | genesis _ _ => simp [nHeight] at hheight
      | child pb _ _ =>
        obtain ⟨fork, hmeet, hleft, hright, hhighest⟩ := ih (Nat.succ.inj hheight) hroot
        refine ⟨fork, by rw [meet, if_neg hsame, hmeet], mem_cons_of_mem _ hleft,
          mem_cons_of_mem _ hright, fun other ha hb => ?_⟩
        rw [nHeight, nHeight] at hheight
        rcases mem_cons.1 ha with rfl | hbelow
        · have hle := nHeight_le_of_mem (mem_ancestors_pprev hb (Ne.symm hsame))
          rw [nHeight] at hle
          omega
        · refine hhighest other hbelow (mem_ancestors_pprev hb ?_)
          rintro rfl
          have hle := nHeight_le_of_mem hbelow
          rw [nHeight] at hle
          omega

/-- A common ancestor is below the ancestor at the lower block's height. -/
theorem HighestCommon.of_mem {high : CBlockIndex} (hcommon : HighestCommon low mid fork)
    (hmem : mid ∈ high.ancestors) (hheight : mid.nHeight = low.nHeight) :
    HighestCommon low high fork where
  left := hcommon.left
  right := ancestors_trans hcommon.right hmem
  highest other hlow hhigh := hcommon.highest other hlow
    (mem_ancestors_of_le hhigh hmem (hheight.symm ▸ nHeight_le_of_mem hlow))

theorem HighestCommon.symm (hcommon : HighestCommon pa pb fork) : HighestCommon pb pa fork :=
  ⟨hcommon.right, hcommon.left, fun other hright hleft => hcommon.highest other hleft hright⟩

/-- Blocks over one genesis block have a common ancestor. -/
theorem exists_lastCommonAncestor (hroot : pa.root = pb.root) :
    ∃ fork, pa.lastCommonAncestor pb = some fork ∧ HighestCommon pa pb fork := by
  rcases lt_trichotomy pa.nHeight pb.nHeight with hlower | hsame | hhigher
  · obtain ⟨right, hf, hmem, hheight, hbelow⟩ := exists_getAncestor hlower.le
    obtain ⟨fork, hmeet, hcommon⟩ := exists_meet hheight.symm (hroot.trans hbelow.symm)
    refine ⟨fork, ?_, hcommon.of_mem hmem hheight⟩
    simp [lastCommonAncestor, hlower, hlower.le, hf, hmeet]
  · obtain ⟨fork, hmeet, hcommon⟩ := exists_meet hsame hroot
    exact ⟨fork, by simp [lastCommonAncestor, hsame, hmeet], hcommon⟩
  · obtain ⟨left, hf, hmem, hheight, hbelow⟩ := exists_getAncestor hhigher.le
    obtain ⟨fork, hmeet, hcommon⟩ := exists_meet hheight (hbelow.trans hroot)
    refine ⟨fork, ?_, (hcommon.symm.of_mem hmem hheight).symm⟩
    simp [lastCommonAncestor, hhigher, hhigher.le, hf, hmeet]

theorem above_self (fork : CBlockIndex) : fork.above fork = [] := by
  cases fork <;> simp [above]

theorem child_ne_of_mem (hbelow : low ∈ pprev.ancestors) (hash : Uint256) (time : UInt32) :
    child pprev hash time ≠ low := by
  rintro rfl
  exact absurd (nHeight_le_of_mem hbelow) (Nat.not_succ_le_self _)

theorem above_child (hbelow : fork ∈ pprev.ancestors) (hash : Uint256) (time : UInt32) :
    (child pprev hash time).above fork = child pprev hash time :: pprev.above fork := by
  rw [above, if_neg (child_ne_of_mem hbelow hash time)]

/-- The blocks above an ancestor are ancestors, none the genesis block. -/
theorem of_mem_above (hfork : fork ∈ tip.ancestors) (hmem : pindex ∈ tip.above fork) :
    pindex ∈ tip.ancestors ∧ ∃ pprev, pindex.pprev = some pprev := by
  induction tip, hfork using ancestors_induction with
  | self => simp [above_self] at hmem
  | child pprev hash time hbelow ih =>
    rw [above_child hbelow] at hmem
    rcases mem_cons.1 hmem with rfl | hlower
    · exact ⟨ancestors_self _, pprev, rfl⟩
    · obtain ⟨hanc, hprev⟩ := ih hlower
      exact ⟨mem_cons_of_mem _ hanc, hprev⟩

/-- The blocks above a fork are those of greater heights. -/
theorem map_getAncestor_above (hmem : fork ∈ tip.ancestors) :
    (List.range' (fork.nHeight + 1) (tip.nHeight - fork.nHeight)).map tip.getAncestor =
      (tip.above fork).reverse.map some := by
  induction tip, hmem using ancestors_induction with
  | self => simp [above_self]
  | child pprev hash time hbelow ih =>
    have hle := nHeight_le_of_mem hbelow
    have hlen : pprev.nHeight + 1 - fork.nHeight = pprev.nHeight - fork.nHeight + 1 := by
      omega
    have htop : fork.nHeight + 1 + 1 * (pprev.nHeight - fork.nHeight) =
        (child pprev hash time).nHeight := by
      rw [nHeight]
      omega
    have hsteps : (List.range' (fork.nHeight + 1) (pprev.nHeight - fork.nHeight)).map
        (child pprev hash time).getAncestor =
          (List.range' (fork.nHeight + 1) (pprev.nHeight - fork.nHeight)).map
            pprev.getAncestor := by
      refine map_congr_left fun height hheight => ?_
      rw [mem_range'_1] at hheight
      exact getAncestor_child (by omega) hash time
    rw [above_child hbelow, reverse_cons, map_append, ← ih, ← hsteps, nHeight, hlen,
      List.range'_concat, htop]
    simp [getAncestor_self]

end CBlockIndex

def blockWrites (blocks : CBlockIndex → Option CBlock) (pindex : CBlockIndex) :
    List (COutPoint × Option Coin) :=
  match blocks pindex with
  | some block => block.vtx.flatMap fun tx => tx.writes pindex.nHeight
  | none => []

/-- The unspent coins after a block, without the outputs of the genesis block. -/
def utxoAt (blocks : CBlockIndex → Option CBlock) : CBlockIndex → UtxoMap
  | .genesis _ _ => fun _ => none
  | .child pprev hash time =>
    WriteLog.apply (blockWrites blocks (.child pprev hash time)) (utxoAt blocks pprev)

variable {pprev pindex : CBlockIndex}

theorem utxoAt_child {blocks : CBlockIndex → Option CBlock} (hprev : pindex.pprev = some pprev)
    {block : CBlock} (hblk : blocks pindex = some block) :
    utxoAt blocks pindex = afterTxs pindex.nHeight (utxoAt blocks pprev) block.vtx := by
  cases pindex with
  | genesis hash time => cases hprev
  | child other hash time =>
    obtain rfl : other = pprev := Option.some.inj hprev
    simp only [utxoAt, blockWrites, hblk, afterTxs_eq_apply]

/-- The blocks above an ancestor lead from its coins to those of the tip. -/
theorem utxoAt_above (blocks : CBlockIndex → Option CBlock) {fork tip : CBlockIndex}
    (hmem : fork ∈ tip.ancestors) :
    WriteLog.apply ((tip.above fork).reverse.flatMap (blockWrites blocks))
      (utxoAt blocks fork) = utxoAt blocks tip := by
  induction tip, hmem using ancestors_induction with
  | self => simp [above_self]
  | child pprev hash time hbelow ih =>
    rw [above_child hbelow, reverse_cons, flatMap_append, WriteLog.apply_append, ih]
    simp [utxoAt]

/-- The unspent coins at a tip; none before the first flush. -/
def utxoAtTip (blocks : CBlockIndex → Option CBlock) : Option CBlockIndex → UtxoMap
  | none => fun _ => none
  | some tip => utxoAt blocks tip

def tipHash (tip : Option CBlockIndex) : Uint256 :=
  (tip.map CBlockIndex.getBlockHash).getD (BaseBlob.null 32)

/-- The active chain; empty before the genesis block. -/
def activeChain : Option CBlockIndex → List CBlockIndex
  | none => []
  | some tip => tip.ancestors

theorem activeChain_some (pindex : CBlockIndex) :
    activeChain (some pindex) = pindex :: activeChain pindex.pprev := by
  cases pindex <;> rfl

theorem CBlockIndex.ancestors_of_pprev (hprev : pindex.pprev = some pprev) :
    pindex.ancestors = pindex :: pprev.ancestors := by
  cases pindex with
  | genesis hash time => cases hprev
  | child below hash time =>
    cases hprev
    rfl

theorem CBlockIndex.mem_of_pprev (hprev : pindex.pprev = some pprev) :
    pprev ∈ pindex.ancestors := by
  rw [ancestors_of_pprev hprev]
  exact mem_cons_of_mem _ (ancestors_self _)

/-- A block without predecessor is its only ancestor. -/
theorem CBlockIndex.eq_of_mem_ancestors {other : CBlockIndex} (hprev : pindex.pprev = none)
    (hmem : other ∈ pindex.ancestors) : other = pindex := by
  cases pindex with
  | genesis hash time => exact mem_singleton.1 hmem
  | child below hash time => cases hprev

theorem CBlockIndex.nHeight_of_pprev (hprev : pindex.pprev = some pprev) :
    pindex.nHeight = pprev.nHeight + 1 := by
  cases pindex with
  | genesis hash time => cases hprev
  | child below hash time =>
    cases hprev
    rfl

/-- `chainActive.Contains`. -/
def chainContains (tip : Option CBlockIndex) (pindex : CBlockIndex) : Bool :=
  decide (tip.bind (fun tip => tip.getAncestor pindex.nHeight) = some pindex)

theorem chainContains_iff {tip : Option CBlockIndex} :
    chainContains tip pindex = true ↔ pindex ∈ activeChain tip := by
  rw [chainContains, decide_eq_true_eq]
  cases tip with
  | none => simp [activeChain]
  | some tip =>
    constructor
    · exact mem_of_getAncestor
    · intro hmem
      exact (getAncestor_of_mem hmem le_rfl).trans (getAncestor_self pindex)

end Catoshi
