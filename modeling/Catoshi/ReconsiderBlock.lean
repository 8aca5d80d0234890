/-
What `ResetBlockFailureFlags` leaves. It looks for invalid blocks only among the descendants, so
what the ancestors held back elsewhere stays.
-/
import Catoshi.BlockIndexChecked

namespace Catoshi

open BlockEntry

namespace BlockTree

/-- What is read off the assertions of `CheckBlockIndex`. -/
structure Asserted (params : TreeParams) (tree : BlockTree) (pindex : CBlockIndex) : Prop where
  data : (tree.entry pindex).haveData = true → 0 < (tree.entry pindex).nTx
  transactions : blockValidTransactions ≤ (tree.entry pindex).nValidity ↔
    0 < (tree.entry pindex).nTx
  linked : (∀ other ∈ pindex.ancestors, 0 < (tree.entry other).nTx) →
    (tree.entry pindex).nChainTx ≠ 0
  clean : tree.Clean pindex → (tree.entry pindex).failed = false
  candidate : tree.less params pindex tree.tip = false → tree.Clean pindex →
    (∀ other ∈ pindex.ancestors, 0 < (tree.entry other).nTx) →
    (∀ other ∈ pindex.ancestors, (tree.entry other).haveData = true) →
    pindex ∈ tree.setBlockIndexCandidates

section Checked

variable {params : TreeParams} {fHavePruned : Bool} {tree : BlockTree} {pindex : CBlockIndex}

theorem first_neverProcessed_eq_none_iff :
    first (fun other => (tree.entry other).nTx = 0) pindex = none ↔
      ∀ other ∈ pindex.ancestors, 0 < (tree.entry other).nTx := by
  rw [first_eq_none_iff]
  simp only [decide_eq_false_iff_not, Nat.pos_iff_ne_zero, ne_eq]

theorem asserted_of_check (hcheck : tree.checkBlockIndex params fHavePruned = true)
    (hknown : pindex ∈ tree.mapBlockIndex) : tree.Asserted params pindex := by
  rw [checkBlockIndex, Bool.and_eq_true, List.all_eq_true] at hcheck
  obtain ⟨hent, hsets⟩ := Bool.and_eq_true_iff.1 (hcheck.2 pindex hknown)
  simp only [checkEntry, Bool.and_eq_true, decide_eq_true_eq] at hent
  obtain ⟨⟨⟨⟨⟨⟨⟨⟨⟨⟨⟨⟨⟨-, -⟩, hdata⟩, -⟩, htransactions⟩, hnever⟩, -⟩, -⟩, -⟩, -⟩, -⟩, -⟩, -⟩,
    hclean⟩ := hent
  refine ⟨?_, htransactions, fun hall hzero => ?_, fun hpath => ?_,
    fun hless hpath hall hpresent => ?_⟩
  · intro hpresent
    cases fHavePruned with
    | true => exact of_decide_eq_true hdata hpresent
    | false =>
      have hboth := (Bool.and_eq_true_iff.1 hdata).1
      rw [decide_eq_true_eq, hpresent] at hboth
      exact Nat.pos_of_ne_zero fun hzero => Bool.noConfusion (hboth.2 hzero)
  · exact hnever.2 hzero (first_neverProcessed_eq_none_iff.2 hall)
  · exact hclean (first_failedValid_eq_none_iff.2 hpath)
  · have hprocessed := first_neverProcessed_eq_none_iff.2 hall
    have hmissing : first (fun other => !(tree.entry other).haveData) pindex = none := by
      rw [first_eq_none_iff]
      exact fun other ho => by rw [hpresent other ho, Bool.not_true]
    simp only [checkSets, Bool.and_eq_true] at hsets
    obtain ⟨⟨⟨⟨hcand, -⟩, -⟩, -⟩, -⟩ := hsets
    rw [if_pos ⟨hless, hprocessed⟩, decide_eq_true_eq] at hcand
    exact hcand (first_failedValid_eq_none_iff.2 hpath) (.inl hmissing)

theorem ancestors_of_check (hcheck : tree.checkBlockIndex params fHavePruned = true)
    (hknown : pindex ∈ tree.mapBlockIndex) {other : CBlockIndex}
    (ho : other ∈ pindex.ancestors) : other ∈ tree.mapBlockIndex := by
  rw [checkBlockIndex, Bool.and_eq_true, Bool.and_eq_true, List.all_eq_true] at hcheck
  have hpprev := hcheck.1.2
  induction pindex, ho using CBlockIndex.ancestors_induction with
  | self => exact hknown
  | child pprev hash time hbelow ih => exact ih (of_decide_eq_true (hpprev _ hknown) pprev rfl)

end Checked

/-- All failed marks have a reason, and every better block that could be the tip is a candidate. -/
structure Reopened (params : TreeParams) (tree : BlockTree) : Prop where
  marks : ∀ pindex ∈ tree.mapBlockIndex, (tree.entry pindex).failedChild = true →
    ∃ other ∈ pindex.ancestors, (tree.entry other).failedValid = true
  candidates : ∀ pindex ∈ tree.mapBlockIndex, tree.Clean pindex →
    (∀ other ∈ pindex.ancestors, (tree.entry other).haveData = true) →
    tree.less params tree.tip pindex = true → pindex ∈ tree.setBlockIndexCandidates

/-- A block freed by clearing the flags of `pindex`, its ancestors and its descendants: nothing
else held it back. -/
def Frees (tree : BlockTree) (pindex block : CBlockIndex) : Prop :=
  ¬ tree.Clean block ∧ ∀ other ∈ block.ancestors, (tree.entry other).failedValid = true →
    other ∈ pindex.ancestors ∨ pindex ∈ other.ancestors

/-- When clearing is enough: marks beside the chain of `pindex` have another reason than its
ancestors, and every freed block better than the tip is a marked descendant of `pindex` or a
candidate already. -/
structure Confined (params : TreeParams) (tree : BlockTree) (pindex : CBlockIndex) : Prop where
  marks : ∀ block ∈ tree.mapBlockIndex, pindex ∉ block.ancestors → block ∉ pindex.ancestors →
    (tree.entry block).failedChild = true →
    ∃ other ∈ block.ancestors, other ∉ pindex.ancestors ∧ (tree.entry other).failedValid = true
  candidates : ∀ block ∈ tree.mapBlockIndex, tree.Frees pindex block →
    (∀ other ∈ block.ancestors, (tree.entry other).haveData = true) →
    tree.less params tree.tip block = true →
    pindex ∈ block.ancestors ∧ (tree.entry block).failed = true ∨
      block ∈ tree.setBlockIndexCandidates

section Reset

variable {params : TreeParams} {tree : BlockTree} {pindex : CBlockIndex}

theorem less_asymm {first second : CBlockIndex} (hless : tree.less params first second = true) :
    tree.less params second first = false :=
  less_eq_false_iff.2 (less_iff.1 hless).le

variable {block : CBlockIndex}

/-- The flags after the call. -/
theorem failed_reset (hknown : block ∈ tree.mapBlockIndex) :
    (((tree.resetBlockFailureFlags params pindex).entry block).failedValid = true ↔
      (tree.entry block).failedValid = true ∧ block ∉ pindex.ancestors ∧ pindex ∉ block.ancestors) ∧
    (((tree.resetBlockFailureFlags params pindex).entry block).failedChild = true ↔
      (tree.entry block).failedChild = true ∧ block ∉ pindex.ancestors ∧
        pindex ∉ block.ancestors) := by
  rw [entry_resetFlags]
  split_ifs with hcleared
  · have hrelated : ¬ (block ∉ pindex.ancestors ∧ pindex ∉ block.ancestors) := by
      rintro ⟨hbelow, habove⟩
      exact hcleared.elim hbelow fun hf => habove hf.2.2
    simp [cleared, hrelated]
  · rw [not_or] at hcleared
    -- a marked block that was left alone is no descendant
    have hbeside : (tree.entry block).failed = true → pindex ∉ block.ancestors := by
      intro hfailed habove
      refine hcleared.2 ⟨hknown, ?_, habove⟩
      rw [isValid, hfailed, Bool.not_true, Bool.false_and]
    refine ⟨⟨fun hvalid => ⟨hvalid, hcleared.1, hbeside ?_⟩, And.left⟩,
      ⟨fun hchild => ⟨hchild, hcleared.1, hbeside ?_⟩, And.left⟩⟩
    · rw [failed, hvalid, Bool.true_or]
    · rw [failed, hchild, Bool.or_true]

/-- The call changes only flags in the entries. -/
theorem entry_reset_keeps {β : Type*} (part : BlockEntry → β)
    (hpart : ∀ entry, part (cleared entry) = part entry) (block : CBlockIndex) :
    part ((tree.resetBlockFailureFlags params pindex).entry block) = part (tree.entry block) := by
  rw [entry_resetFlags]
  split
  · exact hpart _
  · rfl

theorem less_reset (block : CBlockIndex) :
    (tree.resetBlockFailureFlags params pindex).less params
        (tree.resetBlockFailureFlags params pindex).tip block =
      tree.less params tree.tip block := by
  rw [resetFlags_keeps BlockTree.tip]
  exact less_congr (entry_reset_keeps nChainWork fun _ => rfl)
    (entry_reset_keeps nSequenceId fun _ => rfl) _ _

/-- The blocks clean after the call were clean before or are freed. -/
theorem clean_reset_iff (hcheck : tree.checkBlockIndex params fHavePruned = true)
    (hknown : block ∈ tree.mapBlockIndex) :
    (tree.resetBlockFailureFlags params pindex).Clean block ↔
      tree.Clean block ∨ tree.Frees pindex block := by
  have hclean : (tree.resetBlockFailureFlags params pindex).Clean block ↔
      ∀ other ∈ block.ancestors, (tree.entry other).failedValid = true →
        other ∈ pindex.ancestors ∨ pindex ∈ other.ancestors := by
    refine forall_congr' fun other => forall_congr' fun ho => ?_
    rw [← Bool.not_eq_true, (failed_reset (ancestors_of_check hcheck hknown ho)).1]
    tauto
  rw [hclean, Frees]
  by_cases hpre : tree.Clean block
  · refine ⟨fun _ => .inl hpre, fun _ other ho hvalid => ?_⟩
    rw [hpre other ho] at hvalid
    cases hvalid
  · simp [hpre]

theorem MadeCandidate.failed (hmade : tree.MadeCandidate params pindex block) :
    (tree.entry block).failed = true := by
  by_contra hvalid
  have heq := hmade.2.1
  rw [cleared_of_not_failed (Bool.eq_false_iff.2 hvalid), hmade.1.1] at heq
  cases heq

theorem madeCandidate_of_failed (hcheck : tree.checkBlockIndex params fHavePruned = true)
    (hknown : block ∈ tree.mapBlockIndex) (habove : pindex ∈ block.ancestors)
    (hfailed : (tree.entry block).failed = true)
    (hpresent : ∀ other ∈ block.ancestors, (tree.entry other).haveData = true)
    (hless : tree.less params tree.tip block = true) : tree.MadeCandidate params pindex block := by
  have hasserted := asserted_of_check hcheck hknown
  have hprocessed : ∀ other ∈ block.ancestors, 0 < (tree.entry other).nTx := fun other ho =>
    (asserted_of_check hcheck (ancestors_of_check hcheck hknown ho)).data (hpresent other ho)
  have hlevel := hasserted.transactions.2 (hprocessed block (CBlockIndex.ancestors_self _))
  refine ⟨⟨?_, habove⟩, ?_, hasserted.linked hprocessed, hless⟩
  · rw [isValid, hfailed, Bool.not_true, Bool.false_and]
  · exact decide_eq_true hlevel

/-- After the call the tree is completely reopened exactly if what the call frees is
confined to the marked descendants of the block. -/
theorem reconsider_reopens_iff_confined (hcheck : tree.checkBlockIndex params fHavePruned = true) :
    (tree.resetBlockFailureFlags params pindex).Reopened params ↔ tree.Confined params pindex := by
  have hmap : (tree.resetBlockFailureFlags params pindex).mapBlockIndex = tree.mapBlockIndex :=
    resetFlags_keeps BlockTree.mapBlockIndex
  have hdata : ∀ block : CBlockIndex, (∀ other ∈ block.ancestors,
      ((tree.resetBlockFailureFlags params pindex).entry other).haveData = true) ↔
      ∀ other ∈ block.ancestors, (tree.entry other).haveData = true := fun block =>
    forall_congr' fun other => forall_congr' fun _ =>
      iff_of_eq (congrArg (· = true) (entry_reset_keeps haveData (fun _ => rfl) other))
  constructor
  · intro hopen
    constructor
    · intro block hknown habove hbelow hchild
      obtain ⟨other, ho, hvalid⟩ := hopen.marks block (hmap ▸ hknown)
        ((failed_reset hknown).2.2 ⟨hchild, hbelow, habove⟩)
      have hpre := (failed_reset (ancestors_of_check hcheck hknown ho)).1.1 hvalid
      exact ⟨other, ho, hpre.2.1, hpre.1⟩
    · intro block hknown hfrees hpresent hless
      have hafter := hopen.candidates block (hmap ▸ hknown)
        ((clean_reset_iff hcheck hknown).2 (.inr hfrees)) ((hdata block).2 hpresent)
        ((less_reset block).trans hless)
      rcases mem_candidates_reset_iff.1 hafter with hold | ⟨-, hmade⟩
      · exact .inr hold
      · exact .inl ⟨hmade.1.2, hmade.failed⟩
  · intro hconfined
    constructor
    · intro block hknown hchild
      rw [hmap] at hknown
      obtain ⟨hpre, hbelow, habove⟩ := (failed_reset hknown).2.1 hchild
      obtain ⟨other, ho, hbeside, hvalid⟩ := hconfined.marks block hknown habove hbelow hpre
      refine ⟨other, ho, ?_⟩
      refine (failed_reset (ancestors_of_check hcheck hknown ho)).1.2 ⟨hvalid, hbeside, ?_⟩
      exact fun hlow => habove (CBlockIndex.ancestors_trans hlow ho)
    · intro block hknown hclean hpresent hless
      rw [hmap] at hknown
      rw [less_reset] at hless
      have hpresentBefore := (hdata block).1 hpresent
      rw [mem_candidates_reset_iff]
      rcases (clean_reset_iff hcheck hknown).1 hclean with hpre | hfrees
      · refine .inl ((asserted_of_check hcheck hknown).candidate (less_asymm hless) hpre ?_
          hpresentBefore)
        exact fun other ho =>
          (asserted_of_check hcheck (ancestors_of_check hcheck hknown ho)).data
            (hpresentBefore other ho)
      · rcases hconfined.candidates block hknown hfrees hpresentBefore hless with
          ⟨habove, hfailed⟩ | hold
        · exact .inr ⟨hknown, madeCandidate_of_failed hcheck hknown habove hfailed hpresentBefore
            hless⟩
        · exact .inl hold

end Reset

end BlockTree

namespace ReconsiderBlockWitness

open BlockTree FailedBlocksWitness InvalidHeadersWitness

/-- Of two blocks on one the first is connected; the one below is invalidated, and the node looks
for another chain. -/
def invalidateFork : List TreeCall :=
  [.acceptBlock (validBody 0 1), .acceptBlock (validBody 1 2), .acceptBlock (validBody 1 3),
    .activateBestChain env 5, .invalidateBlock env (hashOf 1), .activateBestChain env 5]

def reconsidered : CBlockIndex :=
  .child (.child (.genesis (hashOf 0) 0) (hashOf 1) 0) (hashOf 2) 0

/-- The block beside it. -/
def sibling : CBlockIndex :=
  .child (.child (.genesis (hashOf 0) 0) (hashOf 1) 0) (hashOf 3) 0

/-- The block beside the reconsidered one keeps its mark, though no block below it is marked
any more, and is no candidate. -/
theorem reconsider_leaves_sibling_marked :
    ∃ tree, Runs.run (BlockTree.call params) invalidateFork (initial params 0 1) = .ok tree ∧
      tree.checkBlockIndex params false = true ∧ reconsidered ∈ tree.mapBlockIndex ∧
      ¬ (tree.resetBlockFailureFlags params reconsidered).Reopened params := by
  have hends : Runs.endsIn (BlockTree.call params) (fun tree =>
      tree.checkBlockIndex params false && decide (reconsidered ∈ tree.mapBlockIndex) &&
        decide (sibling ∈ (tree.resetBlockFailureFlags params reconsidered).mapBlockIndex) &&
        ((tree.resetBlockFailureFlags params reconsidered).entry sibling).failedChild &&
        sibling.ancestors.all fun other =>
          !((tree.resetBlockFailureFlags params reconsidered).entry other).failedValid)
      invalidateFork (initial params 0 1) = true := by decide +kernel
  obtain ⟨tree, hrun, htest⟩ := Runs.exists_of_endsIn hends
  simp only [Bool.and_eq_true, decide_eq_true_eq, List.all_eq_true, Bool.not_eq_true'] at htest
  obtain ⟨⟨⟨⟨hcheck, hknown⟩, hsibling⟩, hchild⟩, hclean⟩ := htest
  refine ⟨tree, hrun, hcheck, hknown, fun hopen => ?_⟩
  obtain ⟨other, ho, hvalid⟩ := hopen.marks sibling hsibling hchild
  rw [hclean other ho] at hvalid
  cases hvalid

def invalidateChain : List TreeCall :=
  [.acceptBlock (validBody 0 1), .acceptBlock (validBody 1 2), .activateBestChain env 5,
    .invalidateBlock env (hashOf 1), .activateBestChain env 5]

def invalidated : CBlockIndex := .child (.genesis (hashOf 0) 0) (hashOf 1) 0

/-- Reconsidering the block that was invalidated opens the chain again. -/
theorem reconsider_reopens_chain :
    ∃ tree, Runs.run (BlockTree.call params) invalidateChain (initial params 0 1) = .ok tree ∧
      (tree.resetBlockFailureFlags params invalidated).Reopened params := by
  have hends : Runs.endsIn (BlockTree.call params) (fun tree =>
      tree.checkBlockIndex params false &&
        tree.mapBlockIndex.all (fun block =>
          decide (invalidated ∈ block.ancestors ∨ block ∈ invalidated.ancestors)) &&
        tree.mapBlockIndex.all fun block =>
          decide (invalidated ∈ block.ancestors ∧ (tree.entry block).failed = true ∨
            tree.less params tree.tip block = false))
      invalidateChain (initial params 0 1) = true := by decide +kernel
  obtain ⟨tree, hrun, htest⟩ := Runs.exists_of_endsIn hends
  simp only [Bool.and_eq_true, decide_eq_true_eq, List.all_eq_true] at htest
  obtain ⟨⟨hcheck, hchain⟩, hmarked⟩ := htest
  refine ⟨tree, hrun, (reconsider_reopens_iff_confined hcheck).2 ⟨?_, ?_⟩⟩
  · intro block hblk habove hbelow
    exact absurd (hchain block hblk) (not_or.2 ⟨habove, hbelow⟩)
  · intro block hblk _ _ hless
    refine .inl ((hmarked block hblk).resolve_right ?_)
    rw [hless]
    nofun

end ReconsiderBlockWitness

end Catoshi
