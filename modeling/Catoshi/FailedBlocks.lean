/-
The set of blocks found invalid. `AcceptBlockHeader` looks there for a failed ancestor of a new
header and asserts that it is marked.
-/
import Catoshi.BlockTreeMoves
import Catoshi.Lib.Runs

namespace Catoshi

namespace BlockTree

/-! ### Reconsidering a block -/

def cleared (entry : BlockEntry) : BlockEntry :=
  { entry with failedValid := false, failedChild := false }

/-- What `ResetBlockFailureFlags` finds in the index: a block and its descendants, if not valid. -/
def Reconsidered (tree : BlockTree) (pindex other : CBlockIndex) : Prop :=
  (tree.entry other).isValid blockValidTransactions = false ∧ pindex ∈ other.ancestors

instance (tree : BlockTree) (pindex other : CBlockIndex) :
    Decidable (tree.Reconsidered pindex other) :=
  inferInstanceAs (Decidable (_ ∧ _))

/-- One round of the loop over the block index. -/
def reconsider (params : TreeParams) (pindex : CBlockIndex) (tree : BlockTree)
    (other : CBlockIndex) : BlockTree :=
  if tree.Reconsidered pindex other then
    let tree := tree.modify other cleared
    let tree :=
      if (tree.entry other).isValid blockValidTransactions &&
          decide ((tree.entry other).nChainTx ≠ 0) && tree.less params tree.tip other then
        tree.insertCandidate other
      else
        tree
    { tree with gFailedBlocks := tree.gFailedBlocks.filter fun failed => failed ≠ other }
  else
    tree

def clearAncestor (tree : BlockTree) (other : CBlockIndex) : BlockTree :=
  if (tree.entry other).failed then tree.modify other cleared else tree

theorem resetFlags_eq (params : TreeParams) (tree : BlockTree) (pindex : CBlockIndex) :
    tree.resetBlockFailureFlags params pindex =
      pindex.ancestors.foldl clearAncestor
        (tree.mapBlockIndex.foldl (reconsider params pindex) tree) := by
  have hround : ∀ (tree : BlockTree) (other : CBlockIndex),
      (!(tree.entry other).isValid blockValidTransactions &&
        decide (other.getAncestor pindex.nHeight = some pindex)) = true ↔
      tree.Reconsidered pindex other := by
    intro tree other
    rw [Bool.and_eq_true, Bool.not_eq_true', decide_eq_true_eq,
      CBlockIndex.getAncestor_eq_some_iff, Reconsidered]
  rw [resetBlockFailureFlags]
  simp only [hround]
  rfl

variable {β : Type*} {next tree : BlockTree} {pindex : CBlockIndex}

/-- What a round leaves, and which candidates it adds. -/
theorem reconsider_keeps (part : BlockTree → β)
    (hpart : ∀ (tree : BlockTree) entry candidates failed, part { tree with
      entry := entry, setBlockIndexCandidates := candidates,
      gFailedBlocks := failed } = part tree := by intros; rfl)
    {params : TreeParams} {other : CBlockIndex} :
    part (tree.reconsider params pindex other) = part tree := by
  rw [reconsider]
  split
  · simp only
    split <;> exact hpart tree _ _ _
  · rfl

theorem entry_reconsider (params : TreeParams) (pindex : CBlockIndex) (tree : BlockTree)
    (other block : CBlockIndex) :
    (tree.reconsider params pindex other).entry block =
      if block = other ∧ tree.Reconsidered pindex block then cleared (tree.entry block)
      else tree.entry block := by
  by_cases heq : block = other
  · subst heq
    rw [reconsider]
    split
    · next hf =>
      have hself : (tree.modify block cleared).entry block = cleared (tree.entry block) :=
        Function.update_self _ _ _
      rw [if_pos ⟨rfl, hf⟩, ← hself]
      simp only
      split <;> rfl
    · next hf => rw [if_neg fun hboth => hf hboth.2]
  · have ho : (tree.modify other cleared).entry block = tree.entry block :=
      Function.update_of_ne heq _ _
    rw [if_neg fun hboth => heq hboth.1, reconsider]
    split
    · simp only
      split <;> exact ho
    · rfl

theorem mem_gFailedBlocks_reconsider (params : TreeParams) (pindex : CBlockIndex)
    (tree : BlockTree) (other block : CBlockIndex) :
    block ∈ (tree.reconsider params pindex other).gFailedBlocks ↔
      block ∈ tree.gFailedBlocks ∧ ¬ (block = other ∧ tree.Reconsidered pindex block) := by
  rw [reconsider]
  split_ifs with hf
  · have hfilter : block ∈ tree.gFailedBlocks.filter (fun failed => failed ≠ other) ↔
        block ∈ tree.gFailedBlocks ∧ ¬ (block = other ∧ tree.Reconsidered pindex block) := by
      rw [List.mem_filter, decide_eq_true_eq]
      refine and_congr_right fun _ => not_congr ⟨fun heq => ⟨heq, heq ▸ hf⟩, And.left⟩
    simp only
    split <;> exact hfilter
  · refine ⟨fun hmem => ⟨hmem, ?_⟩, And.left⟩
    rintro ⟨rfl, hblk⟩
    exact hf hblk

variable {params : TreeParams} {block : CBlockIndex} {env : ActivateEnv}

theorem cleared_cleared (entry : BlockEntry) : cleared (cleared entry) = cleared entry := rfl

theorem cleared_of_not_failed {entry : BlockEntry} (hvalid : entry.failed = false) :
    cleared entry = entry := by
  obtain ⟨hself, hchild⟩ := Bool.or_eq_false_iff.1 hvalid
  cases entry
  simp only at hself hchild
  rw [cleared, hself, hchild]

/-- The loop over the index clears the flags and takes the blocks out of `g_failed_blocks`. -/
theorem foldl_reconsider (params : TreeParams) (pindex : CBlockIndex) (blocks : List CBlockIndex)
    (tree : BlockTree) (block : CBlockIndex) :
    (blocks.foldl (reconsider params pindex) tree).entry block =
        (if block ∈ blocks ∧ tree.Reconsidered pindex block then cleared (tree.entry block)
        else tree.entry block) ∧
      (block ∈ (blocks.foldl (reconsider params pindex) tree).gFailedBlocks ↔
        block ∈ tree.gFailedBlocks ∧ ¬ (block ∈ blocks ∧ tree.Reconsidered pindex block)) := by
  induction blocks generalizing tree with
  | nil => simp
  | cons other blocks ih =>
    obtain ⟨hent, hfail⟩ := ih (tree.reconsider params pindex other)
    rw [List.foldl_cons, hent, hfail, mem_gFailedBlocks_reconsider, entry_reconsider]
    by_cases hf : block = other ∧ tree.Reconsidered pindex block
    · obtain ⟨rfl, hblk⟩ := hf
      simp [hblk, cleared_cleared]
    · have heq : (tree.reconsider params pindex other).Reconsidered pindex block ↔
          tree.Reconsidered pindex block := by
        rw [Reconsidered, Reconsidered, entry_reconsider, if_neg hf]
      simp only [if_neg hf, heq]
      by_cases ho : block = other
      · have hnot : ¬ tree.Reconsidered pindex block := fun hblk => hf ⟨ho, hblk⟩
        simp [hnot]
      · simp [ho]

theorem entry_clearAncestor (tree : BlockTree) (other block : CBlockIndex) :
    (tree.clearAncestor other).entry block =
      if block = other then cleared (tree.entry block) else tree.entry block := by
  rw [clearAncestor]
  split
  · exact entry_modify tree other block _
  · next hvalid =>
    split_ifs with heq
    · rw [heq, cleared_of_not_failed (Bool.eq_false_iff.2 hvalid)]
    · rfl

theorem entry_foldl_clearAncestor (blocks : List CBlockIndex) (tree : BlockTree)
    (block : CBlockIndex) :
    (blocks.foldl clearAncestor tree).entry block =
      if block ∈ blocks then cleared (tree.entry block) else tree.entry block := by
  induction blocks generalizing tree with
  | nil => rfl
  | cons other blocks ih =>
    rw [List.foldl_cons, ih, entry_clearAncestor]
    by_cases heq : block = other
    · simp [heq, cleared_cleared]
    · simp [heq]

theorem clearAncestor_keeps (part : BlockTree → β)
    (hpart : ∀ (tree : BlockTree) entry, part { tree with entry := entry } = part tree := by
      intros; rfl) {blocks : List CBlockIndex} {tree : BlockTree} :
    part (blocks.foldl clearAncestor tree) = part tree := by
  refine foldl_keeps part fun tree other => ?_
  rw [clearAncestor]
  split
  · exact hpart tree _
  · rfl

theorem entry_resetFlags (params : TreeParams) (tree : BlockTree) (pindex block : CBlockIndex) :
    (tree.resetBlockFailureFlags params pindex).entry block =
      if block ∈ pindex.ancestors ∨ block ∈ tree.mapBlockIndex ∧ tree.Reconsidered pindex block
      then cleared (tree.entry block) else tree.entry block := by
  rw [resetFlags_eq, entry_foldl_clearAncestor, (foldl_reconsider _ _ _ _ _).1]
  by_cases hanc : block ∈ pindex.ancestors
  · rw [if_pos hanc, if_pos (Or.inl hanc)]
    split <;> rfl
  · simp only [hanc, if_false, false_or]

theorem mem_gFailedBlocks_reset (params : TreeParams) (tree : BlockTree)
    (pindex block : CBlockIndex) :
    block ∈ (tree.resetBlockFailureFlags params pindex).gFailedBlocks ↔
      block ∈ tree.gFailedBlocks ∧
        ¬ (block ∈ tree.mapBlockIndex ∧ tree.Reconsidered pindex block) := by
  rw [resetFlags_eq, clearAncestor_keeps gFailedBlocks, (foldl_reconsider _ _ _ _ _).2]

theorem resetFlags_keeps (part : BlockTree → β)
    (hpart : ∀ (tree : BlockTree) entry candidates failed, part { tree with
      entry := entry, setBlockIndexCandidates := candidates,
      gFailedBlocks := failed } = part tree := by intros; rfl)
    {params : TreeParams} : part (tree.resetBlockFailureFlags params pindex) = part tree := by
  rw [resetFlags_eq,
    clearAncestor_keeps part fun tree entry => hpart tree entry _ _,
    foldl_keeps part fun _ _ => reconsider_keeps part hpart]

/-- A block the loop over the index makes a candidate. -/
def MadeCandidate (params : TreeParams) (tree : BlockTree) (pindex block : CBlockIndex) : Prop :=
  tree.Reconsidered pindex block ∧
    (cleared (tree.entry block)).isValid blockValidTransactions = true ∧
    (tree.entry block).nChainTx ≠ 0 ∧ tree.less params tree.tip block = true

theorem less_reconsider (other first second : CBlockIndex) :
    (tree.reconsider params pindex other).less params first second =
      tree.less params first second := by
  refine less_congr (fun block => ?_) (fun block => ?_) _ _
  · rw [entry_reconsider]
    split <;> rfl
  · rw [entry_reconsider]
    split <;> rfl

theorem mem_candidates_reconsider_iff {other : CBlockIndex} :
    block ∈ (tree.reconsider params pindex other).setBlockIndexCandidates ↔
      block ∈ tree.setBlockIndexCandidates ∨
        block = other ∧ tree.MadeCandidate params pindex block := by
  have hself : (tree.modify other cleared).entry other = cleared (tree.entry other) :=
    Function.update_self _ _ _
  have hless : (tree.modify other cleared).less params (tree.modify other cleared).tip other =
      tree.less params tree.tip other := by
    refine less_congr (fun block => ?_) (fun block => ?_) _ _
    · rw [entry_modify]
      split <;> rfl
    · rw [entry_modify]
      split <;> rfl
  rw [reconsider]
  split_ifs with hf
  · simp only [hself, hless, Bool.and_eq_true, decide_eq_true_eq]
    split_ifs with hfits
    · rw [insertCandidate_setBlockIndexCandidates, List.mem_insert_iff, or_comm]
      refine or_congr_right ⟨fun heq => ⟨heq, ?_⟩, And.left⟩
      rw [heq]
      exact ⟨hf, hfits.1.1, hfits.1.2, hfits.2⟩
    · refine ⟨Or.inl, fun hmem => hmem.resolve_right ?_⟩
      rintro ⟨rfl, hmade⟩
      exact hfits ⟨⟨hmade.2.1, hmade.2.2.1⟩, hmade.2.2.2⟩
  · refine ⟨Or.inl, fun hmem => hmem.resolve_right ?_⟩
    rintro ⟨rfl, hmade⟩
    exact hf hmade.1

theorem madeCandidate_reconsider (other block : CBlockIndex) :
    (tree.reconsider params pindex other).MadeCandidate params pindex block ↔
      block ≠ other ∧ tree.MadeCandidate params pindex block := by
  have htip : (tree.reconsider params pindex other).tip = tree.tip := reconsider_keeps BlockTree.tip
  rw [MadeCandidate, Reconsidered, less_reconsider, htip, entry_reconsider]
  split_ifs with hf
  · rw [cleared_cleared]
    constructor
    · rintro ⟨⟨hinvalid, -⟩, hvalid, -⟩
      rw [hinvalid] at hvalid
      cases hvalid
    · rintro ⟨hne, -⟩
      exact absurd hf.1 hne
  · exact ⟨fun hmade => ⟨fun heq => hf ⟨heq, hmade.1⟩, hmade⟩, And.right⟩

/-- The candidates after the call. -/
theorem mem_candidates_reset_iff :
    block ∈ (tree.resetBlockFailureFlags params pindex).setBlockIndexCandidates ↔
      block ∈ tree.setBlockIndexCandidates ∨
        block ∈ tree.mapBlockIndex ∧ tree.MadeCandidate params pindex block := by
  have hfold : ∀ (blocks : List CBlockIndex) (tree : BlockTree),
      block ∈ (blocks.foldl (reconsider params pindex) tree).setBlockIndexCandidates ↔
        block ∈ tree.setBlockIndexCandidates ∨
          block ∈ blocks ∧ tree.MadeCandidate params pindex block := by
    intro blocks
    induction blocks with
    | nil => simp
    | cons other blocks ih =>
      intro tree
      rw [List.foldl_cons, ih, mem_candidates_reconsider_iff, madeCandidate_reconsider]
      by_cases heq : block = other <;> simp [heq]
  rw [resetFlags_eq, clearAncestor_keeps setBlockIndexCandidates]
  exact hfold _ _

theorem Grown.resetBlockFailureFlags (hgrown : tree.Grown params) (pindex : CBlockIndex) :
    (tree.resetBlockFailureFlags params pindex).Grown params := by
  refine hgrown.of_map_eq (resetFlags_keeps BlockTree.mapBlockIndex) ?_ ?_ ?_ ?_ ?_
  · rw [resetFlags_keeps BlockTree.tip]
    exact hgrown.tip
  · intro other ho
    rcases mem_candidates_reset_iff.1 ho with hold | ⟨hmap, -⟩
    · exact hgrown.candidates other hold
    · exact hmap
  · rw [resetFlags_keeps BlockTree.mapBlocksUnlinked]
    exact hgrown.unlinked
  · intro other ho
    exact hgrown.failed other ((mem_gFailedBlocks_reset _ _ _ _).1 ho).1
  · intro other ho
    rw [resetFlags_keeps BlockTree.tip] at ho
    rw [entry_resetFlags]
    split
    · exact ⟨rfl, (hgrown.usable other ho).2⟩
    · exact hgrown.usable other ho

/-! ### The blocks of the set are marked -/

/-- Every block of `g_failed_blocks` has `BLOCK_FAILED_VALID` set. -/
def FailedSound (tree : BlockTree) : Prop :=
  ∀ pindex ∈ tree.gFailedBlocks, (tree.entry pindex).failedValid = true

section

variable (hsound : tree.FailedSound)

include hsound

theorem FailedSound.headerStep (hgrown : tree.Grown params)
    {block : CBlockHeader} {result : Option CBlockIndex}
    (hstep : HeaderStep params tree block result next) : next.FailedSound := by
  cases hstep with
  | refused | known => exact hsound
  | added pprev hnew hprev hvalid hscrs =>
    intro pindex hpidx
    rw [entry_grow_of_mem hnew (hgrown.failed pindex hpidx)]
    exact hsound pindex hpidx
  | walked pprev failedit hprev hfail hmem hvalid =>
    intro pindex hpidx
    rw [invalidWalk_keeps gFailedBlocks] at hpidx
    rw [entry_invalidWalk]
    split <;> exact hsound pindex hpidx

theorem FailedSound.bodyStep {arrival : BlockArrival}
    (hstep : BodyStep params arrival tree pindex next) : next.FailedSound := by
  cases hstep with
  | same => exact hsound
  | refused reject hchecks hintact hdata =>
    intro other ho
    rw [entry_markFailedValid]
    split
    · rfl
    · exact hsound other ho
  | received hchecks hpos hdata =>
    intro other ho
    have hlink := (queued_received params tree pindex arrival.nTx).linked
    rw [hlink.gFailedBlocks] at ho
    rw [hlink.entry, entry_stored]
    split <;> exact hsound other ho

theorem FailedSound.move (hmove : Move params env tree next) : next.FailedSound := by
  have hscrs : ∀ pindex other, ((tree.markScriptsValid pindex).entry other).failedValid =
      (tree.entry other).failedValid := by
    intro pindex other
    rw [entry_markScriptsValid]
    split <;> rfl
  cases hmove with
  | disconnect pprev hprev => exact hsound
  | connect pindex next hin hprev huse hconns hprune =>
    rw [pruneCandidates_eq hprune]
    intro other ho
    exact (hscrs pindex other).trans (hsound other ho)
  | invalid pindex hin hprev huse hconns =>
    intro other ho
    rw [entry_invalid]
    split_ifs with hne
    · rfl
    · exact hsound other
        (((mem_gFailedBlocks_invalid params tree pindex other).1 ho).resolve_left hne)
  | systemError pindex hin hprev huse hconns =>
    intro other ho
    exact (hscrs pindex other).trans (hsound other ho)
  | discard pindexNew pindexTest hcand hmem hunusable =>
    intro other ho
    rw [removeChain_keeps gFailedBlocks] at ho
    cases (tree.entry pindexTest).failed with
    | false =>
      rw [entry_removeChain_missing]
      exact hsound other ho
    | true =>
      rw [entry_removeChain_failed]
      split <;> exact hsound other ho

theorem FailedSound.moves (hmoves : Moves params env tree next) : next.FailedSound := by
  induction hmoves with
  | refl => exact hsound
  | tail _ hmove ih => exact ih.move hmove

theorem FailedSound.invalidateBlock (params : TreeParams)
    (env : ActivateEnv) (pindex : CBlockIndex) :
    (tree.invalidateBlock params env pindex).2.FailedSound := by
  obtain ⟨low, hlow, hmoves, hstopped | ⟨hout, hinval⟩⟩ :=
    invalidateBlock_spec params env tree pindex
  · rw [hstopped]
    exact hsound.moves hmoves
  · intro other ho
    rw [hinval.entry]
    by_cases heq : other = pindex
    · rw [if_pos heq]
    · have hold := ((hinval.gFailedBlocks other).1 ho).resolve_left heq
      split <;> exact hsound other hold

end

/-- Reconsidering a block keeps the set sound just if no block below it is in it. -/
theorem failedSound_resetBlockFailureFlags_iff (hgrown : tree.Grown params)
    (hsound : tree.FailedSound) (pindex : CBlockIndex) :
    (tree.resetBlockFailureFlags params pindex).FailedSound ↔
      ∀ failed ∈ tree.gFailedBlocks, failed ∈ pindex.ancestors → failed = pindex := by
  have hreconsidered : ∀ failed ∈ tree.gFailedBlocks, pindex ∈ failed.ancestors →
      tree.Reconsidered pindex failed := by
    intro failed hfail hbelow
    refine ⟨?_, hbelow⟩
    rw [BlockEntry.isValid, failed_of_failedValid (hsound failed hfail)]
    rfl
  constructor
  · intro hafter failed hfail hanc
    by_contra hne
    -- a block below is not reconsidered, so it stays in the set without its mark
    have hstays : failed ∈ (tree.resetBlockFailureFlags params pindex).gFailedBlocks := by
      rw [mem_gFailedBlocks_reset]
      refine ⟨hfail, fun hf => hne ?_⟩
      exact CBlockIndex.ancestors_antisymm hanc hf.2.2
    have hmarked := hafter failed hstays
    rw [entry_resetFlags, if_pos (Or.inl hanc)] at hmarked
    cases hmarked
  · intro hspared failed hstays
    rw [mem_gFailedBlocks_reset] at hstays
    obtain ⟨hfail, hnot⟩ := hstays
    rw [entry_resetFlags, if_neg]
    · exact hsound failed hfail
    · rintro (hanc | hf)
      · obtain rfl := hspared failed hfail hanc
        exact hnot ⟨hgrown.failed failed hfail,
          hreconsidered failed hfail (CBlockIndex.ancestors_self _)⟩
      · exact hnot hf

theorem Grown.call {call : TreeCall} (hgrown : tree.Grown params)
    (hcall : tree.call params call = .ok next) : next.Grown params := by
  cases call_step hgrown hcall with
  | header block checks result next hstep => exact hgrown.headerStep hstep
  | refused arrival next hstep => exact hgrown.headerStep hstep
  | block arrival pindex mid next hhead hbody =>
    exact (hgrown.headerStep hhead).bodyStep hhead.mem hbody
  | activate env rounds next hmoves => exact hgrown.moves hmoves
  | invalidate env hash pindex hfind => exact hgrown.invalidateBlock env (mem_of_find hfind).1
  | invalidateUnknown => exact hgrown
  | reset hash pindex hfind => exact hgrown.resetBlockFailureFlags pindex
  | resetUnknown => exact hgrown

/-- A call clears no flags of a block that stays in `g_failed_blocks`: no other block of the set is
below a reconsidered one. -/
def Spares (tree : BlockTree) : TreeCall → Prop
  | .resetBlockFailureFlags hash => ∀ pindex, tree.find hash = some pindex →
      ∀ failed ∈ tree.gFailedBlocks, failed ∈ pindex.ancestors → failed = pindex
  | _ => True

/-- A call keeps the set sound just if it spares the blocks below. -/
theorem failedSound_call_iff {call : TreeCall} (hgrown : tree.Grown params)
    (hsound : tree.FailedSound) :
    (∀ next, tree.call params call = .ok next → next.FailedSound) ↔ tree.Spares call := by
  have hkeeps : ∀ {call next}, (∀ hash, call ≠ .resetBlockFailureFlags hash) →
      tree.call params call = .ok next → next.FailedSound := by
    intro call next ho hcall
    cases call_step hgrown hcall with
    | header block checks result next hstep => exact hsound.headerStep hgrown hstep
    | refused arrival next hstep => exact hsound.headerStep hgrown hstep
    | block arrival pindex mid next hhead hbody =>
      exact (hsound.headerStep hgrown hhead).bodyStep hbody
    | activate env rounds next hmoves => exact hsound.moves hmoves
    | invalidate env hash pindex hfind => exact hsound.invalidateBlock params env pindex
    | invalidateUnknown => exact hsound
    | reset hash pindex hfind => exact absurd rfl (ho hash)
    | resetUnknown hash => exact absurd rfl (ho hash)
  cases call with
  | resetBlockFailureFlags hash =>
    constructor
    · intro hnext pindex hfind
      refine (failedSound_resetBlockFailureFlags_iff hgrown hsound pindex).1 (hnext _ ?_)
      rw [call, hfind]
    · intro hspares next hcall
      rw [call] at hcall
      split at hcall
      · cases hcall
        exact hsound
      · next pindex hfind =>
        cases hcall
        exact (failedSound_resetBlockFailureFlags_iff hgrown hsound pindex).2 (hspares pindex hfind)
  | acceptBlockHeader | acceptBlock | activateBestChain | invalidateBlock =>
  exact ⟨fun _ => trivial, fun _ _ => hkeeps (by simp)⟩

/-- With a sound set the assertion of `AcceptBlockHeader` holds. -/
theorem FailedSound.acceptBlockHeader (hsound : tree.FailedSound) (params : TreeParams)
    (block : CBlockHeader) (checks : HeaderChecks) :
    ∃ result, tree.acceptBlockHeader params block checks = .ok result := by
  rw [BlockTree.acceptBlockHeader]
  split
  · exact ⟨_, rfl⟩
  · split
    · split <;> exact ⟨_, rfl⟩
    · split
      · exact ⟨_, rfl⟩
      · exact ⟨_, rfl⟩
      · split
        · exact ⟨_, rfl⟩
        · split
          · exact ⟨_, rfl⟩
          · split
            · exact ⟨_, rfl⟩
            · split
              · exact ⟨_, rfl⟩
              · next failedit hf =>
                rw [if_pos (hsound failedit (List.mem_of_find?_eq_some hf))]
                exact ⟨_, rfl⟩

/-- Along every run of a node, the blocks of `g_failed_blocks` are marked and the
assertion of `AcceptBlockHeader` holds for every header, exactly if no call of the
run reconsiders a block above another one of the set. -/
theorem failed_blocks_sound_iff (params : TreeParams) (nTime : UInt32) (nTx : ℕ)
    (calls : List TreeCall) :
    Runs.Always (call params) (fun tree => tree.FailedSound ∧
        ∀ block checks, ∃ result, tree.acceptBlockHeader params block checks = .ok result)
        calls (initial params nTime nTx) ↔
      Runs.Throughout (call params) Spares calls (initial params nTime nTx) := by
  have hfst : (initial params nTime nTx).FailedSound := nofun
  have hiff : Runs.Always (call params) FailedSound calls (initial params nTime nTx) ↔
      Runs.Throughout (call params) Spares calls (initial params nTime nTx) :=
    Runs.always_iff_throughout (Grown params) (fun _ _ _ hgrown hcall => hgrown.call hcall)
      (fun _ _ hgrown hsound => failedSound_call_iff hgrown hsound)
      (grown_initial params nTime nTx) hfst
  rw [← hiff]
  constructor
  · exact fun halways => halways.imp fun tree hboth => hboth.1
  · exact fun halways => halways.imp fun tree hsound =>
      ⟨hsound, hsound.acceptBlockHeader params⟩

end BlockTree

namespace FailedBlocksWitness

open BlockTree

def params : TreeParams where
  hashGenesisBlock := hashOf 0
  nMinimumChainWork := 0
  getBlockProof _ := 1
  getBlockProof_pos _ := Nat.one_pos
  address pindex := pindex.nHeight

def checks : HeaderChecks := ⟨.ok (), fun _ => .ok ()⟩

def header (hashPrevBlock hash : UInt8) : CBlockHeader := ⟨hashOf hash, hashOf hashPrevBlock, 0⟩

def env : ActivateEnv := ⟨fun _ => .connected, fun _ => true⟩

/-- Two headers, the lower is invalidated, and the upper reconsidered. -/
def reconsiderChild : List TreeCall :=
  [.acceptBlockHeader (header 0 1) checks, .acceptBlockHeader (header 1 2) checks,
    .invalidateBlock env (hashOf 1), .resetBlockFailureFlags (hashOf 2)]

/-- The lower block is still in `g_failed_blocks` but not marked any more, and the next
header on the branch fails the assertion. -/
theorem reconsidered_child_fails_assertion :
    ∃ tree, Runs.run (call params) reconsiderChild (initial params 0 1) = .ok tree ∧
      ¬ tree.FailedSound ∧
      tree.acceptBlockHeader params (header 2 3) checks =
        .error (.assertFailed "failedit->nStatus & BLOCK_FAILED_VALID") := by
  have hends : Runs.endsIn (call params) (fun tree =>
      (tree.gFailedBlocks.any fun pindex => !(tree.entry pindex).failedValid) &&
        match tree.acceptBlockHeader params (header 2 3) checks with
        | .error (.assertFailed message) =>
          message == "failedit->nStatus & BLOCK_FAILED_VALID"
        | _ => false) reconsiderChild (initial params 0 1) = true := by decide +kernel
  obtain ⟨tree, hrun, htest⟩ := Runs.exists_of_endsIn hends
  obtain ⟨hmarks, hassert⟩ := Bool.and_eq_true_iff.1 htest
  refine ⟨tree, hrun, fun hsound => ?_, ?_⟩
  · obtain ⟨pindex, hmem, hmark⟩ := List.any_eq_true.1 hmarks
    rw [hsound pindex hmem] at hmark
    cases hmark
  · split at hassert
    · next message hfault => rw [hfault, eq_of_beq hassert]
    · cases hassert

end FailedBlocksWitness

end Catoshi
